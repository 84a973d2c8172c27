import Grf.Record.Write
import Mathlib.Data.List.Forall2
import Mathlib.Tactic.Common

/-! # The layout of records

A record is written as a row of cells. The bytes of a cell are known, or the value of a parameter gives them: then zeros
are written, and a patch puts the value in their place. `Spells` says that bytes have been written for cells. Wherever a
record is written, its bytes are those of its cells, and its only comment is its name (`Record.tokens_lays`). The places
of the parameter values, the `placeholders`, do not overlap.
-/

namespace Grf

open List Token VarRead

variable {α β : Type} {size : Int} {t : Token}

theorem except_bind_eq_ok {ε : Type} {x : Except ε α} {f : α → Except ε β} {b : β}
    (h : (x >>= f) = .ok b) : ∃ a, x = .ok a ∧ f a = .ok b := by
  cases x with
  | error e => cases h
  | ok a => exact ⟨a, rfl, h⟩

theorem exists_left_of_forall₂ {R : α → β → Prop} {as : List α} {bs : List β}
    (h : Forall₂ R as bs) {b : β} (hb : b ∈ bs) : ∃ a ∈ as, R a b := by
  induction h with
  | nil => cases hb
  | cons hR _ ih =>
    rcases mem_cons.mp hb with rfl | hb
    · exact ⟨_, mem_cons_self, hR⟩
    grind

theorem exists_right_of_forall₂ {R : α → β → Prop} {as : List α} {bs : List β}
    (h : Forall₂ R as bs) {a : α} (ha : a ∈ as) : ∃ b ∈ bs, R a b :=
  exists_left_of_forall₂ (R := fun b a => R a b) h.flip ha

theorem flatMap_eq_of_forall₂ {γ : Type} {f : α → List γ} {g : β → List γ} {as : List α}
    {bs : List β} (h : Forall₂ (fun a b => f a = g b) as bs) : as.flatMap f = bs.flatMap g := by
  induction h with
  | nil => rfl
  | cons hab _ ih => rw [flatMap_cons, flatMap_cons, hab, ih]

def IsWidth (n : Int) : Prop := n = 1 ∨ n = 2 ∨ n = 4

theorem IsWidth.sized {n : Int} (h : IsWidth n) (v : Int) : ∃ t, sized v n = .ok t := by
  rcases h with rfl | rfl | rfl <;> exact ⟨_, rfl⟩

theorem IsWidth.pos {n : Int} (h : IsWidth n) : 0 < n := by
  unfold IsWidth at h
  omega

def Encodable (text : String) : Prop := ∃ n, EngineText.size (Text.bytesOf text) true false = .ok n

/-! ## Cells -/

/-- A number of bytes of a record, which are known or which the value of a parameter gives. -/
structure Cell where
  size : Int
  param : Option Int := none
deriving DecidableEq

def cellsSize (cells : List Cell) : Int := Record.total (cells.map (·.size))

/-- The requests for the parameter values among the cells, which start at `offset`. -/
def placeholders (offset : Int) : List Cell → List Patch
  | [] => []
  | cell :: rest =>
    cell.param.toList.map (fun param => { param, size := cell.size, offset }) ++
      placeholders (offset + cell.size) rest

/-- The bytes that are written for cells: as many for each cell as its size, and zeros for a value
that a parameter gives. -/
inductive Spells : List Cell → List UInt8 → Prop
  | nil : Spells [] []
  | cons {cell : Cell} {chunk : List UInt8} {cells : List Cell} {bytes : List UInt8}
      (length : (chunk.length : Int) = cell.size) (zero : cell.param.isSome → ∀ b ∈ chunk, b = 0)
      (rest : Spells cells bytes) : Spells (cell :: cells) (chunk ++ bytes)

section Cells

variable {cells cells' : List Cell} {bytes bytes' : List UInt8} {offset : Int}

@[simp] theorem cellsSize_nil : cellsSize [] = 0 := rfl

@[simp] theorem cellsSize_cons (cell : Cell) (cells : List Cell) :
    cellsSize (cell :: cells) = cell.size + cellsSize cells := rfl

@[simp] theorem cellsSize_append (cells cells' : List Cell) :
    cellsSize (cells ++ cells') = cellsSize cells + cellsSize cells' := by
  induction cells with
  | nil => simp
  | cons cell cells ih => simp [ih, Int.add_assoc]

theorem placeholders_append (cells cells' : List Cell) (offset : Int) : placeholders offset (cells ++ cells') =
      placeholders offset cells ++ placeholders (offset + cellsSize cells) cells' := by
  induction cells generalizing offset with
  | nil => simp [placeholders]
  | cons cell cells ih => simp [placeholders, ih, Int.add_assoc]

theorem placeholders_shift (cells : List Cell) (offset shift : Int) : placeholders (offset + shift) cells =
      (placeholders offset cells).map fun p => { p with offset := p.offset + shift } := by
  induction cells generalizing offset with
  | nil => rfl
  | cons cell cells ih =>
    rw [placeholders, placeholders, map_append, map_map, ← ih]
    congr 2
    omega

theorem placeholders_of_known (h : ∀ cell ∈ cells, cell.param = none) (offset : Int) :
    placeholders offset cells = [] := by
  induction cells generalizing offset with
  | nil => rfl
  | cons cell cells ih => simp_all [placeholders]

section
variable (hsize : ∀ cell ∈ cells, 0 ≤ cell.size)
include hsize

theorem cellsSize_nonneg : 0 ≤ cellsSize cells := by
  induction cells with
  | nil => exact Int.le_refl 0
  | cons cell cells ih => simp_all [Int.add_nonneg]

theorem mem_placeholders {p : Patch} (h : p ∈ placeholders offset cells) :
    offset ≤ p.offset ∧ p.offset + p.size ≤ offset + cellsSize cells := by
  induction cells generalizing offset with
  | nil => cases h
  | cons cell cells ih =>
    rw [forall_mem_cons] at hsize
    have htotal := cellsSize_nonneg hsize.2
    rw [cellsSize_cons]
    rcases mem_append.mp h with hp | hp
    · obtain ⟨param, -, rfl⟩ := mem_map.mp hp
      exact ⟨Int.le_refl _, by dsimp only; omega⟩
    · have := ih hsize.2 hp
      omega

/-- **Placeholders do not overlap.** Each ends before the next one starts. -/
theorem pairwise_placeholders (offset : Int) :
    (placeholders offset cells).Pairwise fun p q => p.offset + p.size ≤ q.offset := by
  induction cells generalizing offset with
  | nil => exact .nil
  | cons cell cells ih =>
    rw [forall_mem_cons] at hsize
    rw [placeholders, pairwise_append]
    refine ⟨?_, ih hsize.2 _, fun p hp q hq => ?_⟩
    · cases cell.param <;> simp
    · obtain ⟨param, -, rfl⟩ := mem_map.mp hp
      exact (mem_placeholders hsize.2 hq).1

end

namespace Spells

theorem append (h : Spells cells bytes) (h' : Spells cells' bytes') : Spells (cells ++ cells') (bytes ++ bytes') := by
  induction h with
  | nil => exact h'
  | cons length zero _ ih =>
    rw [append_assoc]
    exact .cons length zero ih

theorem length (h : Spells cells bytes) : (bytes.length : Int) = cellsSize cells := by
  induction h with
  | nil => rfl
  | cons length _ _ ih =>
    rw [length_append, cellsSize_cons]
    omega

/-- **Zeros are written at the placeholders.** -/
theorem zero_at_placeholder (h : Spells cells bytes) (before : List UInt8) {p : Patch}
    (hp : p ∈ placeholders before.length cells) :
    ((before ++ bytes).drop p.offset.toNat).take p.size.toNat = List.replicate p.size.toNat 0 := by
  induction h generalizing before with
  | nil => cases hp
  | @cons cell chunk cells bytes hlength hzero _ ih =>
    rcases mem_append.mp hp with hp | hp
    · obtain ⟨param, hparam, rfl⟩ := mem_map.mp hp
      have hsize : cell.size.toNat = chunk.length := by omega
      have hzeros : chunk = List.replicate chunk.length 0 :=
        eq_replicate_of_mem (hzero (by simp [Option.mem_toList.mp hparam]))
      rw [Int.toNat_natCast, drop_left, hsize, take_left]
      exact hzeros
    · rw [← append_assoc]
      refine ih (before ++ chunk) ?_
      simp_all

end Spells

end Cells

namespace Expr

def cells : Expr → Int → List Cell
  | var ⟨_, arg, _, mask, add, div, mod⟩, width =>
    [⟨1, none⟩] ++ (match arg with | some e => e.cells 1 | none => []) ++ [⟨1, none⟩] ++
      (match mask with | some e => e.cells width | none => [⟨width, none⟩]) ++
      if add.isSome || div.isSome || mod.isSome then
        (match add with | some e => e.cells width | none => [⟨width, none⟩]) ++
        (match div, mod with
          | some e, _ => e.cells width
          | none, some e => e.cells width
          | none, none => [⟨width, none⟩])
      else []
  | store _, width => [⟨1, none⟩, ⟨1, none⟩, ⟨width, none⟩]
  | load _, width => [⟨1, none⟩, ⟨1, none⟩, ⟨1, none⟩, ⟨width, none⟩]
  | param (const number), width => [⟨width, some number⟩]
  | _, width => [⟨width, none⟩]
termination_by structural e => e

end Expr

namespace Token

def comment? : Token → Option String
  | lineEnd comment => if comment.isEmpty then none else some comment
  | _ => none

def comments (tokens : List Token) : List String := tokens.filterMap comment?

theorem comments_append (ts ts' : List Token) : comments (ts ++ ts') = comments ts ++ comments ts' := filterMap_append

theorem comments_sized {v size : Int} {t : Token} (h : sized v size = .ok t) (ts : List Token) :
    comments (t :: ts) = comments ts := by
  unfold sized at h
  split_ifs at h <;> cases h <;> rfl

theorem comments_lineEnd (name : String) : comments [lineEnd name] = [name].filter (!·.isEmpty) := by
  unfold comments
  cases hempty : name.isEmpty <;> simp [comment?, hempty]

end Token

theorem length_bytes_sized {v : Int} (h : sized v size = .ok t) : (t.bytes.length : Int) = size := by
  unfold sized at h
  split_ifs at h with h1 h2 h4 <;> cases h
  · rw [h1]; rfl
  · rw [h2]; rfl
  · rw [h4]; rfl

theorem bytes_sized_zero (h : sized 0 size = .ok t) : ∀ b ∈ t.bytes, b = 0 := by
  unfold sized at h
  split_ifs at h <;> cases h <;> decide +kernel

theorem bytesOfAll_append (ts ts' : List Token) :
    bytesOfAll (ts ++ ts') = bytesOfAll ts ++ bytesOfAll ts' := flatMap_append

/-- The tokens are written for the cells, and they show the comments. -/
structure Written (cells : List Cell) (shown : List String) (tokens : List Token) : Prop where
  spells : Spells cells (Token.bytesOfAll tokens)
  comments : Token.comments tokens = shown

namespace Written

variable {cells cells' : List Cell} {shown shown' : List String} {ts ts' : List Token} {v : Int}

theorem nil : Written [] [] [] := ⟨.nil, rfl⟩

theorem append (h : Written cells shown ts) (h' : Written cells' shown' ts') :
    Written (cells ++ cells') (shown ++ shown') (ts ++ ts') := by
  refine ⟨?_, by rw [comments_append, h.comments, h'.comments]⟩
  rw [bytesOfAll_append]
  exact h.spells.append h'.spells

theorem byte (h : Written cells shown ts) : Written (⟨1, none⟩ :: cells) shown (byteOf v :: ts) :=
  ⟨.cons rfl nofun h.spells, h.comments⟩

theorem word (h : Written cells shown ts) : Written (⟨2, none⟩ :: cells) shown (wordOf v :: ts) :=
  ⟨.cons rfl nofun h.spells, h.comments⟩

theorem sized {size : Int} {t : Token} (ht : sized v size = .ok t) (h : Written cells shown ts) :
    Written (⟨size, none⟩ :: cells) shown (t :: ts) :=
  ⟨.cons (length_bytes_sized ht) nofun h.spells, (comments_sized ht ts).trans h.comments⟩

theorem newLine (h : Written cells shown ts) : Written cells shown (Grf.lineBreak :: ts) := ⟨h.spells, h.comments⟩

theorem lineBreak (h : Written cells shown ts) : Written cells shown (ts ++ [Grf.lineBreak]) := by
  have happend := h.append nil.newLine
  rwa [append_nil, append_nil] at happend

end Written

/-- The tokens `x`, if there are any, are written for the cells and show the comments. -/
def Lays (x : Except Fault (List Token)) (cells : List Cell) (shown : List String) : Prop :=
  ∀ tokens, x = .ok tokens → Written cells shown tokens

theorem sized_lays (v size : Int) : Lays (do return [← sized v size]) [⟨size, none⟩] [] := by
  intro tokens h
  obtain ⟨t, ht, ⟨⟩⟩ := except_bind_eq_ok h
  exact .sized ht .nil

theorem sized_zero_lays (param size : Int) : Lays (do return [← sized 0 size]) [⟨size, some param⟩] [] := by
  intro tokens h
  obtain ⟨t, ht, ⟨⟩⟩ := except_bind_eq_ok h
  exact ⟨.cons (length_bytes_sized ht) (fun _ => bytes_sized_zero ht) .nil, comments_sized ht []⟩

theorem Lays.bind {x : Except Fault (List Token)} {f : List Token → Except Fault (List Token)}
    {cells all : List Cell} {shown allShown : List String} (hx : Lays x cells shown)
    (hf : ∀ ts, Written cells shown ts → Lays (f ts) all allShown) : Lays (x >>= f) all allShown := by
  intro tokens h
  obtain ⟨ts, hts, h⟩ := except_bind_eq_ok h
  exact hf ts (hx ts hts) tokens h

theorem Lays.error {f : Fault} {cells : List Cell} {shown : List String} : Lays (.error f) cells shown :=
  fun _ h => nomatch h

theorem Lays.ok {tokens : List Token} {cells : List Cell} {shown : List String} (h : Written cells shown tokens) :
    Lays (.ok tokens) cells shown := by
  rintro _ ⟨⟩
  exact h

namespace Expr

/-! ### Variables -/

def argCells : Option Expr → List Cell
  | none => []
  | some e => e.cells 1

def fieldCells (width : Int) : Option Expr → List Cell
  | none => [⟨width, none⟩]
  | some e => e.cells width

def argTokens (num : Int) : Option Expr → Except Fault (List Token)
  | none => .ok []
  | some e => if e.isValue then e.tokensAs true 1 else .error (.parameterNotLowered num e.text)

/-- What is written for a field of a variable, with the number that stands for a missing one. -/
def fieldTokens (literal width : Int) : Option Expr → Except Fault (List Token)
  | none => do return [← Token.sized literal width]
  | some e => e.tokensAs true width

theorem cells_var (num shift width : Int) (arg mask add div mod : Option Expr) :
    (var ⟨num, arg, shift, mask, add, div, mod⟩).cells width =
      [⟨1, none⟩] ++ argCells arg ++ [⟨1, none⟩] ++ fieldCells width mask ++
        if add.isSome || div.isSome || mod.isSome then fieldCells width add ++ fieldCells width (div <|> mod)
        else [] := by
  cases arg <;> cases mask <;> cases add <;> cases div <;> cases mod <;> rfl

theorem tokensAs_var (last : Bool) (num shift width : Int) (arg mask add div mod : Option Expr) :
    (var ⟨num, arg, shift, mask, add, div, mod⟩).tokensAs last width =
      if div.isSome && mod.isSome then .error (.divisorAndModulo num)
      else if shift < 0 || maxShift < shift then .error (.invalidShift shift num)
      else do
        let arg' ← argTokens num arg
        let mask' ← fieldTokens (fullMask width) width mask
        let head := [byteOf num] ++ arg' ++
          [byteOf ((⟨num, arg, shift, mask, add, div, mod⟩ : VarRead Expr).shiftByte last)] ++ mask'
        if !(add.isSome || div.isSome || mod.isSome) then return head
        else do
          let add' ← fieldTokens 0 width add
          let divisor ← fieldTokens 1 width (div <|> mod)
          return head ++ add' ++ divisor := by
  simp only [tokensAs]
  split
  · rfl
  split
  · rfl
  -- the matches on the fields are joined with what follows them, as they are in the definition
  have hfield : ∀ (literal : Int) (field : Option Expr) (k : List Token → Except Fault (List Token)),
      fieldTokens literal width field >>= k = (match field with
        | some e => do let x ← tokensAs true e width; k x
        | none => do let t ← sized literal width; let x ← pure [t]; k x) := by
    grind [fieldTokens, bind_assoc]
  have harg : ∀ k : List Token → Except Fault (List Token), argTokens num arg >>= k = (match arg with
      | none => do let x ← pure []; k x
      | some e =>
        if e.isValue = true then do let x ← tokensAs true e 1; k x
        else do let x ← throw (Fault.parameterNotLowered num e.text); k x) := by
    intro k
    cases arg with
    | none => rfl
    | some e =>
      simp only [argTokens]
      split <;> rfl
  simp only [harg, hfield]
  cases arg <;> cases mask <;> cases add <;> cases div <;> cases mod <;> rfl

/-- What is written for a variable: its number, the parameter, the shift, the mask, and what comes after it. -/
theorem var_eq_ok {v : VarRead Expr} {width : Int} {last : Bool} {tokens : List Token}
    (h : (var v).tokensAs last width = .ok tokens) : (0 ≤ v.shift ∧ v.shift ≤ maxShift) ∧
      ∃ arg mask, argTokens v.num v.param = .ok arg ∧ fieldTokens (fullMask width) width v.mask = .ok mask ∧
      ∃ post, tokens = [byteOf v.num] ++ arg ++ [byteOf (v.shiftByte last)] ++ mask ++ post ∧
        if v.hasPostOp then ∃ add divisor, fieldTokens 0 width v.add = .ok add ∧
          fieldTokens 1 width (v.div <|> v.mod) = .ok divisor ∧ post = add ++ divisor
        else post = [] := by
  obtain ⟨num, arg, shift, mask, add, div, mod⟩ := v
  rw [tokensAs_var] at h
  split at h
  · cases h
  split at h
  · cases h
  rename_i hshift
  simp only [Bool.or_eq_true, decide_eq_true_eq, not_or, Int.not_lt] at hshift
  obtain ⟨arg', harg, h⟩ := except_bind_eq_ok h
  obtain ⟨mask', hmask, h⟩ := except_bind_eq_ok h
  refine ⟨hshift, arg', mask', harg, hmask, ?_⟩
  unfold hasPostOp
  cases hpost : add.isSome || div.isSome || mod.isSome with
  | false =>
    rw [hpost] at h
    cases h
    exact ⟨[], (append_nil _).symm, rfl⟩
  | true =>
    rw [hpost] at h
    obtain ⟨add', hadd, h⟩ := except_bind_eq_ok h
    obtain ⟨divisor, hdivisor, ⟨⟩⟩ := except_bind_eq_ok h
    exact ⟨add' ++ divisor, append_assoc .., add', divisor, hadd, hdivisor, rfl⟩

theorem argTokens_lays {num : Int} {arg : Option Expr}
    (h : ∀ e ∈ arg, Lays (e.tokensAs true 1) (e.cells 1) []) : Lays (argTokens num arg) (argCells arg) [] := by
  cases arg with
  | none => exact .ok .nil
  | some e =>
    simp only [argTokens]
    split
    · exact h e rfl
    · exact .error

theorem fieldTokens_lays {literal width : Int} {field : Option Expr}
    (h : ∀ e ∈ field, Lays (e.tokensAs true width) (e.cells width) []) :
    Lays (fieldTokens literal width field) (fieldCells width field) [] := by
  cases field with
  | none => exact sized_lays literal width
  | some e => exact h e rfl

/-- **A value is written as its cells**, without comments. -/
theorem tokensAs_lays (last : Bool) : ∀ (e : Expr) (width : Int), Lays (e.tokensAs last width) (e.cells width) []
  | const value, width => sized_lays value width
  | param number, width => by
    cases number with
    | const k => exact sized_zero_lays k width
    | _ => exact .error
  | string name id, width => by
    unfold tokensAs
    split
    · exact .error
    · exact sized_lays id width
  | record name id, width => by
    unfold tokensAs
    split
    · exact .error
    · exact sized_lays id width
  | store slot, width => by
    intro tokens h
    unfold tokensAs at h
    split at h
    · obtain ⟨mask, hmask, ⟨⟩⟩ := except_bind_eq_ok h
      exact .byte (.byte (.sized hmask .nil))
    · cases h
  | load slot, width => by
    intro tokens h
    unfold tokensAs at h
    split at h
    · obtain ⟨mask, hmask, ⟨⟩⟩ := except_bind_eq_ok h
      exact .byte (.byte (.byte (.sized hmask .nil)))
    · cases h
  | binary .., width => .error
  | not _, width => .error
  | var ⟨num, arg, shift, mask, add, div, mod⟩, width => by
    have harg : Lays (argTokens num arg) (argCells arg) [] := by
      cases arg with
      | none => exact argTokens_lays nofun
      | some e => exact argTokens_lays fun _ h => Option.mem_some.mp h ▸ tokensAs_lays true e 1
    have hmask : Lays (fieldTokens (fullMask width) width mask) (fieldCells width mask) [] := by
      cases mask with
      | none => exact fieldTokens_lays nofun
      | some e => exact fieldTokens_lays fun _ h => Option.mem_some.mp h ▸ tokensAs_lays true e width
    have hadd : Lays (fieldTokens 0 width add) (fieldCells width add) [] := by
      cases add with
      | none => exact fieldTokens_lays nofun
      | some e => exact fieldTokens_lays fun _ h => Option.mem_some.mp h ▸ tokensAs_lays true e width
    have hdiv : Lays (fieldTokens 1 width (div <|> mod)) (fieldCells width (div <|> mod)) [] := by
      cases div with
      | some e => exact fieldTokens_lays fun _ h => Option.mem_some.mp h ▸ tokensAs_lays true e width
      | none =>
        cases mod with
        | some e => exact fieldTokens_lays fun _ h => Option.mem_some.mp h ▸ tokensAs_lays true e width
        | none => exact fieldTokens_lays nofun
    rw [tokensAs_var, cells_var]
    split
    · exact .error
    split
    · exact .error
    refine harg.bind fun arg' hs => hmask.bind fun mask' hs' => ?_
    -- up to the mask the cells do not depend on whether there is an addition or a division
    have hhead : ∀ v, Written ([⟨1, none⟩] ++ argCells arg ++ [⟨1, none⟩] ++ fieldCells width mask) []
        ([byteOf num] ++ arg' ++ [byteOf v] ++ mask') :=
      fun v => (((Written.nil.byte).append hs).append Written.nil.byte).append hs'
    cases add.isSome || div.isSome || mod.isSome with
    | false => exact .ok ((append_nil _).symm ▸ hhead _)
    | true =>
      refine hadd.bind fun add' hs => hdiv.bind fun divisor hs' => .ok ?_
      rw [append_assoc _ add', if_pos rfl]
      exact (hhead _).append (hs.append hs')
termination_by structural e => e

end Expr

/-! ## Cells of records -/

def PropertyEntry.cells (e : PropertyEntry) : List Cell :=
  ⟨1, none⟩ :: match e.content with
    | .value value => value.cells e.size
    | .items items => ⟨1, none⟩ :: items.map fun _ => ⟨e.size, none⟩

def StreamItem.cells (width : Int) : StreamItem → List Cell
  | .op _ => [⟨1, none⟩]
  | .operand value => value.cells width

def TableRecord.cells (t : TableRecord) : List Cell :=
  [⟨1, none⟩, ⟨1, none⟩, ⟨1, none⟩, ⟨1, none⟩] ++ t.stream.flatMap (·.cells t.varSize) ++ [⟨1, none⟩] ++
    t.ranges.flatMap (fun _ => [⟨2, none⟩, ⟨t.varSize, none⟩, ⟨t.varSize, none⟩]) ++ [⟨2, none⟩]

def Record.cells (R : Record) : List Cell :=
  match R.body with
  | .decisionTable t => t.cells
  | .propertyTable _ _ entries =>
    [⟨1, none⟩, ⟨1, none⟩, ⟨1, none⟩, ⟨1, none⟩, ⟨1, none⟩, ⟨2, none⟩] ++ entries.flatMap (·.cells)
  | _ => []

theorem mapM_cons_lays {f : α → Except Fault (List Token)} {a : α} {as : List α}
    {cells cells' : List Cell} {shown shown' : List String} (h : Lays (f a) cells shown)
    (hs : Lays (do return (← as.mapM f).flatten) cells' shown') :
    Lays (do return (← (a :: as).mapM f).flatten) (cells ++ cells') (shown ++ shown') := by
  intro tokens hjoin
  obtain ⟨lists, hlists, ⟨⟩⟩ := except_bind_eq_ok hjoin
  rw [List.mapM_cons] at hlists
  obtain ⟨list, hlist, hlists⟩ := except_bind_eq_ok hlists
  obtain ⟨rest, hrest, ⟨⟩⟩ := except_bind_eq_ok hlists
  exact (h list hlist).append (hs rest.flatten (by rw [hrest]; rfl))

theorem flatMap_lays {f : α → Except Fault (List Token)} {cells : α → List Cell} (as : List α)
    (h : ∀ a, Lays (f a) (cells a) []) :
    Lays (do return (← as.mapM f).flatten) (as.flatMap cells) [] := by
  induction as with
  | nil => exact .ok .nil
  | cons a as ih => exact mapM_cons_lays (h a) ih

theorem streamTokens_lays (width : Int) (items : List StreamItem) :
    Lays (streamTokens width items) (items.flatMap (·.cells width)) [] := by
  induction items with
  | nil => exact .ok .nil
  | cons item items ih =>
    intro tokens hok
    cases item with
    | op operator =>
      obtain ⟨rest, hrest, ⟨⟩⟩ := except_bind_eq_ok hok
      exact (ih rest hrest).byte
    | operand value =>
      obtain ⟨here, hhere, hok⟩ := except_bind_eq_ok hok
      obtain ⟨rest, hrest, ⟨⟩⟩ := except_bind_eq_ok hok
      exact (value.tokensAs_lays _ width here hhere).append (ih rest hrest).newLine

theorem mapM_sized_written {items : List Int} {ts : List Token} (h : items.mapM (sized · size) = .ok ts) :
    Written (items.map fun _ => ⟨size, none⟩) [] ts := by
  induction items generalizing ts with
  | nil =>
    cases h
    exact .nil
  | cons item items ih =>
    rw [List.mapM_cons] at h
    obtain ⟨t, ht, h⟩ := except_bind_eq_ok h
    obtain ⟨rest, hrest, ⟨⟩⟩ := except_bind_eq_ok h
    exact .sized ht (ih hrest)

theorem PropertyEntry.tokens_lays (e : PropertyEntry) : Lays e.tokens e.cells [] := by
  obtain ⟨num, size, content⟩ := e
  intro tokens hok
  cases content with
  | value value =>
    obtain ⟨ts, hts, ⟨⟩⟩ := except_bind_eq_ok hok
    exact (value.tokensAs_lays true size ts hts).lineBreak.byte
  | items items =>
    obtain ⟨ts, hts, ⟨⟩⟩ := except_bind_eq_ok hok
    exact (mapM_sized_written hts).lineBreak.byte.byte

def Record.title? (r : Record) : Option String :=
  match r.body with
  | .decisionTable t => some t.name
  | .spriteGroup g => some g.name
  | _ => none

theorem TableRecord.tokens_lays (t : TableRecord) : Lays t.tokens t.cells ([t.name].filter (!·.isEmpty)) := by
  have hranges : Lays (do return (← t.ranges.mapM (·.tokens t.varSize)).flatten)
      (t.ranges.flatMap fun _ => [⟨2, none⟩, ⟨t.varSize, none⟩, ⟨t.varSize, none⟩]) [] := by
    refine flatMap_lays _ fun range tokens hok => ?_
    obtain ⟨low, hlow, hok⟩ := except_bind_eq_ok hok
    obtain ⟨high, hhigh, ⟨⟩⟩ := except_bind_eq_ok hok
    exact .word (.sized hlow (.sized hhigh Written.nil.newLine))
  have hname : Written [] ([t.name].filter (!·.isEmpty)) [.lineEnd t.name] := ⟨.nil, comments_lineEnd t.name⟩
  have hall : Lays t.tokens _ _ :=
    mapM_cons_lays (.ok hname.byte.byte.byte.byte) (mapM_cons_lays (streamTokens_lays t.varSize t.stream)
      (mapM_cons_lays (.ok Written.nil.byte) (mapM_cons_lays hranges
        (mapM_cons_lays (.ok Written.nil.word) (.ok .nil)))))
  convert hall using 1 <;> simp [TableRecord.cells]

/-- **The bytes of a record are those of its cells**, and its only comment is its name. -/
theorem Record.tokens_lays (R : Record) (h : R.cells ≠ []) :
    Lays R.tokens R.cells (R.title?.toList.filter (!·.isEmpty)) := by
  obtain ⟨pos, body⟩ := R
  cases body with
  | decisionTable t => exact t.tokens_lays
  | propertyTable feature id entries =>
    have hhead : Written [⟨1, none⟩, ⟨1, none⟩, ⟨1, none⟩, ⟨1, none⟩, ⟨1, none⟩, ⟨2, none⟩] []
        [byteOf 0x00, byteOf feature, byteOf entries.length, byteOf 1, byteOf 0xFF, wordOf id, Grf.lineBreak] :=
      .byte (.byte (.byte (.byte (.byte (.word (Written.nil.lineBreak))))))
    have hall : Lays (Record.tokens ⟨pos, .propertyTable feature id entries⟩) _ _ :=
      mapM_cons_lays (.ok hhead) (mapM_cons_lays (flatMap_lays entries (·.tokens_lays)) (.ok .nil))
    convert hall using 1 <;> simp [Record.cells, Record.title?]
  | _ => exact absurd rfl h

end Grf
