import Grf.Proofs.Record.Sizes

/-! # The sizes of values

The size of a value is told before it is written, and so are the places of the values in a variable. Both count one
byte for the parameter of a variable. So they are right if and only if the parameter is written in one byte, which a
variable or a scratch slot is not (`tokensAs_sized`).
-/

namespace Grf.Expr

open List Token

variable {e : Expr} {v : VarRead Expr} {width : Int} {last : Bool} {tokens : List Token} {field : Option Expr}

theorem isFlat_iff : e.isFlat = true ↔ cellsSize (e.cells 1) = 1 := by
  refine ⟨fun h => cellsSize_flat h 1, fun hsize => ?_⟩
  cases e with
  | var v =>
    have hfilled : Filled ((var v).cells 1) := (var v).filled_cells (by decide)
    rw [cells_read] at hfilled hsize
    have hnonneg : ∀ cells, (∀ cell ∈ cells, (0 : Int) < cell.size) → 0 ≤ cellsSize cells :=
      fun cells h => cellsSize_nonneg fun cell hcell => Int.le_of_lt (h cell hcell)
    simp only [Filled, forall_mem_append] at hfilled
    obtain ⟨⟨⟨⟨-, harg⟩, -⟩, hmask⟩, hpost⟩ := hfilled
    have := hnonneg _ harg
    have := hnonneg _ hmask
    have := hnonneg _ hpost
    simp only [cellsSize_append, cellsSize_cons, cellsSize_nil] at hsize
    omega
  | store | load => cases hsize
  | _ => rfl

/-- Whether the parameter of a variable is written in one byte. -/
def ParamFits : Expr → Prop
  | var v => ∀ e ∈ v.param, e.isFlat = true
  | _ => True

/-- Whether the fields of a variable are numbers and parameters. -/
def FieldsFlat : Expr → Prop
  | var v => ∀ field ∈ [v.mask, v.add, v.div, v.mod], ∀ e ∈ field, (∃ c, e = const c) ∨ ∃ number, e = param number
  | _ => True

theorem FieldsFlat.forall (h : (var v).FieldsFlat) : (∀ e ∈ v.mask, e.isFlat = true) ∧ (∀ e ∈ v.add, e.isFlat = true) ∧
    ∀ e ∈ (v.div <|> v.mod), e.isFlat = true := by
  have hflat : ∀ field ∈ [v.mask, v.add, v.div, v.mod], ∀ e ∈ field, e.isFlat = true := by
    intro field hfield e he
    rcases h field hfield e he with ⟨c, rfl⟩ | ⟨number, rfl⟩ <;> rfl
  refine ⟨hflat _ (by simp), hflat _ (by simp), ?_⟩
  cases hdiv : v.div with
  | some e => exact fun _ he => hflat v.div (by simp) _ (hdiv ▸ he)
  | none => exact hflat v.mod (by simp)

theorem cellsSize_eq_size_iff (h : e.FieldsFlat) (hok : e.tokensAs last width = .ok tokens) :
    cellsSize (e.cells width) = e.size width ↔ e.ParamFits := by
  cases e with
  | var v =>
    obtain ⟨hmask, hadd, hdivisor⟩ := h.forall
    rw [cellsSize_var width hmask hadd hdivisor, size, ParamFits]
    cases v.param with
    | none => simp [argCells]
    | some arg =>
      simp only [argCells, Option.mem_def, Option.some.injEq, forall_eq', isFlat_iff, Option.isSome_some, if_true]
      omega
  | store | load =>
    simp [cells, size, ParamFits]
    omega
  | binary | not => cases hok
  | _ => exact iff_of_true (cellsSize_flat rfl width) trivial

/-- The value of a field, written with its size, stands at its place among the tokens. -/
def Field.PrintedIn (tokens : List Token) (f : Field) : Prop :=
  ∃ before own after, f.value.tokens f.size = .ok own ∧ tokens = before ++ own ++ after ∧
    ((Token.bytesOfAll before).length : Int) = f.offset ∧ ((Token.bytesOfAll own).length : Int) = f.size

theorem length_bytes (hok : e.tokensAs last width = .ok tokens) :
    ((bytesOfAll tokens).length : Int) = cellsSize (e.cells width) :=
  (tokensAs_lays last e width tokens hok).spells.length

theorem length_argTokens {num : Int} (h : ∀ e ∈ field, e.isFlat = true) (hok : argTokens num field = .ok tokens) :
    ((bytesOfAll tokens).length : Int) = if field.isSome then 1 else 0 := by
  cases field with
  | none =>
    cases hok
    rfl
  | some e =>
    rw [argTokens] at hok
    split at hok
    · exact (length_bytes hok).trans (cellsSize_flat (h e rfl) 1)
    · cases hok

theorem length_fieldTokens {literal : Int} (h : ∀ e ∈ field, e.isFlat = true)
    (hok : fieldTokens literal width field = .ok tokens) : ((bytesOfAll tokens).length : Int) = width := by
  rw [((fieldTokens_lays fun e _ => tokensAs_lays true e width) tokens hok).spells.length]
  exact cellsSize_field h width

theorem hasPostOp_of_mem (h : e ∈ v.add ∨ e ∈ (v.div <|> v.mod)) : v.hasPostOp = true := by
  unfold VarRead.hasPostOp
  rcases h with h | h
  · simp [Option.mem_def.mp h]
  · cases hdiv : v.div with
    | some d => simp
    | none =>
      rw [hdiv] at h
      simp [show v.mod = some e from h]

/-- **The places of the values in a variable are told correctly** if and only if its parameter is written in one byte. -/
theorem fields_printed_iff (h : (var v).FieldsFlat) (hok : (var v).tokensAs last width = .ok tokens) :
    (∀ f ∈ fields v width, f.PrintedIn tokens) ↔ (var v).ParamFits := by
  obtain ⟨hmask, hadd, hdivisor⟩ := h.forall
  obtain ⟨-, arg, mask, harg, hmask', post, rfl, hpost⟩ := var_eq_ok hok
  have hhead : [byteOf v.num] ++ arg ++ [byteOf (v.shiftByte last)] ++ mask ++ post =
      [byteOf v.num] ++ arg ++ ([byteOf (v.shiftByte last)] ++ mask ++ post) := by
    simp only [append_assoc]
  constructor
  · intro hfields e he
    have hvalue : e.isValue = true := by
      rw [show v.param = some e from he, argTokens] at harg
      by_contra hvalue
      rw [if_neg hvalue] at harg
      cases harg
    have hfield : (⟨1, 1, e⟩ : Field) ∈ fields v width := by
      simp [fields, show v.param = some e from he, hvalue]
    obtain ⟨_, ts, _, hts, -, -, hlength⟩ := hfields _ hfield
    exact isFlat_iff.mpr ((length_bytes hts).symm.trans hlength)
  · intro hfits f hf
    have hargs := length_argTokens hfits harg
    have hmasks := length_fieldTokens hmask hmask'
    simp only [fields, mem_append, mem_singleton, mem_map, Option.mem_toList] at hf
    rcases hf with ((hf | rfl) | ⟨e, he, rfl⟩) | ⟨e, he, rfl⟩
    · cases hparam : v.param with
      | none => simp [hparam] at hf
      | some e =>
        rw [hparam, argTokens] at harg
        simp only [hparam, Option.isSome_some, if_true] at hf hargs
        split at hf
        · rename_i hvalue
          obtain rfl := mem_singleton.mp hf
          rw [if_pos hvalue] at harg
          exact ⟨_, arg, _, harg, hhead, rfl, hargs⟩
        · cases hf
    · refine ⟨_, mask, post, ?_, rfl, ?_, hmasks⟩
      · rw [← hmask']
        cases v.mask <;> rfl
      · simp only [bytesOfAll_append, length_append, Int.natCast_add, hargs]
        split <;> rfl
    · rw [if_pos (hasPostOp_of_mem (.inl he))] at hpost
      obtain ⟨add, divisor, hadd', hdivisor', rfl⟩ := hpost
      have hlength := length_fieldTokens hadd hadd'
      rw [show v.add = some e from he] at hadd'
      refine ⟨_, add, divisor, hadd', (append_assoc ..).symm, ?_, hlength⟩
      simp only [bytesOfAll_append, length_append, Int.natCast_add, hargs, hmasks]
      split <;> rfl
    · rw [if_pos (hasPostOp_of_mem (.inr he))] at hpost
      obtain ⟨add, divisor, hadd', hdivisor', rfl⟩ := hpost
      have hlength := length_fieldTokens hdivisor hdivisor'
      rw [show (v.div <|> v.mod) = some e from he] at hdivisor'
      have hsplit : ∀ head : List Token, head ++ (add ++ divisor) = head ++ add ++ divisor ++ [] := by simp
      refine ⟨_, divisor, [], hdivisor', hsplit _, ?_, hlength⟩
      simp only [bytesOfAll_append, length_append, Int.natCast_add, hargs, hmasks, length_fieldTokens hadd hadd']
      split <;> simp <;> omega

/-- **Values are as long as their sizes say**, and the values in a variable stand where its fields say, if and only if
the parameter of the variable is written in one byte. -/
theorem tokensAs_sized (h : e.FieldsFlat) (hok : e.tokensAs last width = .ok tokens) :
    (((Token.bytesOfAll tokens).length : Int) = e.size width ↔ e.ParamFits) ∧
      ∀ v, e = var v → ((∀ f ∈ fields v width, f.PrintedIn tokens) ↔ e.ParamFits) := by
  refine ⟨?_, ?_⟩
  · rw [length_bytes hok]
    exact cellsSize_eq_size_iff h hok
  · rintro v rfl
    exact fields_printed_iff h hok

/-- A parameter that is a number is one byte. If it is a variable itself, it is not. -/
theorem tokensAs_sized_nested :
    let read : VarRead Expr := { num := 0x60, param := some (const 2), add := some (paramAt 3) }
    let nested : VarRead Expr := { num := 0x60, param := some (var { num := 0x40 }) }
    ∃ tokens tokens', (var read).tokensAs false 4 = .ok tokens ∧ (var nested).tokensAs false 4 = .ok tokens' ∧
      ((Token.bytesOfAll tokens).length : Int) = (var read).size 4 ∧ (∀ f ∈ fields read 4, f.PrintedIn tokens) ∧
      ((Token.bytesOfAll tokens').length : Int) ≠ (var nested).size 4 := by
  intro read nested
  have hread : (var read).FieldsFlat := by simp [FieldsFlat, read, paramAt]
  have hnested : (var nested).FieldsFlat := by simp [FieldsFlat, nested]
  obtain ⟨tokens, hok⟩ : ∃ tokens, (var read).tokensAs false 4 = .ok tokens := ⟨_, rfl⟩
  obtain ⟨tokens', hok'⟩ : ∃ tokens, (var nested).tokensAs false 4 = .ok tokens := ⟨_, rfl⟩
  have hfits : (var read).ParamFits := by simp [ParamFits, read, isFlat]
  have hlong : ¬(var nested).ParamFits := by simp [ParamFits, nested, isFlat]
  obtain ⟨hsize, hfields⟩ := tokensAs_sized hread hok
  exact ⟨tokens, tokens', hok, hok', hsize.mpr hfits, (hfields read rfl).mpr hfits,
    fun h => hlong ((tokensAs_sized hnested hok').1.mp h)⟩

end Grf.Expr
