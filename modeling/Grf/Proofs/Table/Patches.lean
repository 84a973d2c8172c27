import Grf.Proofs.Table.Shapes

/-! # Patches of decision tables

The patches of an operand stream are counted from its start, and they move along when another part
is put before it. So the patches of a stream are the placeholders of its cells (`Stream.Placed`),
and those of a table are found after its four first bytes (`lowerSwitch_patched`).
-/

namespace Grf

open List Grf.Stream

namespace Expr

variable {e : Expr} {arg field : Option Expr}

/-- Whether an expression can be written in a variable: a number, a parameter or a record. -/
def IsLeaf : Expr → Prop
  | const _ | param (const _) | record .. => True
  | _ => False

theorem isLeaf_of_isImmediate (h : e.isImmediate = true) : e.IsLeaf := by
  unfold isImmediate at h
  split at h
  · trivial
  · trivial
  · cases h

theorem IsLeaf.exists_eq (h : e.IsLeaf) :
    (∃ value, e = const value) ∨ (∃ number, e = param (const number)) ∨ ∃ name id, e = record name id := by
  unfold IsLeaf at h
  split at h
  · exact .inl ⟨_, rfl⟩
  · exact .inr (.inl ⟨_, rfl⟩)
  · exact .inr (.inr ⟨_, _, rfl⟩)
  · cases h

theorem IsLeaf.isValue (h : e.IsLeaf) : e.isValue = true := by
  rcases h.exists_eq with ⟨value, rfl⟩ | ⟨number, rfl⟩ | ⟨name, id, rfl⟩ <;> rfl

def patch? (offset : Int) (field : Field) : Option Patch :=
  match field.value with
  | .param number => some { param := number.constant?.getD 0, size := field.size, offset := offset + field.offset }
  | _ => none

theorem patch?_leaf (h : e.IsLeaf) (offset place size : Int) :
    [Field.mk place size e].filterMap (patch? offset) = placeholders (offset + place) (e.cells size) := by
  rcases h.exists_eq with ⟨value, rfl⟩ | ⟨number, rfl⟩ | ⟨name, id, rfl⟩ <;> rfl

theorem filterMap_field (h : ∀ e ∈ field, e.IsLeaf) (offset place width : Int) :
    (field.toList.map (Field.mk place width)).filterMap (patch? offset) =
      placeholders (offset + place) (fieldCells width field) := by
  cases field with
  | none => rfl
  | some e => exact patch?_leaf (h e rfl) offset place width

/-- Whether a value is written in as many bytes as its width. -/
def isFlat : Expr → Bool
  | var _ | store _ | load _ => false
  | _ => true

theorem IsLeaf.isFlat (h : e.IsLeaf) : e.isFlat = true := by
  rcases h.exists_eq with ⟨value, rfl⟩ | ⟨number, rfl⟩ | ⟨name, id, rfl⟩ <;> rfl

theorem cellsSize_flat (h : e.isFlat = true) (width : Int) : cellsSize (e.cells width) = width := by
  cases e with
  | param number => cases number <;> exact Int.add_zero width
  | var | store | load => cases h
  | _ => exact Int.add_zero width

theorem cellsSize_field (h : ∀ e ∈ field, e.isFlat = true) (width : Int) :
    cellsSize (fieldCells width field) = width := by
  cases field with
  | none => exact Int.add_zero width
  | some e => exact cellsSize_flat (h e rfl) width

theorem filterMap_mask {mask : Option Expr} (h : ∀ e ∈ mask, e.IsLeaf) (offset place width full : Int) :
    [Field.mk place width (mask.getD (const full))].filterMap (patch? offset) =
      placeholders (offset + place) (fieldCells width mask) := by
  cases mask with
  | none => rfl
  | some e => exact patch?_leaf (h e rfl) offset place width

def argFields : Option Expr → List Field
  | some e => if e.isValue then [⟨1, 1, e⟩] else []
  | none => []

theorem filterMap_arg (h : ∀ e ∈ arg, e.IsLeaf) (offset : Int) :
    (argFields arg).filterMap (patch? offset) = placeholders (offset + 1) (argCells arg) := by
  cases arg with
  | none => rfl
  | some e =>
    simp only [argFields, (h e rfl).isValue, if_true]
    exact patch?_leaf (h e rfl) offset 1 1

theorem cellsSize_arg (h : ∀ e ∈ arg, e.isFlat = true) : cellsSize (argCells arg) = if arg.isSome then 1 else 0 := by
  cases arg with
  | none => rfl
  | some e => exact cellsSize_flat (h e rfl) 1

theorem cells_read (v : VarRead Expr) (width : Int) : (var v).cells width =
    [⟨1, none⟩] ++ argCells v.param ++ [⟨1, none⟩] ++ fieldCells width v.mask ++
      if v.hasPostOp then fieldCells width v.add ++ fieldCells width (v.div <|> v.mod) else [] :=
  cells_var v.num v.shift width v.param v.mask v.add v.div v.mod

/-- The cells of a variable are as long as its size says, apart from its parameter. -/
theorem cellsSize_var {v : VarRead Expr} (width : Int) (hmask : ∀ e ∈ v.mask, e.isFlat = true)
    (hadd : ∀ e ∈ v.add, e.isFlat = true) (hdivisor : ∀ e ∈ (v.div <|> v.mod), e.isFlat = true) :
    cellsSize ((var v).cells width) =
      v.size width - (if v.param.isSome then 1 else 0) + cellsSize (argCells v.param) := by
  have hpost : cellsSize (if v.hasPostOp then fieldCells width v.add ++ fieldCells width (v.div <|> v.mod)
      else []) = if v.hasPostOp then 2 * width else 0 := by
    split
    · rw [cellsSize_append, cellsSize_field hadd, cellsSize_field hdivisor]
      omega
    · rfl
  simp only [cells_read, cellsSize_append, cellsSize_cons, cellsSize_nil, cellsSize_field hmask, hpost, VarRead.size]
  omega

/-- Whether all values of a variable can be written in it. -/
structure Plain (v : VarRead Expr) : Prop where
  param : ∀ e ∈ v.param, e.IsLeaf
  fields : ∀ field ∈ [v.mask, v.add, v.div, v.mod], ∀ e ∈ field, e.IsLeaf

namespace Plain

variable {v : VarRead Expr}
variable (h : Plain v)
include h

theorem mask : ∀ e ∈ v.mask, e.IsLeaf := h.fields _ (by simp)

theorem add : ∀ e ∈ v.add, e.IsLeaf := h.fields _ (by simp)

theorem divisor : ∀ e ∈ (v.div <|> v.mod), e.IsLeaf := by
  cases hdiv : v.div with
  | some e => exact fun _ he => h.fields v.div (by simp) _ (hdiv ▸ he)
  | none => exact h.fields v.mod (by simp)

theorem cellsSize (width : Int) : cellsSize ((Expr.var v).cells width) = v.size width := by
  rw [cellsSize_var width (fun e he => (h.mask e he).isFlat) (fun e he => (h.add e he).isFlat)
    fun e he => (h.divisor e he).isFlat, cellsSize_arg fun e he => (h.param e he).isFlat, Int.sub_add_cancel]

/-- **The patches of a variable are the placeholders of its cells.** -/
theorem patchesOf (width offset : Int) :
    Lowering.patchesOf v width offset = placeholders offset ((Expr.var v).cells width) := by
  -- the mask comes after the number, the parameter and the shift
  have hmaskAt : (if v.param.isSome then (3 : Int) else 2) = 1 + Grf.cellsSize (argCells v.param) + 1 := by
    rw [cellsSize_arg fun e he => (h.param e he).isFlat]
    split <;> rfl
  have hmask := cellsSize_field fun e he => (h.mask e he).isFlat
  have hadd := cellsSize_field fun e he => (h.add e he).isFlat
  have hfields : Lowering.patchesOf v width offset = placeholders (offset + 1) (argCells v.param) ++
      placeholders (offset + (1 + Grf.cellsSize (argCells v.param) + 1)) (fieldCells width v.mask) ++
      placeholders (offset + (1 + Grf.cellsSize (argCells v.param) + 1 + width)) (fieldCells width v.add) ++
      placeholders (offset + (1 + Grf.cellsSize (argCells v.param) + 1 + 2 * width))
        (fieldCells width (v.div <|> v.mod)) := by
    show (argFields v.param ++ [_] ++ _ ++ _).filterMap (patch? offset) = _
    rw [filterMap_append, filterMap_append, filterMap_append, filterMap_arg h.param,
      filterMap_mask h.mask, filterMap_field h.add, filterMap_field h.divisor, hmaskAt]
  have hone : ∀ offset, placeholders offset [⟨1, none⟩] = [] := placeholders_of_known (by simp)
  rw [hfields, cells_read]
  simp only [placeholders_append, cellsSize_append, cellsSize_cons, cellsSize_nil, hone, nil_append,
    append_nil, Int.add_zero, hmask]
  cases hpost : v.hasPostOp with
  | true =>
    have hdivisorAt : offset + (1 + Grf.cellsSize (argCells v.param) + 1 + 2 * width) =
        offset + (1 + Grf.cellsSize (argCells v.param) + 1 + width) + width := by omega
    rw [if_pos rfl, placeholders_append, hadd, hdivisorAt, append_assoc (_ ++ _)]
  | false =>
    obtain ⟨⟨hnone, hdiv⟩, hmod⟩ : (v.add = none ∧ v.div = none) ∧ v.mod = none := by
      simpa [VarRead.hasPostOp] using hpost
    rw [hnone, hdiv, hmod]
    exact append_nil _

end Plain

theorem plain_mask {num : Int} {mask : Expr} (h : mask.IsLeaf) : Plain { num, mask := some mask } where
  param _ he := nomatch he
  fields := by simpa using h

end Expr

namespace VarRead.Checked

variable {v : VarRead Expr}

theorem leaf (h : v.Checked) : ∀ field ∈ [v.mask, v.add, v.div, v.mod], ∀ e ∈ field, e.IsLeaf :=
  fun field hfield e he => Expr.isLeaf_of_isImmediate (h.fields field hfield e he).isImmediate

theorem indirect (h : v.Checked) : Expr.Plain (Table.indirect v) :=
  ⟨fun _ he => Option.mem_some.mp he ▸ trivial, h.leaf⟩

end VarRead.Checked

namespace Stream

abbrev cells (width : Int) (s : Stream) : List Cell := s.items.flatMap (·.cells width)

/-- The patches of a stream are the placeholders of its cells, and its size is theirs. -/
structure Placed (width : Int) (s : Stream) : Prop where
  patches : s.patches = placeholders 0 (s.cells width)
  size : s.size = cellsSize (s.cells width)

variable {width : Int} {s t : Stream}

theorem Placed.append (hs : s.Placed width) (ht : t.Placed width) : (s ++ t).Placed width := by
  have hcells : (s ++ t).cells width = s.cells width ++ t.cells width := flatMap_append
  constructor
  · show s.patches ++ t.patches.map (fun p => { p with offset := p.offset + s.size }) = _
    rw [hcells, placeholders_append, placeholders_shift, hs.patches, ht.patches, hs.size]
  · show s.size + t.size = _
    rw [hcells, cellsSize_append, hs.size, ht.size]

theorem placed_ofOp (op : Operator) : (ofOp op).Placed width := ⟨rfl, rfl⟩

theorem placed_var {v : VarRead Expr} (h : Expr.Plain v) : (ofOperand (.var v) width).Placed width := by
  have hcells : (ofOperand (.var v) width).cells width = (Expr.var v).cells width := append_nil _
  constructor
  · rw [hcells]
    exact h.patchesOf width 0
  · rw [hcells, h.cellsSize]
    rfl

theorem placed_slot (slot : Slot) :
    (ofOperand (.store slot) width).Placed width ∧ (ofOperand (.load slot) width).Placed width := by
  constructor
  all_goals
    refine ⟨(placeholders_of_known (by simp [cells, ofOperand, StreamItem.cells, Expr.cells]) 0).symm, ?_⟩
    simp [cells, ofOperand, StreamItem.cells, Expr.cells, Expr.size]
    omega

end Stream

namespace Lowering

variable {T : String → Int → Prop} {pos : Position} {e : Expr} {v : VarRead Expr} {before : List Record}

theorem OperandOf.plain (h : OperandOf T pos e v before) : Expr.Plain v := by
  cases h with
  | const | param | string => exact Expr.plain_mask trivial
  | record name id => exact ⟨fun _ h => Option.mem_some.mp h ▸ trivial, by simp [Expr.procedureCall]⟩
  | read h harg => exact ⟨fun e he => Expr.isLeaf_of_isImmediate (harg e he).isImmediate, h.leaf⟩

theorem OperandOf.patched (h : OperandOf T pos e v before) : Patched before := by
  cases h with
  | param h => exact patched_planned h
  | string _ _ h => exact patched_texts fun R hR => (h R hR).isText
  | _ => exact .nil

/-- **The patches of a stream are its placeholders**, and so are those of the records before it. -/
theorem StreamOf.placed {width : Int} {slot : Nat} {stream : Stream}
    (h : StreamOf T width pos e slot stream before) : stream.Placed width ∧ Patched before := by
  induction h with
  | operand slot h => exact ⟨placed_var h.plain, h.patched⟩
  | store kept slot => exact ⟨(placed_slot kept).1, .nil⟩
  | load kept slot => exact ⟨(placed_slot kept).2, .nil⟩
  | indirect _ _ h _ _ ih => exact ⟨(ih.1.append (placed_ofOp .val2)).append (placed_var h.indirect), ih.2⟩
  | simple _ _ _ _ ihr ihl => exact ⟨(ihl.1.append (placed_ofOp _)).append ihr.1, ihr.2.append ihl.2⟩
  | @spilled op left right slot _ _ _ _ _ _ _ _ ihr ihl =>
    have hspill := ((ihr.1.append (placed_ofOp .stoTmp)).append
      (placed_slot (.spill (slot + right.spills))).1).append (placed_ofOp .val2)
    exact ⟨((hspill.append ihl.1).append (placed_ofOp _)).append (placed_slot _).2, ihr.2.append ihl.2⟩

/-! ## Tables -/

theorem cellsSize_ranges (ranges : List TableRange) (width : Int) :
    cellsSize (ranges.flatMap fun _ => [⟨2, none⟩, ⟨width, none⟩, ⟨width, none⟩]) =
      ranges.length * (2 + 2 * width) := by
  induction ranges with
  | nil => simp
  | cons range ranges ih =>
    simp only [flatMap_cons, cellsSize_append, cellsSize_cons, cellsSize_nil, ih, length_cons,
      Int.natCast_add, Int.add_mul]
    omega

theorem writtenAs_decisionTable (pos : Position) {t : TableRecord} (hwidth : 0 < t.varSize)
    (hsize : t.streamSize = cellsSize (t.stream.flatMap (·.cells t.varSize))) :
    Record.WrittenAs ⟨pos, .decisionTable t⟩ (Record.cells ⟨pos, .decisionTable t⟩) := by
  have hfilled : Filled (t.stream.flatMap (·.cells t.varSize)) := by
    intro cell hcell
    obtain ⟨item, -, hcell⟩ := mem_flatMap.mp hcell
    cases item with
    | op op => exact mem_singleton.mp hcell ▸ (by decide)
    | operand value => exact value.filled_cells hwidth cell hcell
  refine .table (cons_ne_nil _ _) ?_ ?_
  · refine Filled.append (Filled.append (Filled.append (Filled.append (by simp [Filled]) hfilled)
      (by simp [Filled])) fun cell hcell => ?_) (by simp [Filled])
    obtain ⟨range, -, hcell⟩ := mem_flatMap.mp hcell
    have hrange : Filled [⟨2, none⟩, ⟨t.varSize, none⟩, ⟨t.varSize, none⟩] := by simp [Filled, hwidth]
    exact hrange cell hcell
  · show some (4 + t.streamSize + 1 + t.ranges.length * (2 + 2 * t.varSize) + 2) = some (cellsSize t.cells)
    simp only [TableRecord.cells, cellsSize_append, cellsSize_cons, cellsSize_nil, cellsSize_ranges, hsize]
    rfl

theorem placeholders_decisionTable (pos : Position) (t : TableRecord) :
    placeholders 0 (Record.cells ⟨pos, .decisionTable t⟩) =
    (placeholders 0 (t.stream.flatMap (·.cells t.varSize))).map fun p =>
      { p with offset := p.offset + 4 } := by
  have hrest : ∀ offset, placeholders offset ([⟨1, none⟩] ++
      t.ranges.flatMap (fun _ => [⟨2, none⟩, ⟨t.varSize, none⟩, ⟨t.varSize, none⟩]) ++ [⟨2, none⟩]) = [] :=
    placeholders_of_known fun cell hcell => by
      simp only [mem_append, mem_flatMap, mem_cons, not_mem_nil, or_false] at hcell
      rcases hcell with (rfl | ⟨_, -, rfl | rfl | rfl⟩) | rfl <;> rfl
  have hcells : Record.cells ⟨pos, .decisionTable t⟩ = [⟨1, none⟩, ⟨1, none⟩, ⟨1, none⟩, ⟨1, none⟩] ++
      (t.stream.flatMap (·.cells t.varSize) ++ ([⟨1, none⟩] ++
        t.ranges.flatMap (fun _ => [⟨2, none⟩, ⟨t.varSize, none⟩, ⟨t.varSize, none⟩]) ++ [⟨2, none⟩])) := by
    simp [Record.cells, TableRecord.cells]
  rw [hcells, placeholders_append, placeholders_append, hrest, append_nil, ← placeholders_shift]
  rfl

/-- The table of a stream comes after its patches, which name the same parameters as those of the stream. -/
theorem StreamOf.table {s : Switch} {head : TableHead} (hwidth : IsWidth s.varSize)
    (h : StreamOf T s.varSize s.pos e 0 head.stream head.before) (results : List Record) (ranges : List TableRange)
    (default : TableResult) : ∃ (R : Record) (t : TableRecord), R.body = .decisionTable t ∧ R.WrittenAs R.cells ∧
      (placeholders 0 R.cells).map (·.param) = head.stream.patches.map (·.param) ∧
      tableRecords s head results ranges default =
        results ++ head.before ++ R.withPatches (placeholders 0 R.cells) := by
  have hplaced := h.placed.1
  let t : TableRecord := {
    node := head.node, name := s.name, feature := s.feature, related := s.related
    varSize := s.varSize, stream := head.stream.items, streamSize := head.stream.size, ranges, default }
  refine ⟨⟨s.pos, .decisionTable t⟩, t, rfl, writtenAs_decisionTable s.pos hwidth.pos hplaced.size, ?_, ?_⟩
  · rw [placeholders_decisionTable, hplaced.patches, map_map]
    rfl
  · rw [placeholders_decisionTable, ← hplaced.patches]
    rfl

theorem TableOf.patched {s : Switch} {rs : List Record} (h : TableOf T s rs) : Patched rs := by
  obtain @⟨part, e, head, ranges, default, -, -, -, hwidth, hstream, -⟩ := h
  obtain ⟨R, -, -, hR, -, hrecords⟩ := hstream.table hwidth [] ranges default
  rw [hrecords, nil_append]
  exact hstream.placed.2.append (patched_table hR)

/-- **The patches of a switch are the placeholders of its tables.** -/
theorem lowerSwitch_patched (s : Switch) : Yields (lowerSwitch s) Patched := by
  intro c rs c' hok
  obtain ⟨parts, rfl, hparts⟩ := (lowerSwitch_tablesOf s).yields c rs c' hok
  exact patched_flatten fun part hpart => (hparts part hpart).patched

end Lowering

end Grf
