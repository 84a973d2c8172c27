import Grf.Lowering.Properties
import Grf.Proofs.Lowering.Plan
import Grf.Proofs.Lowering.Strings
import Grf.Proofs.Record.References

/-! # Patches

`Patched` says of a list of records that each record with placeholders comes after the patches of exactly these. So
wherever there are patches, the next record writes zeros at their places (`Patched.matched`), also when its references
and registers are known (`Record.Becomes`).
-/

namespace Grf

open List PropertyEntry

/-! ## Sizes of cells -/

variable {cells : List Cell} {R : Record}

theorem exists_cell_of_mem_placeholders {offset : Int} {p : Patch}
    (h : p ∈ placeholders offset cells) : ∃ cell ∈ cells, cell.param = some p.param ∧ cell.size = p.size := by
  induction cells generalizing offset with
  | nil => cases h
  | cons cell cells ih =>
    rcases mem_append.mp h with h | h
    · obtain ⟨param, hparam, rfl⟩ := mem_map.mp h
      exact ⟨cell, mem_cons_self, Option.mem_toList.mp hparam, rfl⟩
    grind

abbrev Filled (cells : List Cell) : Prop := ∀ cell ∈ cells, 0 < cell.size

theorem Filled.append {cells' : List Cell} (h : Filled cells) (h' : Filled cells') : Filled (cells ++ cells') :=
  forall_mem_append.mpr ⟨h, h'⟩

namespace Expr

theorem filled_cells : ∀ (e : Expr) {width : Int}, 0 < width → Filled (e.cells width)
  | const _, width, h => forall_mem_singleton.mpr h
  | param number, width, h => by
    cases number <;> exact forall_mem_singleton.mpr h
  | string .., width, h => forall_mem_singleton.mpr h
  | record .., width, h => forall_mem_singleton.mpr h
  | store _, width, h => by
    show Filled [⟨1, none⟩, ⟨1, none⟩, ⟨width, none⟩]
    simp [Filled, h]
  | load _, width, h => by
    show Filled [⟨1, none⟩, ⟨1, none⟩, ⟨1, none⟩, ⟨width, none⟩]
    simp [Filled, h]
  | binary .., width, h => forall_mem_singleton.mpr h
  | not _, width, h => forall_mem_singleton.mpr h
  | var ⟨num, arg, shift, mask, add, div, mod⟩, width, h => by
    have hone : Filled [⟨1, none⟩] := by simp [Filled]
    have hknown : Filled [⟨width, none⟩] := by simpa [Filled] using h
    have harg : Filled (argCells arg) := by
      cases arg with
      | none => exact fun _ hcell => nomatch hcell
      | some e => exact e.filled_cells (by decide)
    have hmask : Filled (fieldCells width mask) := by
      cases mask with
      | none => exact hknown
      | some e => exact e.filled_cells h
    have hadd : Filled (fieldCells width add) := by
      cases add with
      | none => exact hknown
      | some e => exact e.filled_cells h
    have hdivisor : Filled (fieldCells width (div <|> mod)) := by
      cases div with
      | some e => exact e.filled_cells h
      | none =>
        cases mod with
        | none => exact hknown
        | some e => exact e.filled_cells h
    rw [cells_var]
    refine (((hone.append harg).append hone).append hmask).append ?_
    split
    · exact hadd.append hdivisor
    · exact fun _ hcell => nomatch hcell
termination_by structural e => e

end Expr

theorem AssignPlan.filled_cells (p : AssignPlan) : Filled p.cells := by
  unfold AssignPlan.cells
  cases p.target <;> cases p.src1 <;> cases p.assignment.hasData <;> simp [Filled, AssignByte.cell]

/-! ## Records and their patches -/

/-- What a record becomes before it is written. References and registers are filled in, so the cells
stay the same, and a record without references and registers is not changed. -/
structure Record.Becomes (R R' : Record) : Prop where
  cells : R'.cells = R.cells
  detached : R.Detached → R' = R

theorem Record.Becomes.refl (R : Record) : R.Becomes R := ⟨rfl, fun _ => rfl⟩

theorem Record.Becomes.trans {R' R'' : Record} (h : R.Becomes R') (h' : R'.Becomes R'') : R.Becomes R'' where
  cells := h'.cells.trans h.cells
  detached hR := by
    obtain rfl := h.detached hR
    exact h'.detached hR

def Record.patches? (R : Record) : Option (List Patch) :=
  match R.body with
  | .bytePatchTable patches => some patches
  | _ => none

/-- A record that is written as cells, some of which may be placeholders. -/
inductive Record.WrittenAs : Record → List Cell → Prop
  | assignment (pos : Position) (plan : AssignPlan) : WrittenAs ⟨pos, .paramAssignment plan.assignment⟩ plan.cells
  | table {R : Record} (hcells : R.cells ≠ []) (hfilled : Filled R.cells) (hsize : R.size? = some (cellsSize R.cells)) :
      WrittenAs R R.cells

/-- The patches are the placeholders of a record: they do not overlap, they are within the record,
and zeros are written where they are. -/
structure Hits (patches : List Patch) (R : Record) : Prop where
  cells : ∃ cells, R.WrittenAs cells ∧ patches = placeholders 0 cells
  apart : patches.Pairwise fun p q => p.offset + p.size ≤ q.offset
  within : ∀ p ∈ patches, 0 ≤ p.offset ∧ 0 < p.size ∧ ∀ size ∈ R.size?, p.offset + p.size ≤ size
  zeros : ∀ R' tokens, R.Becomes R' → R'.tokens = .ok tokens → ∀ p ∈ patches,
    p.offset + p.size ≤ (Token.bytesOfAll tokens).length ∧
    ((Token.bytesOfAll tokens).drop p.offset.toNat).take p.size.toNat = List.replicate p.size.toNat 0

namespace Record.WrittenAs

variable {R R' : Record} {cells : List Cell}
variable (h : R.WrittenAs cells)
include h

theorem filled : Filled cells := by
  cases h with
  | assignment pos plan => exact plan.filled_cells
  | table _ hfilled => exact hfilled

theorem size? : R.size? = some (cellsSize cells) := by
  cases h with
  | assignment pos plan =>
    show some (if plan.assignment.hasData then (9 : Int) else 5) = _
    unfold AssignPlan.cells
    cases plan.target <;> cases plan.src1 <;> cases plan.assignment.hasData <;> simp [AssignByte.cell]
  | table _ _ hsize => exact hsize

theorem spells (hR' : R.Becomes R') {tokens : List Token} (hok : R'.tokens = .ok tokens) :
    Spells cells (Token.bytesOfAll tokens) := by
  cases h with
  | assignment pos plan =>
    obtain rfl := hR'.detached trivial
    exact (plan.tokens_lays pos tokens hok).spells
  | table hcells =>
    rw [← hR'.cells] at hcells ⊢
    exact (R'.tokens_lays hcells tokens hok).spells

theorem patches? : R.patches? = none := by
  cases h with
  | assignment pos plan => rfl
  | table hcells =>
    obtain ⟨pos, body⟩ := R
    cases body with
    | bytePatchTable patches => exact absurd rfl hcells
    | _ => rfl

/-- **The placeholders of a record are zeros within its bytes, apart from each other.** -/
theorem hits : Hits (placeholders 0 cells) R := by
  have hsize : ∀ cell ∈ cells, 0 ≤ cell.size := fun cell hcell => Int.le_of_lt (h.filled cell hcell)
  refine ⟨⟨cells, h, rfl⟩, pairwise_placeholders hsize 0, fun p hp => ?_, fun R' tokens hR' hok p hp => ?_⟩
  · obtain ⟨hstart, hend⟩ := mem_placeholders hsize hp
    obtain ⟨cell, hcell, -, hp⟩ := exists_cell_of_mem_placeholders hp
    refine ⟨hstart, hp ▸ h.filled cell hcell, fun size hmem => ?_⟩
    rw [h.size?, Option.mem_some] at hmem
    omega
  · have hspells := h.spells hR' hok
    have hlength := hspells.length
    have hend := (mem_placeholders hsize hp).2
    exact ⟨by omega, hspells.zero_at_placeholder [] hp⟩

end Record.WrittenAs

namespace Lowering

def IsText (R : Record) : Prop := ∃ feature lang id text, R.body = .stringDefinition feature lang id text

def IsCheckedText (id : Int) (R : Record) : Prop :=
  ∃ feature lang text, R.body = .stringDefinition feature lang id text ∧ Encodable text

theorem IsCheckedText.isText {id : Int} (h : IsCheckedText id R) : IsText R := by
  obtain ⟨feature, lang, text, hbody, -⟩ := h
  exact ⟨feature, lang, id, text, hbody⟩

/-- Records that come after the patches of their placeholders: definitions of strings, which have
none, the assignments that compute an operand, and tables. -/
inductive Patched : List Record → Prop
  | nil : Patched []
  | text {R : Record} {rs : List Record} (h : IsText R) (rest : Patched rs) : Patched (R :: rs)
  | computation {e : Expr} {n : Int} {steps : List Step} {rs : List Record} (pos : Position)
      (h : Traces e (.hold n) [] steps) (rest : Patched rs) : Patched (planned pos steps ++ rs)
  | table {R : Record} {rs : List Record} (h : R.WrittenAs R.cells) (rest : Patched rs) :
      Patched (R.withPatches (placeholders 0 R.cells) ++ rs)

variable {α β : Type} {feature : Int} {pos : Position} {rs rs' : List Record}

theorem Patched.append (h : Patched rs) (h' : Patched rs') : Patched (rs ++ rs') := by
  induction h with
  | nil => exact h'
  | text h _ ih => exact .text h ih
  | computation pos h _ ih =>
    rw [append_assoc]
    exact .computation pos h ih
  | table h _ ih =>
    rw [append_assoc]
    exact .table h ih

theorem patched_flatten {lists : List (List Record)} (h : ∀ rs ∈ lists, Patched rs) : Patched lists.flatten := by
  induction lists with
  | nil => exact .nil
  | cons rs lists ih =>
    rw [forall_mem_cons] at h
    exact h.1.append (ih h.2)

theorem patched_texts (h : ∀ R ∈ rs, IsText R) : Patched rs := by
  induction rs with
  | nil => exact .nil
  | cons R rs ih =>
    rw [forall_mem_cons] at h
    exact .text h.1 (ih h.2)

variable {e : Expr} {steps : List Step} {value : PropertyValue}

theorem patched_planned {n : Int} (h : Traces e (.hold n) [] steps) : Patched (planned pos steps) := by
  have hall := Patched.computation pos h .nil
  rwa [append_nil] at hall

theorem patched_table (h : R.WrittenAs R.cells) : Patched (R.withPatches (placeholders 0 R.cells)) := by
  have hall := Patched.table h .nil
  rwa [append_nil] at hall

def Matched (rs : List Record) : Prop :=
  ∀ (i : Nat) (R : Record) (patches : List Patch), rs[i]? = some R → R.patches? = some patches →
    ∃ R', rs[i + 1]? = some R' ∧ Hits patches R'

theorem matched_nil : Matched [] := fun _ _ _ hi => nomatch hi

theorem Matched.cons (hR : R.patches? = none) (h : Matched rs) : Matched (R :: rs) := by
  intro i R' patches hi hpatches
  cases i with
  | zero =>
    cases hi
    cases hR.symm.trans hpatches
  | succ i => exact h i R' patches hi hpatches

theorem Matched.withPatches (hR : R.WrittenAs cells) (h : Matched rs) :
    Matched (R.withPatches (placeholders 0 cells) ++ rs) := by
  have hrest : Matched (R :: rs) := .cons hR.patches? h
  unfold Record.withPatches
  split
  · exact hrest
  · intro i R' patches hi hpatches
    cases i with
    | zero =>
      cases hi
      cases hpatches
      exact ⟨R, rfl, hR.hits⟩
    | succ i => exact hrest i R' patches hi hpatches

theorem Matched.planned (steps : List Step) (h : Matched rs) : Matched (planned pos steps ++ rs) := by
  induction steps with
  | nil => exact h
  | cons s steps ih =>
    show Matched ((s.plan.records pos ++ Lowering.planned pos steps) ++ rs)
    rw [append_assoc]
    exact .withPatches (.assignment pos s.plan) ih

theorem matched_planned (steps : List Step) : Matched (planned pos steps) :=
  append_nil (Lowering.planned pos steps) ▸ matched_nil.planned steps

/-- **Patches hit the placeholders of the next record.** -/
theorem Patched.matched (h : Patched rs) : Matched rs := by
  induction h with
  | nil => exact matched_nil
  | text h _ ih =>
    obtain ⟨feature, lang, id, text, hR⟩ := h
    refine .cons ?_ ih
    unfold Record.patches?
    rw [hR]
  | computation pos _ _ ih => exact ih.planned _
  | table h _ ih => exact .withPatches h ih

/-! ## Results of lowerings -/

/-- The result of a lowering, if there is one, has the property `P`. -/
def Yields (m : Lowering α) (P : α → Prop) : Prop := ∀ c a c', m c = .ok a c' → P a

namespace Yields

variable {P : α → Prop} {Q : β → Prop} {m : Lowering α} {f : α → Lowering β}

theorem pure {a : α} (h : P a) : Yields (pure a) P := by
  intro c b c' hok
  obtain ⟨rfl, rfl⟩ := pure_eq_ok.mp hok
  exact h

theorem bind (hm : Yields m P) (hf : ∀ a, P a → Yields (f a) Q) : Yields (m >>= f) Q := by
  intro c b c' hok
  obtain ⟨a, d, ha, hb⟩ := bind_eq_ok.mp hok
  exact hf a (hm c a d ha) d b c' hb

theorem after (hf : ∀ a, Yields (f a) Q) : Yields (m >>= f) Q :=
  bind (P := fun _ => True) (fun _ _ _ _ => trivial) fun a _ => hf a

theorem fail {kind : ErrorKind} {message : String} : Yields (fail kind pos message) P :=
  fun _ _ _ hok => (fail_eq_ok.mp hok).elim

theorem failIf {condition : Bool} {kind : ErrorKind} {message : String} :
    Yields (failIf condition kind pos message) fun _ => condition = false :=
  fun _ _ _ hok => (failIf_eq_ok.mp hok).1

theorem mapM {T : α → β → Prop} (hf : ∀ a, Yields (f a) (T a)) (as : List α) : Yields (as.mapM f) (Forall₂ T as) := by
  induction as with
  | nil => exact .pure .nil
  | cons a as ih =>
    rw [List.mapM_cons]
    exact (hf a).bind fun b hb => ih.bind fun bs hbs => .pure (.cons hb hbs)

theorem mapM_zipIdx {f : α × Nat → Lowering β} {T : α → β → Prop} (hf : ∀ x, Yields (f x) (T x.1)) (as : List α) :
    Yields (as.zipIdx.mapM f) (Forall₂ T as) := by
  intro c bs c' hok
  have hbs := mapM hf as.zipIdx c bs c' hok
  rwa [← forall₂_map_left_iff, zipIdx_map_fst] at hbs

theorem mapM_all (hf : ∀ a, Yields (f a) Q) (as : List α) : Yields (as.mapM f) fun bs => ∀ b ∈ bs, Q b := by
  induction as with
  | nil => exact .pure (by simp)
  | cons a as ih => grind [bind, pure]

theorem forM {f : α → Lowering PUnit} (hf : ∀ a, Yields (f a) fun _ => P a) (as : List α) :
    Yields (as.forM f) fun _ => ∀ a ∈ as, P a := by
  induction as with
  | nil => exact .pure (by simp)
  | cons a as ih => exact (hf a).bind fun _ ha c u c' hok => forall_mem_cons.mpr ⟨ha, ih c u c' hok⟩

end Yields

theorem operandParam_yields : Yields (operandParam e pos) fun x =>
    ∃ steps, Traces e.fold (.hold x.2) [] steps ∧ x.1 = planned pos steps :=
  fun _ _ _ hok => (operandParam_steps hok).imp fun _ h => ⟨h.1, h.2.1⟩

theorem resolveString_texts (name : String) :
    Yields (resolveString feature name pos) fun x => ∀ R ∈ x.2, IsCheckedText x.1 R := by
  intro c x c' hok R hR
  obtain ⟨-, -, hrecords⟩ := resolveString_spec hok
  obtain ⟨lang, text, rfl, htext⟩ := hrecords R hR
  exact ⟨_, _, _, rfl, htext⟩

/-! ## Properties -/

/-- What is written for the value of a property, and the steps of a value that has to be computed. -/
inductive PropertyPlans : PropertyValue → PropertyContent → List Step → Prop
  | constant (k : Int) : PropertyPlans (.constant k) (.value (.const k)) []
  | folded {e : Expr} {k : Int} (h : e.fold = .const k) : PropertyPlans (.computed e) (.value (.const k)) []
  | computed {e : Expr} {n : Int} {steps : List Step} (hconst : ¬∃ k, e.fold = .const k)
      (h : Traces e.fold (.hold n) [] steps) :
      PropertyPlans (.computed e) (.value (.paramAt n)) steps
  | string (name : String) (id : Int) : PropertyPlans (.string name) (.value (.string name id)) []
  | array (items : List Int) : PropertyPlans (.array items) (.items items) []

theorem PropertyPlans.patched {content : PropertyContent}
    (h : PropertyPlans value content steps) (pos : Position) : Patched (planned pos steps) := by
  cases h with
  | computed _ h => exact patched_planned h
  | _ => exact .nil

theorem PropertyPlans.cellsSize {e : PropertyEntry}
    (h : PropertyPlans value e.content steps) : cellsSize e.cells = 1 + e.valueSize := by
  obtain ⟨num, size, content⟩ := e
  cases h with
  | array items =>
    have hitems : Grf.cellsSize (items.map fun _ => ⟨size, none⟩) = items.length * size := by
      induction items with
      | nil => simp
      | cons item items ih =>
        simp only [map_cons, cellsSize_cons, length_cons, ih, Int.natCast_add, Int.add_mul]
        omega
    simp only [cells, valueSize, cellsSize_cons, hitems]
  | _ => exact congrArg (1 + ·) (Int.add_zero _)

/-- What a property is lowered to. -/
structure LoweredAs (pos : Position) (prop : Property) (p : LoweredProperty) (steps : List Step) : Prop where
  num : p.entry.num = prop.num
  size : p.entry.size = prop.size
  filled : 0 < prop.size
  texts : ∀ R ∈ p.definitions, IsText R
  content : PropertyPlans prop.value p.entry.content steps
  computations : p.computations = planned pos steps
  placeholders : ∀ offset, placeholders offset p.entry.cells =
    p.patchParam.toList.map fun param => { param, size := p.entry.size, offset := offset + 1 }

theorem lowerProperty_loweredAs (prop : Property) :
    Yields (lowerProperty feature prop pos) fun p => ∃ steps, LoweredAs pos prop p steps := by
  refine .after fun _ => Yields.failIf.bind fun _ hwidth => ?_
  have hfilled : 0 < prop.size := by
    grind [decide_eq_false_iff_not]
  have hnone : ∀ R ∈ ([] : List Record), IsText R := by simp
  obtain ⟨num, size, value, at'⟩ := prop
  cases value with
  | constant k => exact .after fun _ => .pure ⟨[], rfl, rfl, hfilled, hnone, .constant k, rfl, fun _ => rfl⟩
  | computed value =>
    have hcomputed : ∀ e, value.fold = e → (¬∃ k, e = .const k) → Yields (do
        let x ← operandParam e pos
        return { entry := ⟨num, size, .value (.paramAt x.2)⟩, computations := x.1, patchParam := some x.2 })
        fun p => ∃ steps, LoweredAs pos ⟨num, size, .computed value, at'⟩ p steps := by
      rintro _ rfl hconst
      refine operandParam_yields.bind fun x hx => .pure ?_
      obtain ⟨steps, hsteps, hrecords⟩ := hx
      rw [Expr.fold_fold] at hsteps
      exact ⟨_, rfl, rfl, hfilled, hnone, .computed hconst hsteps, hrecords, fun _ => rfl⟩
    cases hfold : value.fold with
    | const k =>
      simp only [hfold]
      exact .after fun _ => .pure ⟨[], rfl, rfl, hfilled, hnone, .folded hfold, rfl, fun _ => rfl⟩
    | _ => grind
  | string name =>
    exact .after fun _ => (resolveString_texts name).bind fun x hx =>
      .pure ⟨[], rfl, rfl, hfilled, fun R hR => (hx R hR).isText, .string name x.1, rfl, fun _ => rfl⟩
  | array items =>
    refine .after fun _ => .after fun _ => .pure ⟨[], rfl, rfl, hfilled, hnone, .array items, rfl, fun offset => ?_⟩
    exact placeholders_of_known (by simp [cells]) offset
  | missing => exact .fail

namespace LoweredAs

variable {prop : Property} {p : LoweredProperty} {steps : List Step}

theorem filled_cells (h : LoweredAs pos prop p steps) : Filled p.entry.cells := by
  have hsize : 0 < p.entry.size := h.size ▸ h.filled
  unfold cells
  cases p.entry.content with
  | value value => exact forall_mem_cons.mpr ⟨by decide, value.filled_cells hsize⟩
  | items items => simpa [Filled] using fun _ => hsize

end LoweredAs

/-- The properties of an item are lowered one by one, and put into a table that comes after the
patches of its placeholders. -/
def PropertiesPlanned (feature id : Int) (props : List Property) (pos : Position) (rs : List Record) : Prop :=
  ∃ lowered, Forall₂ (fun prop p => ∃ steps, LoweredAs (positionOr prop.pos pos) prop p steps) props lowered ∧
    let table : Record := ⟨pos, .propertyTable feature id (lowered.map (·.entry))⟩
    rs = lowered.flatMap (·.definitions) ++ lowered.flatMap (·.computations) ++
      table.withPatches (placeholders 0 table.cells)

section Properties

variable {id : Int} {props : List Property} {lowered : List LoweredProperty}

theorem propertyPatches_eq
    (h : Forall₂ (fun prop p => ∃ steps, LoweredAs (positionOr prop.pos pos) prop p steps) props lowered)
    (offset : Int) : propertyPatches offset lowered = placeholders offset (lowered.flatMap (·.entry.cells)) := by
  induction h generalizing offset with
  | nil => rfl
  | @cons prop p props lowered hp _ ih =>
    obtain ⟨steps, hp⟩ := hp
    rw [flatMap_cons, placeholders_append, hp.placeholders, hp.content.cellsSize, propertyPatches, ih, Int.add_assoc]

theorem propertyPatches_table
    (h : Forall₂ (fun prop p => ∃ steps, LoweredAs (positionOr prop.pos pos) prop p steps) props lowered) :
    propertyPatches 7 lowered =
      placeholders 0 (Record.cells ⟨pos, .propertyTable feature id (lowered.map (·.entry))⟩) := by
  have hcells : (lowered.map (·.entry)).flatMap (·.cells) = lowered.flatMap (·.entry.cells) := flatMap_map ..
  have hhead : placeholders 0 [⟨1, none⟩, ⟨1, none⟩, ⟨1, none⟩, ⟨1, none⟩, ⟨1, none⟩, ⟨2, none⟩] = [] :=
    placeholders_of_known (by simp) 0
  show _ = placeholders 0 (_ ++ _)
  rw [placeholders_append, hhead, hcells, propertyPatches_eq h]
  rfl

theorem lowerProperties_planned : Yields (lowerProperties feature id props pos) fun rs =>
    (props = [] ∧ rs = []) ∨ PropertiesPlanned feature id props pos rs := by
  unfold lowerProperties
  split
  · rename_i hnil
    exact .pure (.inl ⟨List.isEmpty_iff.mp hnil, rfl⟩)
  refine .after fun _ => .after fun _ => .after fun _ => ?_
  refine (Yields.mapM (fun prop => lowerProperty_loweredAs prop) props).bind fun lowered hlowered => .pure ?_
  exact .inr ⟨lowered, hlowered, by rw [propertyPatches_table hlowered]⟩

theorem writtenAs_propertyTable (pos : Position) (feature id : Int) {entries : List PropertyEntry}
    (hfilled : ∀ e ∈ entries, Filled e.cells) (hsize : ∀ e ∈ entries, cellsSize e.cells = 1 + e.valueSize) :
    Record.WrittenAs ⟨pos, .propertyTable feature id entries⟩
      (Record.cells ⟨pos, .propertyTable feature id entries⟩) := by
  have hcells : cellsSize (entries.flatMap (·.cells)) = Record.total (entries.map fun e => 1 + e.valueSize) := by
    clear hfilled
    induction entries with
    | nil => rfl
    | cons e entries ih =>
      rw [forall_mem_cons] at hsize
      rw [flatMap_cons, cellsSize_append, hsize.1, ih hsize.2]
      rfl
  refine .table (cons_ne_nil _ _) (Filled.append (by simp [Filled]) fun cell hcell => ?_) ?_
  · grind
  · show some (7 + Record.total (entries.map fun e => 1 + e.valueSize)) = some (cellsSize (_ ++ _))
    rw [cellsSize_append, hcells]
    rfl

theorem exists_loweredAs
    (h : Forall₂ (fun prop p => ∃ steps, LoweredAs (positionOr prop.pos pos) prop p steps) props lowered) :
    ∀ p ∈ lowered, ∃ pos prop steps, LoweredAs pos prop p steps :=
  ((forall₂_and_left _ _).mp (h.flip.imp fun _ prop h => ⟨⟨_, prop, h⟩, h⟩)).1

theorem writtenAs_lowered (feature id : Int)
    (h : Forall₂ (fun prop p => ∃ steps, LoweredAs (positionOr prop.pos pos) prop p steps) props lowered) :
    Record.WrittenAs ⟨pos, .propertyTable feature id (lowered.map (·.entry))⟩
      (Record.cells ⟨pos, .propertyTable feature id (lowered.map (·.entry))⟩) := by
  have hentries : ∀ e ∈ lowered.map (·.entry), Filled e.cells ∧ cellsSize e.cells = 1 + e.valueSize := by
    intro e he
    obtain ⟨p, hp, rfl⟩ := mem_map.mp he
    obtain ⟨pos, prop, steps, hp⟩ := exists_loweredAs h p hp
    exact ⟨hp.filled_cells, hp.content.cellsSize⟩
  exact writtenAs_propertyTable pos feature id (fun e he => (hentries e he).1) fun e he => (hentries e he).2

theorem PropertiesPlanned.patched (h : PropertiesPlanned feature id props pos rs) : Patched rs := by
  obtain ⟨lowered, hlowered, rfl⟩ := h
  have hall := exists_loweredAs hlowered
  refine (Patched.append ?_ ?_).append (patched_table (writtenAs_lowered feature id hlowered))
  · refine patched_texts fun R hR => ?_
    obtain ⟨p, hp, hR⟩ := mem_flatMap.mp hR
    obtain ⟨pos, prop, steps, hp⟩ := hall p hp
    exact hp.texts R hR
  · refine patched_flatten fun rs hrs => ?_
    obtain ⟨p, hp, rfl⟩ := mem_map.mp hrs
    obtain ⟨pos, prop, steps, hp⟩ := hall p hp
    exact hp.computations ▸ hp.content.patched pos

end Properties

end Lowering

end Grf
