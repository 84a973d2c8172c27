import Grf.Record.Basic

/-! # References of records

A record may define a name (`Record.named?`), and it may write the ids of other named records (`Record.references`):
those of the procedures that a decision table calls and of its results, and those of a graphics table. Any other record
is detached from the names.
-/

namespace Grf

open List

/-- What a named record is known by: its definition, its name, and its feature and id in the output. -/
structure NamedRecord where
  node : Nat
  name : String
  feature : Int
  id : Int

/-- The name of the record that an element of a stream refers to, with the id that is written. -/
def StreamItem.reference? : StreamItem → Option (String × Int)
  | .operand (.var v) =>
    match v.param with
    | some (.record name id) => some (name, id)
    | _ => none
  | _ => none

/-- The name of the record that is a result, with the id that is written. -/
def TableResult.reference? : TableResult → Option (String × Int)
  | .callback _ => none
  | .ref name id => some (name, id)

/-- Whether an element of a stream refers to a record only as a procedure that it calls. -/
def StreamItem.CallsOnly : StreamItem → Prop
  | .operand (.var v) => ∀ name id, v.param = some (.record name id) → v.num = VarRead.procedureNum
  | _ => True

namespace Record

def named? (r : Record) : Option NamedRecord :=
  match r.body with
  | .decisionTable t => some ⟨t.node, t.name, t.feature, t.id⟩
  | .spriteGroup g => some ⟨g.node, g.name, g.feature, g.id⟩
  | _ => none

/-- The names of the records that a record refers to, with the ids that it writes for them. -/
def references (r : Record) : List (String × Int) :=
  match r.body with
  | .decisionTable t =>
    t.stream.filterMap (·.reference?) ++ t.ranges.filterMap (·.result.reference?)
      ++ t.default.reference?.toList
  | .graphicsTable t => t.cargo.map (fun entry => (entry.2.name, entry.2.id)) ++ [(t.default.name, t.default.id)]
  | _ => []

def feature? (r : Record) : Option Int :=
  match r.body with
  | .decisionTable t => some t.feature
  | .graphicsTable t => some t.feature
  | _ => none

def CallsOnly (r : Record) : Prop :=
  match r.body with
  | .decisionTable t => ∀ item ∈ t.stream, item.CallsOnly
  | _ => True

def Detached (r : Record) : Prop :=
  match r.body with
  | .decisionTable _ | .spriteGroup _ | .graphicsTable _ => False
  | _ => True

namespace Detached

variable {r : Record}

theorem named? (h : r.Detached) : r.named? = none := by
  unfold Detached at h
  unfold Record.named?
  cases hb : r.body <;> simp_all

theorem references (h : r.Detached) : r.references = [] := by
  unfold Detached at h
  unfold Record.references
  cases hb : r.body <;> simp_all

theorem callsOnly (h : r.Detached) : r.CallsOnly := by
  unfold Detached at h
  unfold Record.CallsOnly
  cases hb : r.body <;> simp_all

end Detached

def isAttached (r : Record) : Bool :=
  match r.body with
  | .decisionTable _ | .spriteGroup _ | .graphicsTable _ => true
  | _ => false

theorem isAttached_eq_false {r : Record} : r.isAttached = false ↔ r.Detached := by
  unfold isAttached Detached
  cases r.body <;> simp

def attached (rs : List Record) : List Record := rs.filter isAttached

theorem attached_append (rs rs' : List Record) : attached (rs ++ rs') = attached rs ++ attached rs' := filter_append _ _

theorem attached_cons_of_detached {r : Record} (h : r.Detached) (rs : List Record) : attached (r :: rs) = attached rs :=
  filter_cons_of_neg (by rw [isAttached_eq_false.mpr h]; simp)

theorem attached_of_detached {rs : List Record} (h : ∀ r ∈ rs, r.Detached) : attached rs = [] :=
  filter_eq_nil_iff.mpr fun r hr => by rw [isAttached_eq_false.mpr (h r hr)]; simp

theorem attached_withPatches (r : Record) (patches : List Patch) : attached (r.withPatches patches) = attached [r] := by
  unfold withPatches
  split
  · rfl
  · rfl

theorem mem_withPatches {r r' : Record} {patches : List Patch} (h : r' ∈ r.withPatches patches) :
    r' = r ∨ r'.Detached := by
  unfold withPatches at h
  split at h
  · exact .inl (mem_singleton.mp h)
  · rcases mem_cons.mp h with rfl | h
    · exact .inr trivial
    · exact .inl (mem_singleton.mp h)

end Record

end Grf
