import Grf.Proofs.Engine.Basic

/-! # Records without control flow

Everything but a conditional or a loop is lowered to records that hold no skip and no label, and in which byte patches
stand right before the record they patch. `Straight targets computed` says this of a list: its assignments change
parameters with a number in `targets` and, if `computed` is true, those whose number is patched in. The list is
executed from first to last (`Straight.run_eq`) and changes no other parameter (`Straight.frame`).
-/

namespace Grf

open List

/-- Whether a record takes effect without touching the state of the engine. -/
def Record.IsPlain (r : Record) : Prop :=
  match r.body with
  | .bytePatchTable _ | .skip .. | .paramAssignment _ | .jumpTarget _ => False
  | _ => True

def Record.IsControl (r : Record) : Prop :=
  match r.body with
  | .skip .. | .jumpTarget _ => True
  | _ => False

def Patch.AtTarget (p : Patch) : Prop := p.offset = AssignRecord.targetOffset

/-- Records without control flow that assign to `targets`, and to parameters with a computed number
only if `computed` is true. -/
inductive Straight (targets : Int → Prop) (computed : Prop) : List Record → Prop
  | nil : Straight targets computed []
  | plain {r : Record} {rest : List Record} (hr : r.IsPlain) (h : Straight targets computed rest) :
      Straight targets computed (r :: rest)
  | assign {pos : Position} {a : AssignRecord} {rest : List Record} (ha : targets a.target)
      (h : Straight targets computed rest) :
      Straight targets computed (⟨pos, .paramAssignment a⟩ :: rest)
  | patched {pos : Position} {patches : List Patch} {r : Record} {rest : List Record}
      (hr : r.IsPlain) (hskip : r.kind.capabilities.byAction9 = true)
      (h : Straight targets computed rest) :
      Straight targets computed (⟨pos, .bytePatchTable patches⟩ :: r :: rest)
  | patchedAssign {pos pos' : Position} {patches : List Patch} {a : AssignRecord} {rest : List Record}
      (ha : targets a.target ∧ (∀ p ∈ patches, ¬p.AtTarget) ∨ computed ∧ ∃ p ∈ patches, p.AtTarget)
      (h : Straight targets computed rest) :
      Straight targets computed (⟨pos, .bytePatchTable patches⟩ :: ⟨pos', .paramAssignment a⟩ :: rest)

namespace Straight

variable {targets targets' : Int → Prop} {computed computed' : Prop} {rs rs' : List Record}

theorem append (h : Straight targets computed rs) (h' : Straight targets computed rs') :
    Straight targets computed (rs ++ rs') := by
  induction h with
  | nil => exact h'
  | plain hr _ ih => exact .plain hr ih
  | assign ha _ ih => exact .assign ha ih
  | patched hr hskip _ ih => exact .patched hr hskip ih
  | patchedAssign ha _ ih => exact .patchedAssign ha ih

theorem mono (h : Straight targets computed rs) (ht : ∀ n, targets n → targets' n)
    (hc : computed → computed') : Straight targets' computed' rs := by
  induction h with
  | nil => exact .nil
  | plain hr _ ih => exact .plain hr ih
  | assign ha _ ih => exact .assign (ht _ ha) ih
  | patched hr hskip _ ih => exact .patched hr hskip ih
  | patchedAssign ha _ ih => exact .patchedAssign (ha.imp (And.imp_left (ht _)) (And.imp_left hc)) ih

theorem of_plain (h : ∀ r ∈ rs, r.IsPlain) : Straight targets computed rs := by
  induction rs with
  | nil => exact .nil
  | cons r rs ih => exact .plain (h r (by simp)) (ih fun x hx => h x (by simp [hx]))

theorem withPatches {r : Record} (hr : r.IsPlain) (hskip : r.kind.capabilities.byAction9 = true)
    (patches : List Patch) : Straight targets computed (r.withPatches patches) := by
  unfold Record.withPatches
  split
  · exact .plain hr .nil
  · exact .patched hr hskip .nil

end Straight

/-! ## Executing straight lists -/

theorem AssignRecord.patched_target (p : Params) (patches : List Patch) (a : AssignRecord) :
    ((∀ q ∈ patches, ¬q.AtTarget) ∧ (a.patched p patches).target = a.target) ∨
      ∃ q ∈ patches, q.AtTarget ∧ (a.patched p patches).target = (p.read q.param).lowByte := by
  induction patches generalizing a with
  | nil => exact .inl ⟨by simp, rfl⟩
  | cons q patches ih =>
    rcases ih (a.patch p q) with ⟨hnone, htarget⟩ | ⟨q', hq', hat, htarget⟩
    · by_cases hq : q.AtTarget
      · refine .inr ⟨q, by simp, hq, htarget.trans ?_⟩
        rw [patch, if_pos (show q.offset = targetOffset from hq)]
        rfl
      · refine .inl ⟨by simpa using ⟨hq, hnone⟩, htarget.trans ?_⟩
        rw [patch, if_neg (show ¬q.offset = targetOffset from hq)]
        split <;> rfl
    · exact .inr ⟨q', by simp [hq'], hat, htarget⟩

/-- Whether the target that has been patched into a record, if any, is another parameter than `n`. -/
def Executed.Spares (x : Executed) (n : Int) : Prop := ∀ y ∈ x.patched, y.1.AtTarget → y.2.lowByte ≠ n

namespace Engine

variable {limit : Nat} {e : Engine}

theorem execute_log (r : Record) : ∃ x, (e.execute r).log = e.log ++ [x] := by
  unfold execute
  split <;> exact ⟨_, rfl⟩

theorem log_subset_executeAll (rs : List Record) : ∀ x ∈ e.log, x ∈ (e.executeAll rs).log := by
  induction rs generalizing e with
  | nil => exact fun x hx => hx
  | cons r rs ih =>
    intro x hx
    obtain ⟨y, hy⟩ := e.execute_log r
    exact ih x (by rw [hy]; simp [hx])

theorem execute_mode (r : Record) : (e.execute r).mode = e.mode := by
  unfold execute
  split <;> rfl

theorem executeAll_mode (rs : List Record) : (e.executeAll rs).mode = e.mode := by
  induction rs generalizing e with
  | nil => rfl
  | cons r rs ih => exact ih.trans (e.execute_mode r)

theorem step_of_not_isControl {r : Record} (h : ¬r.IsControl) (hmode : e.mode = .running) :
    e.step limit r = e.execute r := by
  unfold Record.IsControl at h
  unfold step
  rw [hmode]
  cases hb : r.body <;> rw [hb] at h <;> first | rfl | exact absurd trivial h

theorem run_eq_executeAll {rs : List Record} (h : ∀ r ∈ rs, ¬r.IsControl) (hmode : e.mode = .running) :
    e.run limit rs = e.executeAll rs := by
  induction rs generalizing e with
  | nil => rfl
  | cons r rs ih => grind [run_cons, step_of_not_isControl, executeAll_cons, e.execute_mode]

theorem execute_of_isPlain {r : Record} (h : r.IsPlain) :
    (e.execute r).params = e.params ∧ (e.execute r).pending = [] := by
  unfold Record.IsPlain at h
  unfold execute
  cases hb : r.body <;> rw [hb] at h <;> first | exact h.elim | exact ⟨rfl, rfl⟩

end Engine

namespace Straight

variable {targets : Int → Prop} {computed : Prop} {rs : List Record} {e : Engine}
variable (h : Straight targets computed rs)
include h

/-- **A straight list changes no parameter but its targets**, and leaves no patches pending. If it
assigns to parameters with computed numbers, the log has to show that `n` was not among them. -/
theorem frame (hpending : e.pending = []) : (e.executeAll rs).pending = [] ∧
      ∀ n, ¬targets n → (computed → ∀ x ∈ (e.executeAll rs).log, x.Spares n) →
        (e.executeAll rs).params n = e.params n := by
  induction h generalizing e with
  | nil => exact ⟨hpending, fun _ _ _ => rfl⟩
  | @plain r rest hr _ ih =>
    obtain ⟨hparams, hpend⟩ := Engine.execute_of_isPlain (e := e) hr
    obtain ⟨h1, h2⟩ := ih (e := e.execute r) hpend
    exact ⟨h1, fun n hn hlog => (h2 n hn hlog).trans (by rw [hparams])⟩
  | @assign pos a rest ha _ ih =>
    obtain ⟨h1, h2⟩ := ih (e := e.execute ⟨pos, .paramAssignment a⟩) rfl
    refine ⟨h1, fun n hn hlog => (h2 n hn hlog).trans ?_⟩
    show (a.patched e.params e.pending).exec e.params n = _
    rw [hpending]
    exact Params.set_of_ne _ _ _ (by rintro rfl; exact hn ha)
  | @patched pos patches r rest hr _ _ ih =>
    obtain ⟨hparams, hpend⟩ := Engine.execute_of_isPlain (e := e.execute ⟨pos, .bytePatchTable patches⟩) hr
    obtain ⟨h1, h2⟩ := ih (e := (e.execute ⟨pos, .bytePatchTable patches⟩).execute r) hpend
    exact ⟨h1, fun n hn hlog => (h2 n hn hlog).trans (by rw [hparams]; rfl)⟩
  | @patchedAssign pos pos' patches a rest ha _ ih =>
    let e' := (e.execute ⟨pos, .bytePatchTable patches⟩).execute ⟨pos', .paramAssignment a⟩
    obtain ⟨h1, h2⟩ := ih (e := e') rfl
    refine ⟨h1, fun n hn hlog => (h2 n hn hlog).trans ?_⟩
    show (a.patched e.params patches).exec e.params n = _
    refine Params.set_of_ne _ _ _ ?_
    rcases a.patched_target e.params patches with ⟨hnone, htarget⟩ | ⟨q, hq, hat, htarget⟩
    · rw [htarget]
      rcases ha with ⟨ha, -⟩ | ⟨-, q, hq, hat⟩
      · rintro rfl
        exact hn ha
      · exact absurd hat (hnone q hq)
    · rw [htarget]
      rcases ha with ⟨-, hnone⟩ | ⟨hc, -⟩
      · exact absurd hat (hnone q hq)
      · -- the value of the patch has been logged with the assignment
        have hmem : (⟨⟨pos', .paramAssignment a⟩,
            patches.map fun patch => (patch, e.params.read patch.param)⟩ : Executed) ∈ e'.log := by
          show _ ∈ _ ++ [_]
          simp [Engine.execute]
        have hspares := hlog hc _ (Engine.log_subset_executeAll rest _ hmem)
        exact (hspares (q, e.params.read q.param) (mem_map.mpr ⟨q, hq, rfl⟩) hat).symm

theorem not_isControl : ∀ r ∈ rs, ¬r.IsControl := by
  have plain : ∀ {r : Record}, r.IsPlain → ¬r.IsControl := by
    grind [Record.IsPlain, Record.IsControl]
  induction h with
  | nil => simp
  | plain hr _ ih => exact forall_mem_cons.mpr ⟨plain hr, ih⟩
  | assign _ _ ih => exact forall_mem_cons.mpr ⟨fun h => h, ih⟩
  | patched hr _ _ ih => exact forall_mem_cons.mpr ⟨fun h => h, forall_mem_cons.mpr ⟨plain hr, ih⟩⟩
  | patchedAssign _ _ ih => exact forall_mem_cons.mpr ⟨fun h => h, forall_mem_cons.mpr ⟨fun h => h, ih⟩⟩

/-- **A straight list is executed as a whole.** -/
theorem run_eq {limit : Nat} (hmode : e.mode = .running) : e.run limit rs = e.executeAll rs :=
  Engine.run_eq_executeAll h.not_isControl hmode

end Straight

end Grf
