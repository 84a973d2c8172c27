import Mathlib.Tactic
import Grf.Context

/-! # What a successful lowering has done

A lowering that succeeds has succeeded in each of its steps. The lemmas of this module take a successful computation
apart, step by step.
-/

namespace Grf

section

variable {ε σ α β : Type} {m : EStateM ε σ α} {f : α → EStateM ε σ β} {s s' : σ}

theorem bind_of_ok {a : α} (h : m s = .ok a s') : (m >>= f) s = f a s' := by
  show EStateM.bind m f s = _
  rw [EStateM.bind, h]

theorem bind_of_error {e : ε} (h : m s = .error e s') : (m >>= f) s = .error e s' := by
  show EStateM.bind m f s = _
  rw [EStateM.bind, h]

theorem bind_eq_ok {b : β} : (m >>= f) s = .ok b s' ↔ ∃ a d, m s = .ok a d ∧ f a d = .ok b s' := by
  cases h : m s with
  | ok a d => simp [bind_of_ok h]
  | error e d => simp [bind_of_error h]

theorem pure_eq_ok {a b : α} : (pure a : EStateM ε σ α) s = .ok b s' ↔ a = b ∧ s = s' := by
  show EStateM.Result.ok a s = .ok b s' ↔ _
  simp

theorem bind_pure_eq_ok {g : α → β} {b : β} :
    (m >>= fun a => pure (g a)) s = .ok b s' ↔ ∃ a, m s = .ok a s' ∧ g a = b := by
  rw [bind_eq_ok]
  simp [pure_eq_ok]

theorem modify_bind_eq_ok {g : σ → σ} {f : PUnit → EStateM ε σ α} :
    (modify g >>= f) s = .ok a s' ↔ f ⟨⟩ (g s) = .ok a s' := Iff.rfl

theorem modify_eq_ok {g : σ → σ} {u : PUnit} : (modify g : EStateM ε σ PUnit) s = .ok u s' ↔ g s = s' := by
  show EStateM.Result.ok PUnit.unit (g s) = .ok u s' ↔ _
  simp

end

namespace Lowering

variable {α β : Type} {c c' : Context} {a : α} {kind : ErrorKind} {pos : Position} {message : String}

@[simp] theorem throw_eq_ok {e : Failure} : (throw e : Lowering α) c = .ok a c' ↔ False := by
  show EStateM.Result.error e c = .ok a c' ↔ False
  simp

@[simp] theorem fail_eq_ok : (fail kind pos message : Lowering α) c = .ok a c' ↔ False := throw_eq_ok

theorem failIf_eq_ok {condition : Bool} {u : Unit} :
    failIf condition kind pos message c = .ok u c' ↔ condition = false ∧ c = c' := by
  cases condition with
  | true => simp [failIf]
  | false => simp [failIf, pure_eq_ok]

theorem lift_eq_ok {x : Except Failure α} : (lift x) c = .ok a c' ↔ x = .ok a ∧ c = c' := by
  cases x with
  | ok b => simp [lift, pure_eq_ok]
  | error e => simp [lift]

theorem failIf_bind_eq_ok {condition : Bool} {f : Unit → Lowering α} :
    (failIf condition kind pos message >>= f) c = .ok a c' ↔ condition = false ∧ f () c = .ok a c' := by
  constructor
  · intro h
    obtain ⟨_, d, hcheck, h⟩ := bind_eq_ok.mp h
    obtain ⟨hcondition, rfl⟩ := failIf_eq_ok.mp hcheck
    exact ⟨hcondition, h⟩
  · rintro ⟨rfl, h⟩
    exact h

theorem lift_bind_eq_ok {x : Except Failure α} {f : α → Lowering β} {b : β} :
    (lift x >>= f) c = .ok b c' ↔ ∃ a, x = .ok a ∧ f a c = .ok b c' := by
  simp [bind_eq_ok, lift_eq_ok, and_assoc]

theorem get_bind_eq_ok {f : Context → Lowering α} : (get >>= f) c = .ok a c' ↔ f c c = .ok a c' := Iff.rfl

theorem bracket_eq_ok {enter : Context → Context} {exit : Context → Except Fault Context} {body : Lowering α} :
    bracket enter exit body c = .ok a c' ↔ ∃ d, body (enter c) = .ok a d ∧ exit d = .ok c' := by
  unfold bracket
  cases body (enter c) with
  | ok b d =>
    cases h : exit d with
    | ok d' =>
      simp only [h, EStateM.Result.ok.injEq]
      constructor
      · rintro ⟨rfl, rfl⟩
        exact ⟨d, ⟨rfl, rfl⟩, h⟩
      · rintro ⟨x, ⟨rfl, rfl⟩, hx⟩
        rw [h] at hx
        exact ⟨rfl, by injection hx⟩
    | error f =>
      simp only [h, EStateM.Result.ok.injEq, reduceCtorEq, false_iff, not_exists]
      rintro x ⟨⟨-, rfl⟩, hx⟩
      rw [h] at hx
      cases hx
  | error e d => cases h : exit d <;> simp [h]

theorem mapM_cons_eq_ok {f : α → Lowering β} {as : List α} {bs : List β} :
    (a :: as).mapM f c = .ok bs c' ↔ ∃ b d rest, f a c = .ok b d ∧ as.mapM f d = .ok rest c' ∧ bs = b :: rest := by
  rw [List.mapM_cons, bind_eq_ok]
  constructor
  · rintro ⟨b, d, hb, h⟩
    obtain ⟨rest, d', hrest, h⟩ := bind_eq_ok.mp h
    obtain ⟨rfl, rfl⟩ := pure_eq_ok.mp h
    exact ⟨b, d, rest, hb, hrest, rfl⟩
  · rintro ⟨b, d, rest, hb, hrest, rfl⟩
    exact ⟨b, d, hb, bind_eq_ok.mpr ⟨rest, c', hrest, pure_eq_ok.mpr ⟨rfl, rfl⟩⟩⟩

/-- Whether a computation succeeds with a result and a state that pass a test. -/
def succeeds (m : Lowering α) (c : Context) (test : α → Context → Bool) : Bool :=
  match m c with
  | .ok a c' => test a c'
  | .error _ _ => false

theorem eq_ok_of_succeeds {m : Lowering α} {test : α → Context → Bool}
    (h : succeeds m c test = true) : ∃ a c', m c = .ok a c' ∧ test a c' = true := by
  unfold succeeds at h
  cases hm : m c with
  | ok a c' =>
    rw [hm] at h
    exact ⟨a, c', rfl, h⟩
  | error f c' =>
    rw [hm] at h
    cases h

end Lowering

end Grf
