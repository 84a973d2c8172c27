import Grf.Proofs.Expr.Folding
import Grf.Proofs.Lowering.Condition

/-! # What assignments do

The records of an assignment leave the value of its expression in the target, and change no other parameter but
temporary ones (`lowerAssignment_computes`). The expression and the number of the target are evaluated in the state
before, as far as they are `Expr.Computable`.
-/

namespace Grf

open Word

/-- The parameters that are neither temporary ones nor the one whose number marks the data. -/
def IsOwn (n : Nat) : Prop := n ≤ 0x3F ∨ 0x80 ≤ n ∧ n ≤ 0xFE

def Operator.IsDivision (op : Operator) : Prop := op = .div ∨ op = .divU ∨ op = .mod ∨ op = .modU

namespace Expr

variable {env : Env} {e : Expr}

/-- The constants of the expression are numbers of 32 bits with or without a sign, the parameters it reads are own ones,
and it neither divides by zero nor shifts by more than 31. -/
def Computable (env : Env) : Expr → Prop
  | const k => -0x80000000 ≤ k ∧ k ≤ 0xFFFFFFFF
  | param number => number.Computable env ∧ ∀ w, number.value? env = some w → IsOwn w.toNat
  | binary op left right => left.Computable env ∧ right.Computable env ∧ ∀ w, right.value? env = some w →
      (op.IsDivision → w ≠ 0) ∧ (op.IsShift → w.toNat ≤ 31)
  | not operand => operand.Computable env
  | var ⟨_, some arg, _, _, _, _, _⟩ => arg.Computable env
  | _ => True
termination_by structural e => e

theorem Computable.negationsFit (h : e.Computable env) : e.NegationsFit := by
  induction e using byParts with
  | const | string | record | bare | store | load => trivial
  | param number ih => exact ih h.1
  | binary op left right ihl ihr => exact ⟨ihl h.1, ihr h.2.1⟩
  | var num arg shift mask add div mod ih => exact ih h
  | not operand ih =>
    refine ⟨ih h, fun c hc hzero => ?_⟩
    rcases fold_eq_const hc with rfl | hfits
    · have hmod : (c % 0x100000000).toNat = 0 := by simpa [ofInt] using congrArg BitVec.toNat hzero
      have hrange : -0x80000000 ≤ c ∧ c ≤ 0xFFFFFFFF := h
      omega
    · exact hfits hzero

theorem Computable.fold (h : e.Computable env) : e.fold.Computable env := by
  have hword : ∀ w : Word, (const w.toInt).Computable env := fun w =>
    ⟨BitVec.le_toInt w, Int.le_of_lt (Int.lt_trans BitVec.toInt_lt (by decide))⟩
  induction e using byParts with
  | const => exact h
  | string | record | bare | store | load => trivial
  | param number ih => exact ⟨ih h.1, fun w hw => h.2 w (value?_fold h.1.negationsFit ▸ hw)⟩
  | binary op left right ihl ihr =>
    refine fold_binary_of ⟨ihl h.1, ihr h.2.1, fun w hw => h.2.2 w ?_⟩ hword
    rwa [value?_fold h.2.1.negationsFit] at hw
  | var num arg shift mask add div mod ih => exact ih h
  | not operand ih =>
    simp only [Expr.fold, foldNot]
    split
    · split
      · exact hword 1
      · exact hword 0
    · exact ih h

theorem Computable.assignFits (h : e.Computable env) : e.AssignFits env := by
  induction e using byParts with
  | const | string | record | bare | store | load | not | var => trivial
  | param number ih =>
    refine ⟨ih h.1, fun w hw => ?_⟩
    have hown := h.2 w hw
    unfold IsOwn at hown
    unfold IsTemporary lowByte AssignRecord.dataSource
    omega
  | binary op left right ihl ihr =>
    refine ⟨ihl h.1, ihr h.2.1, fun hshift w hw => ?_⟩
    have hcount := (h.2.2 w hw).2 hshift
    rw [BitVec.toInt_eq_toNat_cond]
    split <;> omega

end Expr

namespace Lowering

variable {env : Env} {e target value : Expr} {pos : Position} {c c' : Context} {rs : List Record}

open List Grf.Expr

/-- **Whatever steps compute has a value.** -/
theorem Traces.exists_value {purpose : Purpose} {tn : List Expr} {steps : List Step} (h : Traces e purpose tn steps)
    (he : e.Computable env) : ∃ w, e.value? env = some w := by
  induction h with
  | data | const | own | read => exact ⟨_, rfl⟩
  | held _ ih | temporary _ _ ih => exact ih he
  | computedRead _ _ _ _ ih =>
    obtain ⟨w, hw⟩ := ih he.1
    exact ⟨_, by rw [value?, hw]; rfl⟩
  | @combined op code left right _ _ _ _ _ _ _ _ hcode _ _ _ ihl ihr =>
    obtain ⟨x, hx⟩ := ihl he.1
    have hright : ∃ y, right.value? env = some y := by
      by_cases hconst : ∃ k, right = .const k
      · obtain ⟨k, rfl⟩ := hconst
        exact ⟨_, rfl⟩
      have hcount : negatedCount right = .binary .sub (.const 0) right := by
        cases right <;> first | rfl | exact absurd ⟨_, rfl⟩ hconst
      unfold rightOperand at ihr
      split at ihr
      · have hsub : (binary .sub (.const 0) right).Computable env :=
          ⟨⟨by decide, by decide⟩, he.2.1, by simp [Operator.IsDivision, Operator.IsShift]⟩
        obtain ⟨y, hy⟩ := ihr (hcount ▸ hsub)
        rw [value?_negatedCount] at hy
        exact (Option.map_eq_some_iff.mp hy).imp fun _ h => h.1
      · exact ihr he.2.1
    obtain ⟨y, hy⟩ := hright
    have hdivisor := (he.2.2 y hy).1
    simp only [value?_binary_eq_some, hx, hy]
    cases op <;> simp_all [Operator.assignCode?, Operator.tableValue?, Operator.compute?, Operator.IsDivision]

variable {E : Engine} {n : Int} {w : Word} {steps : List Step}

/-- The records have stored `w` in the parameter `n`, and changed no other one but temporary parameters. -/
structure Stores (E : Engine) (rs : List Record) (n : Int) (w : Word) : Prop where
  pending : (E.executeAll rs).pending = []
  stored : (E.executeAll rs).params n = w
  kept : ∀ m, m ≠ n → ¬IsTemporary m → (E.executeAll rs).params m = E.params m

theorem Traces.stores {a : AssignByte} {tn : List Expr} (h : Traces e (.assign a) tn steps)
    (hdistinct : Distinct (targetsOf steps.dropLast)) (hfits : e.AssignFits env) (hw : e.value? env = some w)
    (hpending : E.pending = []) (hsame : E.params.SameOutside env.params)
    (ha : a.numberIn (E.executeAll (planned pos steps.dropLast)).params = n) : Stores E (planned pos steps) n w := by
  have hparams : (E.executeAll (planned pos steps)).params = _ := h.reached hdistinct hfits hw hpending hsame
  obtain ⟨hpend, hkept⟩ := hdistinct.frame hpending pos
  rw [ha] at hparams
  refine ⟨?_, by rw [hparams, Params.set_self], fun m hm htemp => ?_⟩
  · obtain ⟨init, s, rfl, -⟩ := h.exists_last
    rw [dropLast_concat] at hpend
    rw [planned_append, Engine.executeAll_append, show planned pos [s] = s.plan.records pos from append_nil _]
    exact (s.plan.executeAll_records pos hpend).1
  · rw [hparams, Params.set_of_ne _ _ _ hm, hkept m (mt (hdistinct.temporary m) htemp)]

theorem Stores.after (hpending : E.pending = []) (hdistinct : Distinct (targetsOf steps))
    (h : Stores (E.executeAll (planned pos steps)) rs n w) : Stores E (planned pos steps ++ rs) n w := by
  obtain ⟨hend, hstored, hkept⟩ := h
  rw [← Engine.executeAll_append] at hend hstored hkept
  refine ⟨hend, hstored, fun m hm htemp => (hkept m hm htemp).trans ?_⟩
  exact (hdistinct.frame hpending pos).2 m (mt (hdistinct.temporary m) htemp)

theorem DeclaredTraces.exists_values (h : DeclaredTraces target value steps)
    (htarget : target.Computable env) (hvalue : value.Computable env) :
    ∃ n w, target.value? env = some n ∧ value.value? env = some w := by
  cases h with
  | known hknown _ h =>
    obtain ⟨w, hw⟩ := h.exists_value hvalue
    subst hknown
    exact ⟨_, w, rfl, hw⟩
  | computed _ hfirst hsecond =>
    obtain ⟨n, hn⟩ := hfirst.exists_value htarget
    obtain ⟨w, hw⟩ := hsecond.exists_value hvalue
    exact ⟨n, w, hn, hw⟩

/-- **The records of an assignment store the value of its expression** in the parameter that its target numbers. -/
theorem lowerAssignment_stores {n : Word} (hc : c.InRange) (h : lowerAssignment target value pos c = .ok rs c')
    (hpending : E.pending = []) (htarget : target.fold.AssignFits (.ofParams E.params))
    (hvalue : value.fold.AssignFits (.ofParams E.params)) (hn : target.fold.value? (.ofParams E.params) = some n)
    (hw : value.fold.value? (.ofParams E.params) = some w) (hown : IsOwn n.toNat) : Stores E rs n.toNat w := by
  obtain ⟨steps, hsteps, rfl, hfresh⟩ := lowerAssignment_steps h
  have hdistinct := (hfresh hc).1.toDistinct
  cases hsteps with
  | @known num steps hnum hrange h =>
    obtain rfl : ofInt num = n := Option.some.inj (by rwa [hnum] at hn)
    refine h.stores hdistinct hvalue hw hpending (fun _ _ => rfl) ?_
    show num = ((ofInt num).toNat : Int)
    rw [ofInt, BitVec.toNat_ofInt]
    omega
  | @computed tmp first second hconst hfirst hsecond =>
    obtain ⟨init, s, hlast, -⟩ := hsecond.exists_last
    obtain ⟨hfirst', hsecond', hapart⟩ : Distinct (targetsOf first) ∧ Distinct (targetsOf second.dropLast) ∧
        ∀ t ∈ targetsOf first, t ∉ targetsOf second.dropLast := by
      rw [hlast, ← append_assoc, dropLast_concat, targetsOf_append] at hdistinct
      rw [hlast, dropLast_concat]
      exact distinct_append.mp hdistinct
    have hpend := (hfirst'.frame hpending pos).1
    obtain ⟨-, hstable, hread⟩ := hfirst.reached hfirst' htarget hn hpending fun _ _ => rfl
    rw [planned_append]
    refine .after hpending hfirst' (hsecond.stores hsecond' hvalue hw hpend
      (sameOutside_executeAll hfirst' hpending fun _ _ => rfl) ?_)
    -- the number is patched in when the value has been computed, and its parameter has been left alone since
    have hkept := (hsecond'.frame hpend pos).2 tmp (hstable.elim (hapart tmp) (mt (hsecond'.temporary tmp)))
    show Params.byte _ tmp = n.toNat
    rw [Params.byte, Params.read_congr hkept, hread, lowByte]
    unfold IsOwn at hown
    omega

/-- **Assignments compute their values.** Whatever is accepted has a value, and the records store it in the parameter
whose number is the value of the target. Both values are those in the state before. -/
theorem lowerAssignment_computes (hc : c.InRange) (h : lowerAssignment target value pos c = .ok rs c')
    (hpending : E.pending = []) (htarget : target.Computable (.ofParams E.params))
    (hvalue : value.Computable (.ofParams E.params))
    (hwritten : ∀ n, target.value? (.ofParams E.params) = some n → IsOwn n.toNat) :
    ∃ n w, target.value? (.ofParams E.params) = some n ∧ value.value? (.ofParams E.params) = some w ∧
      Stores E rs n.toNat w := by
  obtain ⟨steps, hsteps, -⟩ := lowerAssignment_steps h
  obtain ⟨n, w, hn, hw⟩ := hsteps.exists_values htarget.fold hvalue.fold
  have hown : IsOwn n.toNat := hwritten n (value?_fold htarget.negationsFit ▸ hn)
  refine ⟨n, w, value?_fold htarget.negationsFit ▸ hn, value?_fold hvalue.negationsFit ▸ hw, ?_⟩
  exact lowerAssignment_stores hc h hpending htarget.fold.assignFits hvalue.fold.assignFits hn hw hown

/-- The target is the sum of a parameter and 4, and the value is shifted to the right. It is read from a parameter whose
number is computed. -/
theorem lowerAssignment_computes_nested :
    let target : Expr := .binary .add (.paramAt 1) (.const 4)
    let value : Expr := .binary .shr (.param (.binary .mul (.paramAt 2) (.const 3))) (.const 1)
    ∃ rs c', lowerAssignment target value {} (saveTemps (.create 0 none none)) = .ok rs c' ∧
      Stores { params := ofInt } rs 5 3 := by
  intro target value
  have hok : succeeds (lowerAssignment target value {}) (saveTemps (.create 0 none none)) (fun _ _ => true) = true := by
    decide +kernel
  obtain ⟨rs, c', h, -⟩ := eq_ok_of_succeeds hok
  obtain ⟨n, w, hn, hw, hstores⟩ := lowerAssignment_computes (E := { params := ofInt })
    (saveTemps_inRange (Context.create_inRange 0 none none)) h rfl
    (by simp [target, Expr.Computable, paramAt, value?, IsOwn, Operator.IsDivision, Operator.IsShift, ofInt])
    (by
      simp [value, Expr.Computable, paramAt, value?, IsOwn, Operator.IsDivision, Operator.IsShift, ofInt,
        Operator.tableValue?, Operator.compute?, Params.read, Env.ofParams, SkipCondition.always, lowByte])
    (by
      intro n hn
      cases hn
      exact .inl (by decide))
  cases hn
  cases hw
  exact ⟨rs, c', h, hstores⟩

end Lowering

end Grf
