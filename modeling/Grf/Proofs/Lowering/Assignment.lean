import Grf.Proofs.Engine.Straight
import Grf.Proofs.Expr.Simplify
import Grf.Proofs.Lowering.Frames

/-! # Assignments compute values

The records for an expression assign to fresh temporary parameters only (`Scratch`), and after them the parameter found
by `operandParam` holds its value (`operandParam_spec`), under the conditions of `Expr.AssignFits`. The parameters that
the expression reads are no temporary ones, since these may have been changed before. None of them is the one whose
number marks the data of an assignment. And shift counts are not negative as signed words, since an assignment shifts
into the other direction then.
-/

namespace Grf

open AssignRecord Word Grf.Expr Params

def Operator.IsShift (op : Operator) : Prop := op = .shl ∨ op = .shr ∨ op = .shrU

/-- The conditions under which assignments compute the value of an expression. -/
def Expr.AssignFits (env : Env) : Expr → Prop
  | param number =>
    number.AssignFits env ∧ ∀ w, number.value? env = some w →
      ¬IsTemporary w.lowByte ∧ w.lowByte ≠ AssignRecord.dataSource
  | binary op left right =>
    left.AssignFits env ∧ right.AssignFits env ∧
      (op.IsShift → ∀ w, right.value? env = some w → 0 ≤ w.toInt)
  | _ => True
termination_by structural e => e

/-- Two states that agree on all parameters but the temporary ones. -/
def Params.SameOutside (p q : Params) : Prop := ∀ n, ¬IsTemporary n → p n = q n

namespace AssignRecord

variable {op : Operator} {code : Nat} {l r w : Word}

theorem toNat_toInt (h : 0 ≤ r.toInt) : r.toInt.toNat = r.toNat := by
  rw [BitVec.toInt_eq_toNat_cond] at h ⊢
  split at h <;> split <;> omega

theorem compute_eq (hcode : op.assignCode? = some code) (hright : ¬(op = .shr ∨ op = .shrU))
    (h : op.tableValue? l r = some w) (hshift : op.IsShift → 0 ≤ r.toInt) : compute code l r = w := by
  have hdiv : ∀ {x : Word}, (if r = 0 then none else some x) = some w → x = w := by
    intro x hx
    split at hx
    · cases hx
    · exact Option.some.inj hx
  cases op <;> simp only [Operator.assignCode?, Option.some.injEq, reduceCtorEq] at hcode
  all_goals subst hcode
  case add | sub | mul | and | or => exact Option.some.inj h
  case div | divU | mod | modU => exact hdiv h
  case shr | shrU => simp at hright
  case shl =>
    have h0 : 0 ≤ r.toInt := hshift (.inl rfl)
    show shiftBy _ l r = w
    rw [shiftBy, if_pos h0, toNat_toInt h0]
    exact Option.some.inj h

theorem shiftBy_neg (right : Word → Nat → Word) (hzero : right l 0 = l) (h : 0 ≤ r.toInt) :
    shiftBy right l (-r) = right l (r.toNat % 32) := by
  have hneg : (-r).toInt = -r.toInt := by
    rw [BitVec.toInt_neg]
    have hlt : r.toInt < 0x80000000 := BitVec.toInt_lt
    exact Int.bmod_eq_of_le (by omega) (by omega)
  have hnat := toNat_toInt h
  unfold shiftBy
  rw [hneg]
  by_cases hr : r.toInt = 0
  · have hr' : r.toNat = 0 := by omega
    rw [hr, if_pos (by omega), hr']
    simpa using hzero.symm
  · rw [if_neg (by omega), Int.neg_neg, hnat]

theorem compute_shr (hcode : op.assignCode? = some code) (hright : op = .shr ∨ op = .shrU)
    (h : op.tableValue? l r = some w) (h0 : 0 ≤ r.toInt) : compute code l (-r) = w := by
  rcases hright with rfl | rfl
  · cases hcode
    exact (shiftBy_neg _ (by simp) h0).trans (Option.some.inj h)
  · cases hcode
    exact (shiftBy_neg _ (by simp) h0).trans (Option.some.inj h)

end AssignRecord

namespace Lowering

variable {env : Env} {c c' d : Context} {e l number r : Expr} {pos : Position} {rs : List Record}
  {E : Engine} {n num target : Int} {w : Word} {op : Operator} {code : Nat}

/-! ## Scratch computations -/

/-- Records that assign to temporary parameters which are not in use in the state `c`, and to nothing
else. -/
def Scratch (c : Context) (rs : List Record) : Prop :=
  Straight (fun t => IsTemporary t ∧ t ∉ c.tempParams.inUse) False rs

/-! ## Operands -/

/-- After the records `rs` the parameter `n` holds `w`, and the lowering that goes on in the state `c`
leaves it alone. -/
structure HeldBy (env : Env) (c : Context) (rs : List Record) (n : Int) (w : Word) : Prop where
  stable : n ∈ c.tempParams.inUse ∨ ¬IsTemporary n
  notData : n ≠ AssignRecord.dataSource
  value : ∀ E : Engine, E.pending = [] → E.params.SameOutside env.params → (E.executeAll rs).params.read n = w

/-- After the records `rs` the parameter `n` holds the value of `e`, and goes on to do so from the state `c` on. -/
def HeldAfter (c : Context) (rs : List Record) (n : Int) (e : Expr) : Prop :=
  ∀ env w, e.AssignFits env → e.value? env = some w → HeldBy env c rs n w

theorem checkParamNumber_bind_eq_ok {α : Type} {a : α} {f : Unit → Lowering α}
    (h : (checkParamNumber num pos >>= f) c = .ok a c') : 0 ≤ num ∧ num ≤ 0xFF ∧ f () c = .ok a c' := by
  obtain ⟨hrange, h⟩ := failIf_bind_eq_ok.mp h
  grind

theorem paramNumber?_eq_some : e.paramNumber? = some num ↔ e = paramAt num := by
  unfold paramNumber? paramAt
  split <;> simp_all

theorem value?_binary_eq_some : (binary op l r).value? env = some w ↔
      ∃ x, l.value? env = some x ∧ ∃ y, r.value? env = some y ∧ op.tableValue? x y = some w := by
  rw [value?_binary, Option.bind_eq_some_iff]
  simp only [Option.bind_eq_some_iff]

def negatedCount : Expr → Expr
  | .const k => .const (wrap64 (-k))
  | count => .binary .sub (.const 0) count

theorem assignFits_negatedCount : (negatedCount r).AssignFits env ↔ r.AssignFits env := by
  cases r <;> simp [negatedCount, Expr.AssignFits, Operator.IsShift]

theorem value?_negatedCount : (negatedCount r).value? env = (r.value? env).map (- ·) := by
  have hsub : (binary .sub (.const 0) r).value? env = (r.value? env).map (- ·) := by
    rw [value?_binary]
    cases r.value? env with
    | none => rfl
    | some y => exact congrArg some (BitVec.zero_sub y)
  cases r with
  | const k => simp [negatedCount, value?, ofInt_wrap64, ofInt_neg]
  | _ => exact hsub

/-- The right operand of an assignment: a right shift takes the negated count. -/
def rightOperand (op : Operator) (right : Expr) : Expr :=
  if op = .shr ∨ op = .shrU then negatedCount right else right

theorem exists_operands (hcode : op.assignCode? = some code)
    (hfits : (binary op l r).AssignFits env) (hw : (binary op l r).value? env = some w) :
    ∃ x y, l.value? env = some x ∧ (rightOperand op r).AssignFits env ∧
      (rightOperand op r).value? env = some y ∧ compute code x y = w := by
  obtain ⟨-, hr, hshift⟩ := hfits
  obtain ⟨x, hx, y, hy, hw⟩ := value?_binary_eq_some.mp hw
  unfold rightOperand
  split
  · rename_i hright
    have h0 : 0 ≤ y.toInt := hshift (.inr hright) y hy
    exact ⟨x, -y, hx, assignFits_negatedCount.mpr hr, by simp [value?_negatedCount, hy], compute_shr hcode hright hw h0⟩
  · rename_i hright
    exact ⟨x, y, hx, hr, hy, compute_eq hcode hright hw fun h => hshift h y hy⟩

/-! ### The cases of an assignment -/

theorem assign_param (h : ¬∃ num, number = .const num) : assign pos (.param number) = fun target => do
      let (before, tmp) ← holding number pos (assign pos number)
      return {
        before
        assignment := { target }
        patches := [{ param := tmp, size := 1, offset := src1Offset }] } := by
  cases number <;> first | rfl | exact absurd ⟨_, rfl⟩ h

theorem lowerAssignment_computed {target value : Expr} (h : ¬∃ num, target.fold = .const num) :
    lowerAssignment target value pos = (do
      let (before, tmp) ← operandParam target.fold pos
      let assigned ← assign pos value.fold 0
      let patch : Patch := { param := tmp, size := 1, offset := targetOffset }
      return before ++ { assigned with patches := patch :: assigned.patches }.records pos) := by
  unfold lowerAssignment
  cases hfold : target.fold <;> first | rfl | exact absurd ⟨_, hfold⟩ h

/-- Properties `A` of assignments of an expression, `H` of finding a parameter that holds it, and `S` of finding
a source for it, which are kept when these are made of one another. The data is no source if it is `used`. -/
structure Assembly (pos : Position) (A : Expr → (Int → Lowering Assigned) → Prop)
    (H : Expr → Lowering (List Record × Int) → Prop)
    (S : Expr → Bool → Lowering (List Record × Int × Option Int) → Prop) : Prop where
  fail : ∀ {e kind message}, A e fun _ => Lowering.fail kind pos message
  const : ∀ k, A (.const k) fun target =>
    return { before := [], assignment := { target, src1 := AssignRecord.dataSource, data := k } }
  read : ∀ n, A (.paramAt n) fun target => do
    checkParamNumber n pos
    return { before := [], assignment := { target, src1 := n } }
  computedRead : ∀ {number m}, (¬∃ k, number = .const k) → H number m → A (.param number) fun target => do
    let (before, tmp) ← m
    return {
      before
      assignment := { target }
      patches := [{ param := tmp, size := 1, offset := AssignRecord.src1Offset }] }
  combined : ∀ {op code left right first second}, op.assignCode? = some code → S left false first →
    (∀ used, S (rightOperand op right) used (second used)) →
      A (.binary op left right) fun target => Lowering.combined target code first second
  hold : ∀ {e f}, A e f → H e (holding e pos f)
  data : ∀ k, S (.const k) false (return ([], AssignRecord.dataSource, some k))
  noSource : ∀ {e used kind message}, S e used (Lowering.fail kind pos message)
  held : ∀ {e used m}, (∀ k, e = .const k → used = true) → H e m → S e used (m >>= fun x => return (x.1, x.2, none))

namespace Assembly

variable {A : Expr → (Int → Lowering Assigned) → Prop} {H : Expr → Lowering (List Record × Int) → Prop}
  {S : Expr → Bool → Lowering (List Record × Int × Option Int) → Prop}

theorem source (h : Assembly pos A H S) (hf : A e f) (used : Bool) : S e used (source e pos used f) := by
  unfold Lowering.source
  grind [h.data, h.held, h.hold, h.noSource]

/-- **What is kept holds of every assignment.** -/
theorem assign (h : Assembly pos A H S) (e : Expr) : A e (assign pos e) := by
  induction e using byParts with
  | const k => exact h.const k
  | string | record | not | bare | var | store | load => exact h.fail
  | param number ih =>
    by_cases hconst : ∃ num, number = .const num
    · obtain ⟨num, rfl⟩ := hconst
      exact h.read num
    · rw [assign_param hconst]
      exact h.computedRead hconst (h.hold ih)
  | binary op left right ihl ihr =>
    cases hcode : op.assignCode? with
    | none =>
      simp only [Lowering.assign, hcode]
      exact h.fail
    | some code =>
      simp only [Lowering.assign, hcode]
      refine h.combined hcode (h.source ihl false) fun used => ?_
      unfold rightOperand
      split
      · have hsub : A (.binary .sub (.const 0) right) fun tmp =>
            Lowering.combined tmp 0x02 (return ([], dataSource, some 0)) fun used =>
              Lowering.source right pos used (Lowering.assign pos right) :=
          h.combined rfl (h.data 0) (h.source ihr)
        cases right with
        | const k => exact h.source (h.const _) used
        | _ => exact h.source hsub used
      · exact h.source ihr used

end Assembly

end Lowering

end Grf
