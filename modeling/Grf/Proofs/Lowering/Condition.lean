import Grf.Proofs.Lowering.Plan

/-! # Conditions and their tests

`Expr.isTrue?` is the truth of a condition in a state of the parameters. Its constant parts are folded first, then
numbers are compared without a sign, as the skips do it, and what is no comparison is true unless it is zero. A skip
leaves records out, so after the records which compute a condition the test is true exactly if the condition is false
(`lowerCondition_spec`). A condition decided beforehand has no other truth value (`isTrue?_of_constantCondition?`).
-/

namespace Grf

open SkipCondition Comparison Word Option Operator Grf.Expr

/-! ## Truth -/

/-- Whether an operator holds between two words. Comparisons are without a sign, other operators are
true if their value is not zero. -/
def Operator.test? (op : Operator) (l r : Word) : Option Bool :=
  match op with
  | eq => some (l == r)
  | ne => some (l != r)
  | lt => some (l.ult r)
  | le => some (l.ule r)
  | gt => some (r.ult l)
  | ge => some (r.ule l)
  | hasBit => some (l.getLsbD r.toNat)
  | notHasBit => some (!l.getLsbD r.toNat)
  | op => (op.tableValue? l r).map (· != 0)

def Env.ofParams (p : Params) : Env := ⟨fun _ _ => 0, p, fun _ => 0, fun _ => 0⟩

variable {op : Operator} {l r cond : Expr} {b b' : Bool} {p : Params} {n : Int}

namespace Expr

def truth? (env : Env) : Expr → Option Bool
  | const v => some (v ≠ 0)
  | not operand => (operand.value? env).map (· == 0)
  | binary op left right => (left.value? env).bind fun l => (right.value? env).bind fun r => op.test? l r
  | e => (e.value? env).map (· != 0)

def isTrue? (cond : Expr) (p : Params) : Option Bool := cond.fold.truth? (.ofParams p)

/-- The conditions under which the value of an operand is found in a parameter. One that is tested where
it is may also be the parameter whose number marks data. -/
def OperandFits (env : Env) : Expr → Prop
  | param (const n) => ¬IsTemporary n
  | e => e.AssignFits env

def TestFits (env : Env) : Expr → Prop
  | not operand => operand.OperandFits env
  | e@(binary op left right) =>
    match Comparison.ofBinary? op left right with
    | some c => c.left.OperandFits env
    | none => if op = .hasBit ∨ op = .notHasBit then left.OperandFits env else e.AssignFits env
  | e => e.OperandFits env

/-- Whether a condition can be tested in a state of the parameters: it reads no temporary parameter, and
what has to be computed for it fits into assignments. -/
def CanTest (cond : Expr) (p : Params) : Prop := cond.fold.TestFits (.ofParams p)

end Expr

/-! ## What a condition asks -/

/-- A folded condition that is a test of one operand, and for which words it is true. -/
inductive Expr.Asks : Expr → Expr → (Word → Bool) → Prop
  | value {e : Expr} (hvalue : e.isValue = true) (hconst : e.constant? = none) : Asks e e (· != 0)
  | computed {op : Operator} {code : Nat} (hcode : op.assignCode? = some code) (l r : Expr) :
      Asks (.binary op l r) (.binary op l r) (· != 0)
  | not (e : Expr) : Asks (.not e) e (· == 0)
  | bit {op : Operator} (hop : op = .hasBit ∨ op = .notHasBit) (e : Expr) (k : Int) :
      Asks (.binary op e (.const k)) e fun x => op.test? x (Word.ofInt k) == some true
  | right {op : Operator} (hop : op.isComparison = true) (e : Expr) (k : Int) :
      Asks (.binary op e (.const k)) e fun x => op.test? x (Word.ofInt k) == some true
  | left {op : Operator} (hop : op.isComparison = true) (k : Int) (e : Expr) :
      Asks (.binary op (.const k) e) e fun x => op.test? (Word.ofInt k) x == some true

theorem Operator.test?_of_assignCode? {k : Nat} (h : op.assignCode? = some k) (x y : Word) :
    op.test? x y = (op.tableValue? x y).map (· != 0) := by
  cases op <;> first | rfl | cases h

theorem Operator.test?_eq_some (h : op.isComparison = true ∨ op = .hasBit ∨ op = .notHasBit)
    (x y : Word) : op.test? x y = some (op.test? x y == some true) := by
  have hbool : ∀ b : Bool, some b = some (some b == some true) := by decide
  cases op <;> first | exact hbool _ | simp [isComparison] at h

namespace Expr.Asks

variable {cond e : Expr} {asks : Word → Bool} {env : Env}

theorem truth?_eq (h : cond.Asks e asks) : cond.truth? env = (e.value? env).map asks := by
  have hconst : ∀ k, (const k).value? env = some (ofInt k) := fun _ => rfl
  cases h with
  | value hvalue hconst => cases cond <;> first | rfl | simp [isValue, constant?] at hvalue hconst
  | not => rfl
  | computed hcode =>
    simp only [truth?, value?_binary, test?_of_assignCode? hcode, Option.map_bind, Function.comp_def]
  | bit hop =>
    rw [truth?, hconst, map_eq_bind]
    exact congrArg _ (funext fun x => test?_eq_some (.inr hop) x _)
  | right hop =>
    rw [truth?, hconst, map_eq_bind]
    exact congrArg _ (funext fun x => test?_eq_some (.inl hop) x _)
  | left hop =>
    rw [truth?, hconst, bind_some, map_eq_bind]
    exact congrArg _ (funext fun x => test?_eq_some (.inl hop) _ x)

theorem fold_eq (h : cond.Asks e asks) (hfold : cond.fold = cond) : e.fold = e := by
  cases h with
  | value | computed => exact hfold
  | not => exact fold_not_eq hfold
  | bit | right => exact (fold_binary_eq hfold).1
  | left => exact (fold_binary_eq hfold).2

end Expr.Asks

namespace Comparison

variable {op : Operator} {l r : Expr} {c : Comparison} {b : Bool}

theorem test?_flipped (h : op.isComparison = true) (x y : Word) : (flipped op).test? y x = op.test? x y := by
  cases op
  case eq => exact congrArg some BEq.comm
  case ne => exact congrArg some bne_comm
  case lt | le | gt | ge => rfl
  all_goals exact absurd h (by decide)

theorem asks_of_ofBinary? (h : ofBinary? op l r = some c) :
    c.op.isComparison = true ∧ ∃ asks, (binary op l r).Asks c.left asks ∧
      ∀ x, c.op.test? x c.value = some (asks x) := by
  unfold ofBinary? at h
  split at h
  · cases h
  · rename_i hop
    replace hop : op.isComparison = true := by simpa using hop
    split at h
    · cases h
    · rename_i k hl _
      obtain rfl := Option.some.inj h
      obtain rfl := constant?_eq_some.mp hl
      refine ⟨by cases op <;> first | rfl | exact hop, _, .left hop k r, fun x => ?_⟩
      exact (test?_flipped hop _ x).trans (test?_eq_some (.inl hop) _ x)
    · rename_i k _ hr
      obtain rfl := Option.some.inj h
      obtain rfl := constant?_eq_some.mp hr
      exact ⟨hop, _, .right hop l k, fun x => test?_eq_some (.inl hop) x _⟩
    · cases h

theorem test?_of_constant? {x : Word} (h : c.constant? = some b) (hx : c.op.test? x c.value = some b') : b' = b := by
  obtain ⟨op, left, value⟩ := c
  have hmax : ¬maxWord.toNat < x.toNat := by
    show ¬0xFFFFFFFF < x.toNat
    omega
  unfold constant? at h
  split_ifs at h with h1 h2 h3 h4
  · obtain ⟨rfl, rfl⟩ := h1
    obtain rfl := Option.some.inj h
    exact (Option.some.inj hx).symm.trans (by simp [BitVec.ult])
  · obtain ⟨rfl, rfl⟩ := h2
    obtain rfl := Option.some.inj h
    exact (Option.some.inj hx).symm.trans (by simpa [BitVec.ult] using hmax)
  · obtain ⟨rfl, rfl⟩ := h3
    obtain rfl := Option.some.inj h
    exact (Option.some.inj hx).symm.trans (by simp [BitVec.ule])
  · obtain ⟨rfl, rfl⟩ := h4
    obtain rfl := Option.some.inj h
    exact (Option.some.inj hx).symm.trans (by simpa [BitVec.ule] using hmax)

theorem toNat_ne_of_lt {left : Expr} {value : Word} (h : constant? ⟨.lt, left, value⟩ = none) : value.toNat ≠ 0 := by
  intro hzero
  obtain rfl : value = 0 := BitVec.eq_of_toNat_eq hzero
  simp [constant?] at h

theorem toNat_ne_of_gt {left : Expr} {value : Word} (h : constant? ⟨.gt, left, value⟩ = none) :
    value.toNat ≠ 0xFFFFFFFF := by
  intro hmax
  obtain rfl : value = maxWord := BitVec.eq_of_toNat_eq hmax
  simp [constant?] at h

theorem holds_word (p : Params) (n value : Int) : holds ⟨n, 4, equal, value⟩ p = (p.read n == ofInt value) ∧
    holds ⟨n, 4, notEqual, value⟩ p = (p.read n != ofInt value) ∧
    holds ⟨n, 4, less, value⟩ p = (p.read n).ult (ofInt value) ∧
    holds ⟨n, 4, greater, value⟩ p = (ofInt value).ult (p.read n) := by
  have hmask : p.read n &&& ofInt (VarRead.fullMask 4) = p.read n := by
    rw [ofInt_fullMask, BitVec.and_allOnes]
  simp only [holds, hmask]
  exact ⟨rfl, rfl, rfl, rfl⟩

/-- The test of a comparison is true exactly if the comparison is false. A number next to the constant is
written for two of the operators, it is a word since the comparison is not decided beforehand. -/
theorem holds_negation (hop : c.op.isComparison = true)
    (hconst : c.constant? = none) (hb : c.op.test? (p.read n) c.value = some b) :
    holds ⟨n, 4, c.negation.1, c.negation.2⟩ p = !b := by
  obtain ⟨op, left, value⟩ := c
  have hword : ofInt (value.toNat : Int) = value := ofInt_toNat value
  cases op
  case eq =>
    obtain rfl := Option.some.inj hb
    exact ((holds_word p n value.toNat).2.1).trans (by rw [hword]; rfl)
  case ne =>
    obtain rfl := Option.some.inj hb
    exact ((holds_word p n value.toNat).1).trans (by rw [hword, bne, Bool.not_not])
  case le =>
    obtain rfl := Option.some.inj hb
    exact ((holds_word p n value.toNat).2.2.2).trans (by
      rw [hword, BitVec.ule_eq_not_ult, Bool.not_not])
  case ge =>
    obtain rfl := Option.some.inj hb
    exact ((holds_word p n value.toNat).2.2.1).trans (by
      rw [hword, BitVec.ule_eq_not_ult, Bool.not_not])
  case lt =>
    obtain rfl := Option.some.inj hb
    have hpos := toNat_ne_of_lt hconst
    have hnext : (ofInt ((value.toNat : Int) - 1)).toNat = value.toNat - 1 := by
      rw [toNat_ofInt_of_lt (by omega) (by omega)]
      omega
    refine ((holds_word p n (value.toNat - 1)).2.2.2).trans ?_
    simp only [BitVec.ult, hnext, ← decide_not, decide_eq_decide]
    omega
  case gt =>
    obtain rfl := Option.some.inj hb
    have hmax := toNat_ne_of_gt hconst
    have hnext : (ofInt ((value.toNat : Int) + 1)).toNat = value.toNat + 1 := by
      rw [toNat_ofInt_of_lt (by omega) (by omega)]
      omega
    refine ((holds_word p n (value.toNat + 1)).2.2.1).trans ?_
    simp only [BitVec.ult, hnext, ← decide_not, decide_eq_decide]
    omega
  all_goals cases hop

theorem negation_bounds (hop : c.op.isComparison = true) (hconst : c.constant? = none) :
    0 ≤ c.negation.2 ∧ c.negation.2 ≤ 0xFFFFFFFF := by
  obtain ⟨op, left, value⟩ := c
  cases op
  case eq | ne | le | ge => exact ⟨Int.natCast_nonneg _, by show (value.toNat : Int) ≤ _; omega⟩
  case lt =>
    have hpos := toNat_ne_of_lt hconst
    exact ⟨by show 0 ≤ (value.toNat : Int) - 1; omega, by show (value.toNat : Int) - 1 ≤ _; omega⟩
  case gt =>
    have hmax := toNat_ne_of_gt hconst
    exact ⟨by show 0 ≤ (value.toNat : Int) + 1; omega, by show (value.toNat : Int) + 1 ≤ _; omega⟩
  all_goals cases hop

end Comparison

theorem isTrue?_of_constantCondition?
    (h : constantCondition? cond = some b) (hb : cond.isTrue? p = some b') : b' = b := by
  unfold constantCondition? at h
  unfold isTrue? at hb
  cases he : cond.fold with
  | const v =>
    rw [he] at h hb
    exact Option.some.inj (hb.symm.trans h)
  | binary op left right =>
    rw [he] at h hb
    obtain ⟨c, hc, hconst⟩ := bind_eq_some_iff.mp h
    obtain ⟨-, asks, hasks, htest⟩ := asks_of_ofBinary? hc
    rw [hasks.truth?_eq, map_eq_some_iff] at hb
    obtain ⟨x, -, rfl⟩ := hb
    exact test?_of_constant? hconst (htest x)
  | _ =>
    rw [he] at h
    cases h

namespace Lowering

variable {c c' : Context} {pos : Position} {before : List Record} {test : SkipCondition}

/-! ## The records of a condition -/

theorem operandParam_read {e : Expr} (hc : c.InRange) (hfold : e.fold = e)
    (h : operandParam e pos c = .ok (before, n) c') :
    c.Extends c' ∧ Scratch c before ∧
      ∀ env w, e.OperandFits env → e.value? env = some w → ∀ E : Engine, E.pending = [] →
        E.params.SameOutside env.params → (E.executeAll before).params.read n = w := by
  obtain ⟨hext, hscratch, -, hheld⟩ := operandParam_spec hc h
  rw [hfold] at hheld
  refine ⟨hext, hscratch, fun env w hfits hw E hpending hsame => ?_⟩
  by_cases hdirect : ∃ num, e = .paramAt num
  · -- the parameter is tested where it is
    obtain ⟨num, rfl⟩ := hdirect
    obtain ⟨h0, h1, h⟩ := checkParamNumber_bind_eq_ok h
    obtain ⟨⟨⟩, rfl⟩ := pure_eq_ok.mp h
    have hread : env.params.read (ofInt n).lowByte = w := Option.some.inj hw
    rw [lowByte_ofInt h0 h1] at hread
    rw [← hread]
    exact Params.read_congr (hsame n hfits)
  · have hfits' : e.AssignFits env := by
      unfold Expr.OperandFits at hfits
      split at hfits
      · exact absurd ⟨_, rfl⟩ hdirect
      · exact hfits
    exact (hheld env w hfits' hw).value E hpending hsame

theorem assignCode?_of_testOf {size code value : Int} (hfold : (binary op l r).fold = .binary op l r)
    (h : testOf (.binary op l r) size code value pos c = .ok (before, test) c') : ∃ k, op.assignCode? = some k := by
  obtain ⟨⟨records, n⟩, d, hparam, -⟩ := bind_eq_ok.mp h
  unfold operandParam at hparam
  rw [hfold] at hparam
  obtain ⟨t, d', -, hparam⟩ := bind_eq_ok.mp hparam
  obtain ⟨a, d'', hassign, -⟩ := bind_eq_ok.mp hparam
  cases hcode : op.assignCode? with
  | none => simp [assign, hcode] at hassign
  | some k => exact ⟨k, rfl⟩

/-- The records `before` and the test `test` stand for the condition `cond`: after them the test is true
exactly if the condition was false before them. -/
structure Tests (c : Context) (cond : Expr) (before : List Record) (test : SkipCondition) : Prop where
  scratch : Scratch c before
  holds : ∀ (E : Engine) b, E.pending = [] → cond.CanTest E.params → cond.isTrue? E.params = some b →
    test.holds (E.executeAll before).params = !b

/-- The records find the operand that a condition asks about, and the test of it is true for the other words. -/
def AskedOf (cond : Expr) (pos : Position) (c c' : Context) (before : List Record) (test : SkipCondition) : Prop :=
  ∃ e asks, cond.Asks e asks ∧ (∀ env, cond.TestFits env → e.OperandFits env) ∧
    operandParam e pos c = .ok (before, test.param) c' ∧ (∀ p : Params, test.holds p = !asks (p.read test.param)) ∧
    0 ≤ test.value ∧ test.value ≤ VarRead.fullMask test.size ∧ (test.size = 1 → test.value ≤ 31)

theorem lowerCondition_asks (hconst : constantCondition? cond = none)
    (h : lowerCondition cond pos c = .ok (before, test) c') : AskedOf cond.fold pos c c' before test := by
  have hfold : cond.fold.fold = cond.fold := fold_fold cond
  unfold lowerCondition at h
  unfold constantCondition? at hconst
  -- the test of an operand, once it is known what is asked
  have ofTest : ∀ {cond' e : Expr} {asks : Word → Bool} {size code value : Int}, cond'.Asks e asks →
      (∀ env, cond'.TestFits env → e.OperandFits env) →
      testOf e size code value pos c = .ok (before, test) c' →
      (∀ (p : Params) n, holds ⟨n, size, code, value⟩ p = !asks (p.read n)) →
      0 ≤ value ∧ value ≤ VarRead.fullMask size ∧ (size = 1 → value ≤ 31) → AskedOf cond' pos c c' before test := by
    intro cond' e asks size code value hasks hfits htest hholds hbounds
    obtain ⟨⟨records, n⟩, hparam, ⟨⟩⟩ := bind_pure_eq_ok.mp htest
    exact ⟨e, asks, hasks, hfits, hparam, fun p => hholds p n, hbounds⟩
  have hzero : ∀ (p : Params) n, holds ⟨n, 4, equal, 0⟩ p = !(p.read n != 0) := by
    intro p n
    rw [(holds_word p n 0).1, bne, Bool.not_not]
    rfl
  have hbounds : (0 : Int) ≤ 0 ∧ (0 : Int) ≤ VarRead.fullMask 4 ∧ ((4 : Int) = 1 → (0 : Int) ≤ 31) := by decide
  cases he : cond.fold with
  | const v =>
    rw [he] at hconst
    cases hconst
  | not operand =>
    rw [he] at h
    exact ofTest (.not operand) (fun _ h => h) h (fun p n => (holds_word p n 0).2.1) hbounds
  | binary op left right =>
    rw [he] at h hfold hconst
    by_cases hbit : op = .hasBit ∨ op = .notHasBit
    · have hnone : ofBinary? op left right = none := by
        rcases hbit with rfl | rfl <;> rfl
      simp only [if_pos hbit] at h
      by_cases hright : ∃ bit, right = .const bit
      · obtain ⟨bit, rfl⟩ := hright
        obtain ⟨hrange, h⟩ := failIf_bind_eq_ok.mp h
        simp only [Bool.or_eq_false_iff, decide_eq_false_iff_not] at hrange
        have hnat : (ofInt bit).toNat = bit.toNat := toNat_ofInt_of_lt (by omega) (by omega)
        refine ofTest (.bit hbit left bit) (fun env hfits => ?_) h (fun p n => ?_)
          ⟨by omega, by show bit ≤ 0xFF; omega, fun _ => by omega⟩
        · simpa only [Expr.TestFits, hnone, if_pos hbit] using hfits
        · rcases hbit with rfl | rfl
          · simp [holds, bitSet, bitClear, test?, hnat]
          · simp [holds, bitSet, test?, hnat]
      · have hzero : testOf (.binary op left right) 4 equal 0 pos c = .ok (before, test) c' := by
          cases right <;> first | exact h | exact absurd ⟨_, rfl⟩ hright
        obtain ⟨k, hk⟩ := assignCode?_of_testOf hfold hzero
        rcases hbit with rfl | rfl <;> cases hk
    · simp only [if_neg hbit] at h
      cases hcomp : ofBinary? op left right with
      | some cmp =>
        rw [hcomp] at h
        have hopen : cmp.constant? = none := by
          grind
        obtain ⟨hop, asks, hasks, htest⟩ := asks_of_ofBinary? hcomp
        obtain ⟨h0, h1⟩ := negation_bounds hop hopen
        refine ofTest hasks (fun env hfits => ?_) h
          (fun p n => holds_negation hop hopen (htest _)) ⟨h0, h1, fun h => absurd h (by decide)⟩
        simpa only [Expr.TestFits, hcomp] using hfits
      | none =>
        rw [hcomp] at h
        obtain ⟨k, hk⟩ := assignCode?_of_testOf hfold h
        refine ofTest (.computed hk left right) (fun env hfits => ?_) h hzero hbounds
        simpa only [Expr.TestFits, hcomp, if_neg hbit, Expr.OperandFits] using hfits
  | param _ | string _ _ | record _ _ | var _ | store _ | load _ =>
    rw [he] at h
    exact ofTest (.value rfl rfl) (fun _ hfits => hfits) h hzero hbounds

/-- **A condition is tested by its negation.** -/
theorem lowerCondition_spec (hc : c.InRange) (hconst : constantCondition? cond = none)
    (h : lowerCondition cond pos c = .ok (before, test) c') : c.Extends c' ∧ Tests c cond before test := by
  obtain ⟨e, asks, hasks, hfits, hparam, hholds, -⟩ := lowerCondition_asks hconst h
  obtain ⟨hext, hscratch, hread⟩ := operandParam_read hc (hasks.fold_eq (fold_fold cond)) hparam
  refine ⟨hext, hscratch, fun E b hpending hcan htrue => ?_⟩
  unfold isTrue? at htrue
  rw [hasks.truth?_eq, map_eq_some_iff] at htrue
  obtain ⟨w, hw, rfl⟩ := htrue
  rw [hholds, hread _ w (hfits _ hcan) hw E hpending fun _ _ => rfl]

/-- **A skip tests the exact negation of its condition.** A condition that is not decided beforehand asks
for some words of one operand. The test is made of the parameter in which the operand is found, it is true
for all other words, and its number can be written in the bytes that are compared. -/
theorem lowerCondition_negates {cond : Expr} (hconst : constantCondition? cond = none)
    (h : lowerCondition cond pos c = .ok (before, test) c') :
    ∃ e asks, cond.fold.Asks e asks ∧ (∀ env, cond.fold.truth? env = (e.value? env).map asks) ∧
      operandParam e pos c = .ok (before, test.param) c' ∧
      (∀ p : Params, test.holds p = !asks (p.read test.param)) ∧
      0 ≤ test.value ∧ test.value ≤ VarRead.fullMask test.size ∧ (test.size = 1 → test.value ≤ 31) := by
  obtain ⟨e, asks, hasks, -, hrest⟩ := lowerCondition_asks hconst h
  exact ⟨e, asks, hasks, fun _ => hasks.truth?_eq, hrest⟩

/-- The constant may be negative and stand on the left: `-1 > param[1] + 1`. -/
theorem lowerCondition_negates_mirrored :
    let cond : Expr := .binary .gt (.const (-1)) (.binary .add (.paramAt 1) (.const 1))
    constantCondition? cond = none ∧
      ∃ before test c', lowerCondition cond {} (enterConditional (.create 0 none none)) = .ok (before, test) c' ∧
        test = ⟨0x40, 4, SkipCondition.greater, 0xFFFFFFFE⟩ ∧
        ∃ e asks, cond.fold.Asks e asks ∧ ∀ p : Params, test.holds p = !asks (p.read test.param) := by
  intro cond
  have hok : succeeds (lowerCondition cond {}) (enterConditional (.create 0 none none))
      (fun x _ => decide (x.2 = ⟨0x40, 4, SkipCondition.greater, 0xFFFFFFFE⟩)) = true := by decide +kernel
  obtain ⟨⟨before, test⟩, c', h, htest⟩ := eq_ok_of_succeeds hok
  have hconst : constantCondition? cond = none := by decide +kernel
  obtain ⟨e, asks, hasks, -, -, hholds, -⟩ := lowerCondition_negates hconst h
  exact ⟨hconst, before, test, c', h, of_decide_eq_true htest, e, asks, hasks, hholds⟩

end Lowering

end Grf
