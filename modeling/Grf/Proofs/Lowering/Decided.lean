import Grf.Proofs.Expr.Folding
import Grf.Proofs.Lowering.Condition

/-! # Conditions that are decided beforehand

A condition is decided when it is lowered, or it is tested when the file is loaded. The tests compare without a sign,
while constants are compared with a sign when they are folded, and count as numbers of 64 bits where they are negated
or are the condition itself. Nothing else makes a difference (`constantCondition?_truth`).
-/

namespace Grf

open Word

namespace Operator

variable {op : Operator}

def IsOrdered (op : Operator) : Prop := op = lt ∨ op = le ∨ op = gt ∨ op = ge

instance : DecidablePred IsOrdered := fun op => inferInstanceAs (Decidable (op = lt ∨ _))

/-- The value of an operator that compares without a sign. What cannot be computed beforehand is `undefined`. -/
def unsigned (undefined : Operator → Word → Word → Word) (op : Operator) (l r : Word) : Word :=
  if op.isComparison then Word.ofBool (op.test? l r == some true) else (op.compute? l r).getD (undefined op l r)

theorem compute?_comparison (h : op.isComparison = true) (x y : Word) :
    op.compute? x y = some (ofBool ((decide op.IsOrdered && x.msb != y.msb) ^^ (op.test? x y == some true))) := by
  have hbool : ∀ b : Bool, (some b == some true) = b := by decide
  have hsle : ∀ x y : Word, x.sle y = ((x.msb != y.msb) ^^ x.ule y) := by
    intro x y
    rw [BitVec.sle_eq_not_slt, BitVec.slt_eq_ult, BitVec.ule_eq_not_ult, Bool.xor_not, bne_comm]
  cases op
  case eq | ne => simp [compute?, test?, hbool, IsOrdered]
  case lt => simp [compute?, test?, hbool, IsOrdered, BitVec.slt_eq_ult]
  case le => simp [compute?, test?, hbool, IsOrdered, hsle]
  case gt => simp [compute?, test?, hbool, IsOrdered, BitVec.slt_eq_ult, bne_comm]
  case ge => simp [compute?, test?, hbool, IsOrdered, hsle, bne_comm]
  all_goals cases h

end Operator

def SameSign (l r : Int) : Prop := (Word.ofInt l).msb = (Word.ofInt r).msb

namespace Expr

variable {m : Meaning} {undefined : Operator → Word → Word → Word}

/-- The word of an expression, if numbers are compared without a sign. -/
def unsigned (m : Meaning) (undefined : Operator → Word → Word → Word) : Expr → Word
  | const c => Word.ofInt c
  | param number => m.param (number.unsigned m undefined)
  | string name id => m.text name id
  | record name id => m.call name id
  | binary op left right => op.unsigned undefined (left.unsigned m undefined) (right.unsigned m undefined)
  | not operand => if operand.unsigned m undefined = 0 then 1 else 0
  | var ⟨num, none, shift, mask, add, div, mod⟩ => m.read ⟨num, none, shift, mask, add, div, mod⟩ none
  | var ⟨num, some arg, shift, mask, add, div, mod⟩ =>
    m.read ⟨num, none, shift, mask, add, div, mod⟩ (some (arg.unsigned m undefined))
  | store slot => m.stored slot
  | load slot => m.loaded slot
termination_by structural e => e

def FoldsAlike : Expr → Prop
  | binary op left right => op.IsOrdered → ∀ l r, left.fold = const l → right.fold = const r → SameSign l r
  | not operand => ∀ c, operand.fold = const c → ZeroFits c
  | _ => True

theorem unsigned_foldBinary {op : Operator} {l r : Expr}
    (h : op.IsOrdered → ∀ a b, l = const a → r = const b → SameSign a b) :
    (foldBinary op l r).unsigned m undefined = (binary op l r).unsigned m undefined := by
  rcases foldBinary_cases op l r with heq | ⟨a, b, w, rfl, rfl, hw, heq⟩
  · rw [heq]
  · rw [heq]
    show ofInt w.toInt = op.unsigned undefined (ofInt a) (ofInt b)
    rw [ofInt_toInt, Operator.unsigned]
    split
    · next hop =>
        rw [Operator.compute?_comparison hop] at hw
        have hsame : (decide op.IsOrdered && (ofInt a).msb != (ofInt b).msb) = false := by
          rw [Bool.and_eq_false_iff, decide_eq_false_iff_not, bne_eq_false_iff_eq]
          exact or_iff_not_imp_left.mpr fun hordered => h (not_not.mp hordered) a b rfl rfl
        rw [← Option.some.inj hw, hsame, Bool.false_xor]
    · rw [hw, Option.getD_some]

/-- **Folding keeps the word of an expression** without a sign, if each operation in it is folded alike. -/
theorem unsigned_fold {e : Expr} (h : ∀ x ∈ e.walk, x.FoldsAlike) :
    e.fold.unsigned m undefined = e.unsigned m undefined := by
  induction e using byParts with
  | const | string | record | bare | store | load => rfl
  | param number ih => exact congrArg m.param (ih fun x hx => h x (.tail _ hx))
  | binary op left right ihl ihr =>
    rw [fold, unsigned_foldBinary (h _ (.head _)), unsigned, unsigned,
      ihl fun x hx => h x (.tail _ (List.mem_append_left _ hx)),
      ihr fun x hx => h x (.tail _ (List.mem_append_right _ hx))]
  | not operand ih =>
    have hnot : (foldNot operand.fold).unsigned m undefined = (not operand.fold).unsigned m undefined := by
      have hzero := h _ (.head _)
      cases hfold : operand.fold with
      | const c =>
        have hiff : c = 0 ↔ ofInt c = 0 := ⟨fun hc => hc ▸ rfl, hzero c hfold⟩
        show ofInt (if c = 0 then 1 else 0) = if ofInt c = 0 then 1 else 0
        split <;> simp_all [ofInt]
      | _ => rfl
    rw [fold, hnot, unsigned, unsigned, ih fun x hx => h x (.tail _ hx)]
  | var num arg shift mask add div mod ih =>
    rw [fold, unsigned, unsigned, ih fun x hx => h x (.tail _ hx)]

end Expr

theorem Comparison.unsigned_ofBinary? {op : Operator} {l r : Expr} {c : Comparison} (h : ofBinary? op l r = some c)
    (m : Meaning) (undefined : Operator → Word → Word → Word) :
    (Expr.binary op l r).unsigned m undefined =
      ofBool (c.op.test? (c.left.unsigned m undefined) c.value == some true) := by
  unfold ofBinary? at h
  split at h
  · cases h
  · rename_i hop
    replace hop : op.isComparison = true := by simpa using hop
    rw [Expr.unsigned, Operator.unsigned, if_pos hop]
    split at h
    · cases h
    · rename_i k hl _
      obtain rfl := Option.some.inj h
      obtain rfl := Expr.constant?_eq_some.mp hl
      rw [test?_flipped hop]
      rfl
    · rename_i k _ hr
      obtain rfl := Option.some.inj h
      obtain rfl := Expr.constant?_eq_some.mp hr
      rfl
    · cases h

namespace Lowering

variable {p : Params} {op : Operator} {n l r : Int} {b : Bool}

/-- Whether the records under a condition are executed in the state `p` is `b`: this is decided beforehand, or by a
skip that tests a parameter. -/
def RunsIn (p : Params) (cond : Expr) (b : Bool) : Prop :=
  constantCondition? cond = some b ∨ constantCondition? cond = none ∧
    ∃ test : SkipCondition, (∀ pos c, lowerCondition cond pos c = .ok ([], test) c) ∧ test.holds p = !b

theorem runsIn_comparison {left right : Expr} {c : Comparison}
    (hfold : (Expr.binary op left right).fold = .binary op left right)
    (hc : Comparison.ofBinary? op left right = some c) (hleft : c.left = .paramAt n) (hn : 0 ≤ n ∧ n ≤ 0xFF)
    (hb : c.op.test? (p.read n) c.value = some b) : RunsIn p (.binary op left right) b := by
  have hconstant : constantCondition? (.binary op left right) = c.constant? := by
    simp [constantCondition?, hfold, hc]
  obtain ⟨hop, -⟩ := Comparison.asks_of_ofBinary? hc
  unfold RunsIn
  rw [hconstant]
  cases hconst : c.constant? with
  | some b' => exact .inl (congrArg some (Comparison.test?_of_constant? hconst hb).symm)
  | none =>
    refine .inr ⟨rfl, ⟨n, 4, c.negation.1, c.negation.2⟩, fun pos s => ?_, Comparison.holds_negation hop hconst hb⟩
    have hbit : ¬(op = .hasBit ∨ op = .notHasBit) := by
      rintro (rfl | rfl) <;> cases hc
    have hnumber : (decide (n < 0) || decide (0xFF < n)) = false := by
      simp
      omega
    have hoperand : operandParam (.paramAt n) pos s = .ok ([], n) s := by
      have hcheck : checkParamNumber n pos s = .ok () s := failIf_eq_ok.mpr ⟨hnumber, rfl⟩
      exact bind_of_ok hcheck
    simp only [lowerCondition, hfold, if_neg hbit, hc, hleft]
    exact bind_of_ok hoperand

/-- **A condition that is decided beforehand has this truth value**, whatever parameters hold, if numbers are compared
without a sign. This asks that no words of different signs are compared by size when it is folded, and that constants
which are negated, or the condition itself, are zero if their words are.

So a constant in a comparison can be replaced by a parameter that holds it, unless a comparison by size of words with
different signs is decided beforehand. -/
theorem constantCondition?_truth {cond : Expr} (h : constantCondition? cond = some b)
    (halike : ∀ e ∈ cond.walk, e.FoldsAlike) (hzero : ∀ c, cond.fold = .const c → Expr.ZeroFits c) :
    (∀ m undefined, (cond.unsigned m undefined != 0) = b) ∧
      ∀ (op : Operator) (p : Params) (n l r : Int), op.isComparison = true → 0 ≤ n ∧ n ≤ 0xFF →
        ∃ b, RunsIn p (.binary op (.const l) (.const r)) b ∧
          (p.read n = Word.ofInt l → ∃ b', RunsIn p (.binary op (.paramAt n) (.const r)) b' ∧
            (b' = b ↔ (op.IsOrdered → SameSign l r))) ∧
          (p.read n = Word.ofInt r → ∃ b', RunsIn p (.binary op (.const l) (.paramAt n)) b' ∧
            (b' = b ↔ (op.IsOrdered → SameSign l r))) := by
  have hbool : ∀ b : Bool, (Word.ofBool b != 0) = b := by decide
  constructor
  · intro m undefined
    rw [← Expr.unsigned_fold halike]
    unfold constantCondition? at h
    cases hfold : cond.fold with
    | const v =>
      rw [hfold] at h
      have hiff : v = 0 ↔ Word.ofInt v = 0 := ⟨fun hv => hv ▸ rfl, hzero v hfold⟩
      rw [← Option.some.inj h, Expr.unsigned]
      simp only [bne, ne_eq, hiff, decide_not]
      rfl
    | binary op left right =>
      rw [hfold] at h
      obtain ⟨c, hc, hconst⟩ := Option.bind_eq_some_iff.mp h
      obtain ⟨-, asks, -, htest⟩ := Comparison.asks_of_ofBinary? hc
      rw [Comparison.unsigned_ofBinary? hc, hbool, htest, Comparison.test?_of_constant? hconst (htest _)]
      cases b <;> rfl
    | _ =>
      rw [hfold] at h
      cases h
  · intro op p n l r hop hn
    let test : Bool := op.test? (Word.ofInt l) (Word.ofInt r) == some true
    have htest : op.test? (Word.ofInt l) (Word.ofInt r) = some test := Operator.test?_eq_some (.inl hop) _ _
    let other : Bool := decide op.IsOrdered && (Word.ofInt l).msb != (Word.ofInt r).msb
    have hsame : test = (other ^^ test) ↔ (op.IsOrdered → SameSign l r) := by
      have hxor : ∀ x y : Bool, y = (x ^^ y) ↔ x = false := by decide
      rw [hxor, Bool.and_eq_false_iff, decide_eq_false_iff_not, bne_eq_false_iff_eq, ← imp_iff_not_or]
      rfl
    refine ⟨other ^^ test, Or.inl ?_, fun hread => ⟨test, ?_, hsame⟩, fun hread => ⟨test, ?_, hsame⟩⟩
    · have hvalue := Operator.compute?_comparison hop (Word.ofInt l) (Word.ofInt r)
      have heval : op.eval? l r = some (Word.ofBool (other ^^ test)).toInt := congrArg (Option.map BitVec.toInt) hvalue
      simp only [constantCondition?, Expr.fold, Expr.foldBinary, Expr.constant?, heval, Option.map_some, Option.getD_some]
      cases other ^^ test <;> decide
    · refine runsIn_comparison rfl (by simp [Comparison.ofBinary?, hop, Expr.constant?]; rfl) rfl hn ?_
      rw [hread]
      exact htest
    · refine runsIn_comparison rfl (by simp [Comparison.ofBinary?, hop, Expr.constant?]; rfl) rfl hn ?_
      rw [hread, Comparison.test?_flipped hop]
      exact htest

/-- No parameter is greater than the largest word. And minus one is less than zero if it is a constant, but not if
it is held by a parameter. -/
theorem constantCondition?_truth_signs :
    let cond : Expr := .binary .le (.paramAt 5) (.binary .sub (.const 1) (.const 2))
    let p : Params := fun _ => 0xFFFFFFFF
    (∀ m undefined, cond.unsigned m undefined ≠ 0) ∧
      ∃ b b', RunsIn p (.binary .lt (.const (-1)) (.const 0)) b ∧ RunsIn p (.binary .lt (.paramAt 1) (.const 0)) b' ∧
        b' ≠ b := by
  intro cond p
  have halike : ∀ e ∈ cond.walk, e.FoldsAlike := by
    intro e he
    simp only [cond, Expr.paramAt, Expr.walk, List.mem_cons, List.mem_append, List.not_mem_nil, or_false] at he
    rcases he with rfl | (rfl | rfl) | rfl | rfl | rfl <;> try trivial
    · rintro _ _ _ ⟨⟩
    · exact fun h => absurd h (by decide)
  have hdecided : constantCondition? cond = some true := by decide
  obtain ⟨htrue, hreplace⟩ := constantCondition?_truth hdecided halike (by rintro _ ⟨⟩)
  obtain ⟨b, hb, hleft, -⟩ := hreplace .lt p 1 (-1) 0 rfl (by decide)
  obtain ⟨b', hb', hiff⟩ := hleft (by decide)
  refine ⟨fun m undefined => by simpa using htrue m undefined, b, b', hb, hb', fun heq => ?_⟩
  exact absurd (hiff.mp heq (by decide)) (by unfold SameSign; decide)

end Lowering

end Grf
