import Grf.Proofs.Expr.Simplify

/-! # Computing operations on constants

A constant is a number of 64 bits that stands for its low 32 bits. Only negation tells the two apart: a constant is
negated as a number of 64 bits. `Expr.word?_fold` says that everything else keeps its word when it is folded.
-/

namespace Grf

/-- The meaning of everything in an expression that is not computed when it is folded. A variable read has its fields,
and the value of its parameter if it has one. -/
structure Meaning where
  param : Word → Word
  read : VarRead Expr → Option Word → Word
  text : String → Int → Word
  call : String → Int → Word
  stored : Slot → Word
  loaded : Slot → Word

namespace Expr

/-- The word of an expression, with the operators that can be computed beforehand. -/
def word? (m : Meaning) : Expr → Option Word
  | const c => some (Word.ofInt c)
  | param number => (number.word? m).map m.param
  | string name id => some (m.text name id)
  | record name id => some (m.call name id)
  | binary op left right => (left.word? m).bind fun l => (right.word? m).bind fun r => op.compute? l r
  | not operand => (operand.word? m).map fun w => if w = 0 then 1 else 0
  | var ⟨num, none, shift, mask, add, div, mod⟩ => some (m.read ⟨num, none, shift, mask, add, div, mod⟩ none)
  | var ⟨num, some arg, shift, mask, add, div, mod⟩ =>
    (arg.word? m).map fun w => m.read ⟨num, none, shift, mask, add, div, mod⟩ (some w)
  | store slot => some (m.stored slot)
  | load slot => some (m.loaded slot)
termination_by structural e => e

def ZeroFits (c : Int) : Prop := Word.ofInt c = 0 → c = 0

instance (c : Int) : Decidable (ZeroFits c) := inferInstanceAs (Decidable (_ → _))

theorem fold_eq_const {e : Expr} {c : Int} (h : e.fold = const c) : e = const c ∨ ZeroFits c := by
  cases e with
  | const => exact .inl h
  | binary op left right =>
    right
    simp only [fold] at h
    rcases foldBinary_cases op left.fold right.fold with hop | ⟨-, -, w, -, -, -, hop⟩
    · rw [hop] at h
      cases h
    · rw [hop] at h
      cases h
      intro hzero
      simp_all
  | not operand =>
    right
    simp only [fold, foldNot] at h
    split at h
    · cases h
      split
      · exact fun hzero => absurd hzero (by decide)
      · exact fun _ => rfl
    · cases h
  | var v =>
    obtain ⟨_, arg, _, _, _, _, _⟩ := v
    cases arg <;> cases h
  | _ => cases h

variable {m : Meaning}

theorem word?_foldBinary (op : Operator) (l r : Expr) : (foldBinary op l r).word? m = (binary op l r).word? m := by
  rcases foldBinary_cases op l r with h | ⟨a, b, w, rfl, rfl, hw, h⟩
  · rw [h]
  · simp [h, word?, hw]

theorem word?_foldNot_const (c : Int) : (foldNot (const c)).word? m = (not (const c)).word? m ↔ ZeroFits c := by
  show some (Word.ofInt (if c = 0 then 1 else 0)) = some (if Word.ofInt c = 0 then 1 else 0) ↔ _
  by_cases hc : c = 0
  · subst hc
    exact iff_of_true rfl fun _ => rfl
  · by_cases hw : Word.ofInt c = 0
    · rw [if_neg hc, if_pos hw]
      exact iff_of_false (by decide) fun h => hc (h hw)
    · rw [if_neg hc, if_neg hw]
      exact iff_of_true rfl fun h => absurd h hw

theorem word?_foldNot {e : Expr} (h : ∀ c, e = const c → ZeroFits c) : (foldNot e).word? m = (not e).word? m := by
  cases e with
  | const c => exact (word?_foldNot_const c).mpr (h c rfl)
  | _ => rfl

/-- **Folding keeps the word of an expression**, whatever its parts mean, if no constant is negated that is not zero
but has the word zero. It does not keep the negation of such a constant. -/
theorem word?_fold (m : Meaning) {e : Expr} (h : ∀ c, not (const c) ∈ e.walk → ZeroFits c) :
    e.fold.word? m = e.word? m ∧ ∀ c, (not (const c)).fold.word? m = (not (const c)).word? m ↔ ZeroFits c := by
  refine ⟨?_, word?_foldNot_const⟩
  induction e using byParts with
  | const | string | record | bare | store | load => rfl
  | param number ih =>
    simp only [fold, word?]
    rw [ih fun c hc => h c (.tail _ hc)]
  | binary op left right ihl ihr =>
    simp only [fold]
    rw [word?_foldBinary, word?, word?, ihl fun c hc => h c (.tail _ (List.mem_append_left _ hc)),
      ihr fun c hc => h c (.tail _ (List.mem_append_right _ hc))]
  | not operand ih =>
    simp only [fold]
    rw [word?_foldNot, word?, word?, ih fun c hc => h c (.tail _ hc)]
    intro c hc
    rcases fold_eq_const hc with rfl | hfits
    · exact h c (.head _)
    · exact hfits
  | var num arg shift mask add div mod ih =>
    simp only [fold, word?]
    rw [ih fun c hc => h c (.tail _ hc)]

/-- A negated number that is larger than a word, in the parameter of a variable next to a division by zero. The
negation of `2 ^ 32` has the word one, and is folded to zero. -/
theorem word?_fold_negated :
    let m : Meaning := ⟨id, fun _ arg => arg.getD 7, fun _ _ => 0, fun _ _ => 0, fun _ => 0, fun _ => 0⟩
    let arg : Expr := binary .add (const 0xFFFFFFFF) (not (const 0x300000002))
    let e : Expr := binary .mul (var { num := 0x60, param := some arg }) (param (binary .div (const 1) (const 0)))
    e.fold = binary .mul (var { num := 0x60, param := some (const (-1)) }) (param (binary .div (const 1) (const 0))) ∧
      e.fold.word? m = e.word? m ∧ arg.word? m = some 0xFFFFFFFF ∧
      (not (const 0x100000000)).word? m = some 1 ∧ (not (const 0x100000000)).fold = const 0 ∧
      (not (const 0x100000000)).fold.word? m ≠ (not (const 0x100000000)).word? m := by
  intro m arg e
  have h : ∀ c, not (const c) ∈ e.walk → ZeroFits c := by
    intro c hc
    simp only [e, arg, walk, List.mem_cons, List.mem_append, List.not_mem_nil, reduceCtorEq, false_or, or_false,
      not.injEq, const.injEq] at hc
    subst hc
    decide
  refine ⟨rfl, (word?_fold m h).1, rfl, rfl, rfl, fun heq => ?_⟩
  exact absurd (((word?_fold m h).2 _).mp heq) (by decide)

end Expr

end Grf
