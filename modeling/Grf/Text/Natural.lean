import Grf.Text.Number

/-! # Natural order of names

In the natural order runs of digits count as numbers, so `a2` comes before `a10`. Two names are
compared after their common beginning, which ends before the first digit of either. Numbers that do
not fit in 64 bits are compared as text.
-/

namespace Grf.Text

/-- The rests of two texts after their common beginning, which holds no digit. -/
def skipCommon : List Char → List Char → List Char × List Char
  | a :: as, b :: bs =>
    if a.isDigit || b.isDigit || a != b then (a :: as, b :: bs) else skipCommon as bs
  | as, bs => (as, bs)

theorem length_skipCommon_le (as bs : List Char) : (skipCommon as bs).1.length ≤ as.length := by
  induction as generalizing bs with
  | nil => simp [skipCommon]
  | cons a as ih =>
    cases bs with
    | nil => simp [skipCommon]
    | cons b bs =>
      rw [skipCommon]
      split
      · simp
      · exact Nat.le_succ_of_le (ih bs)

/-- The number at the front of a text, if there is one and it fits in 64 bits. -/
def leadingNumber? (s : List Char) : Option Nat :=
  (readDigits? 10 (s.takeWhile Char.isDigit)).filter (· < 0x10000000000000000)

def lexLess (a b : List Char) : Bool := decide (a < b)

theorem length_dropWhile_isDigit_lt (s : List Char) (n : Nat) (h : leadingNumber? s = some n) :
    (s.dropWhile Char.isDigit).length < s.length := by
  cases s with
  | nil => simp [leadingNumber?, readDigits?] at h
  | cons c s =>
    by_cases hc : c.isDigit
    · have := (List.dropWhile_suffix Char.isDigit (l := s)).length_le
      simp [hc]
      omega
    · simp [leadingNumber?, readDigits?, hc] at h

def naturalLess (left right : List Char) : Bool :=
  let a := (skipCommon left right).1
  let b := (skipCommon left right).2
  if a.isEmpty then !b.isEmpty
  else match _h : leadingNumber? a, leadingNumber? b with
    | some m, some n =>
      if m != n then m < n
      else
        let restA := a.dropWhile Char.isDigit
        let restB := b.dropWhile Char.isDigit
        -- equal numbers decide nothing as long as text follows on both sides
        if restA.isEmpty || restB.isEmpty then lexLess a b else naturalLess restA restB
    | _, _ => lexLess a b
termination_by left.length
decreasing_by
  have h1 := length_dropWhile_isDigit_lt (skipCommon left right).1 _ _h
  have h2 := length_skipCommon_le left right
  omega

def naturalLt (a b : String) : Bool := naturalLess a.toList b.toList

/-- Inserts a name into a list in descending order, behind the names that it comes before. -/
def insertSorted (less : String → String → Bool) (a : String) : List String → List String
  | [] => [a]
  | b :: rest => if less a b then b :: insertSorted less a rest else a :: b :: rest

/-- The names in natural order. Each one moves down from the end of those before it, so names that are
equal in the order stay as they are given. This is how up to twelve names are sorted; more than that
come out the same if each two of them are told apart and the order does not go round. -/
def naturalSort (names : List String) : List String :=
  (names.foldl (fun sorted a => insertSorted naturalLt a sorted) []).reverse

end Grf.Text
