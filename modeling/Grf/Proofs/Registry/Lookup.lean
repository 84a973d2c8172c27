import Mathlib.Tactic.SplitIfs
import Grf.Registry

/-! # Looking up names

The index is searched by bisection. Whatever its order, a definition that is found has the name that was asked for
(`nameOf_of_lookup?`). That every name is found depends on the order, and `Exact` says so of a registry. The search
reads nothing but the index and the names (`lookup?_congr`), so that binding ids does not change what is found.
-/

namespace Grf

theorem lookup_filter_of_ne {κ ν : Type} [BEq κ] [LawfulBEq κ] {k k' : κ} (h : k ≠ k') (xs : List (κ × ν)) :
    (xs.filter (·.1 != k')).lookup k = xs.lookup k := by
  induction xs with
  | nil => rfl
  | cons x xs ih =>
    by_cases hx : x.1 = k'
    · have hne : (k == x.1) = false := beq_eq_false_iff_ne.mpr (hx ▸ h)
      rw [List.filter_cons_of_neg (by simp [hx]), ih, List.lookup_cons, hne]
    · rw [List.filter_cons_of_pos (by simpa using hx), List.lookup_cons, List.lookup_cons, ih]

namespace Registry

variable {r r' : Registry} {name : String} {node : Nat} {d : Definition} {pos : Position}

def size (r : Registry) : Nat := r.graph.data.size

def Exact (r : Registry) : Prop := ∀ node < r.size, r.lookup? (r.nameOf node) = some node

instance (r : Registry) : Decidable r.Exact :=
  inferInstanceAs (Decidable (∀ node < r.size, r.lookup? (r.nameOf node) = some node))

theorem lt_size_of_get? (h : r.get? node = some d) : node < r.size := by
  obtain ⟨hlt, -⟩ := Array.getElem?_eq_some_iff.mp h
  exact hlt

theorem get?_of_lt (h : node < r.size) : ∃ d, r.get? node = some d := ⟨_, Array.getElem?_eq_getElem h⟩

theorem nameOf_eq (h : r.get? node = some d) : r.nameOf node = d.name := by
  rw [nameOf, h]
  rfl

theorem eq_of_not_nameLess {a b : String} (h : nameLess a b = false) (h' : nameLess b a = false) : a = b := by
  unfold nameLess at h h'
  cases hab : Text.naturalLt a b with
  | true => simp [hab] at h
  | false =>
    cases hba : Text.naturalLt b a with
    | true => simp [hba] at h'
    | false =>
      simp only [hab, hba, Bool.false_eq_true, if_false, Text.lexLess, decide_eq_false_iff_not] at h h'
      exact String.toList_inj.mp (List.le_antisymm (List.not_lt.mp h') (List.not_lt.mp h))

/-- A place of the index that is the first one, or has a name before it that is not greater. -/
def NotGreater (r : Registry) (name : String) (place : Nat) : Prop :=
  ∀ node, place ≠ 0 → r.index[place - 1]? = some node → nameLess name (r.nameOf node) = false

theorem notGreater_upperBound {low high : Nat} (h : r.NotGreater name low) :
    r.NotGreater name (r.upperBound name low high) := by
  fun_induction upperBound r name low high with
  | case1 low high hlt mid hnone => exact h
  | case2 low high hlt mid node hnode hless ih => exact ih h
  | case3 low high hlt mid node hnode hless ih =>
    refine ih fun found _ hfound => ?_
    rw [Nat.add_sub_cancel, hnode] at hfound
    obtain rfl := Option.some.inj hfound
    simpa using hless
  | case4 low high hlt => exact h

/-- **What is found has the name that was looked up.** -/
theorem nameOf_of_lookup? (h : r.lookup? name = some node) : r.nameOf node = name := by
  have hbound : r.NotGreater name (r.upperBound name 0 r.index.size) :=
    notGreater_upperBound fun _ hne _ => absurd rfl hne
  unfold lookup? search at h
  dsimp only at h
  split at h
  · cases h
  · rename_i found hfound
    split_ifs at hfound with hplace
    split_ifs at h with hless
    obtain rfl := Option.some.inj h
    exact eq_of_not_nameLess (by simpa using hless) (hbound found hplace hfound)

theorem upperBound_congr (hindex : r'.index = r.index) (hnames : ∀ n, r'.nameOf n = r.nameOf n)
    (low high : Nat) : r'.upperBound name low high = r.upperBound name low high := by
  fun_induction upperBound r name low high with
  | case1 low high hlt mid hnone =>
    rw [upperBound, if_pos hlt]
    simp only [hindex]
    rw [hnone]
  | case2 low high hlt mid node hnode hless ih =>
    rw [upperBound, if_pos hlt]
    simp only [hindex]
    rw [hnode]
    simp only [hnames, hless, if_true]
    exact ih
  | case3 low high hlt mid node hnode hless ih =>
    rw [upperBound, if_pos hlt]
    grind
  | case4 low high hlt => rw [upperBound, if_neg hlt]

theorem lookup?_congr (hindex : r'.index = r.index) (hnames : ∀ n, r'.nameOf n = r.nameOf n) :
    r'.lookup? name = r.lookup? name := by
  unfold lookup? search
  rw [hindex, upperBound_congr hindex hnames]
  simp only [hnames]

theorem find_eq_ok (hlookup : r.lookup? name = some node) (hget : r.get? node = some d) :
    r.find name pos = .ok (node, d) := by
  unfold find
  rw [hlookup]
  dsimp only
  rw [hget]

theorem of_find_eq_ok (h : r.find name pos = .ok (node, d)) : r.get? node = some d ∧ d.name = name := by
  unfold find at h
  split at h
  · cases h
  · rename_i found hfound
    split at h
    · cases h
    · rename_i d' hget
      cases h
      exact ⟨hget, (nameOf_eq hget).symm.trans (nameOf_of_lookup? hfound)⟩

end Registry

end Grf
