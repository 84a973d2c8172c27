import Mathlib.Data.List.Sort
import Mathlib.Data.String.Basic
import Grf.FileTree
import Grf.Proofs.Registry.Order
import Grf.Proofs.StringTable.Calls

/-! # The order of names

The names of a string table are sorted to be listed. The natural order does not tell all names apart and can go round,
so the list may depend on the order that the names came in. It does not if the names can be arranged such that each
comes before all the names behind it, and for up to twelve names only then. Language files are found in an order that
their places tell (`listing_determined`).
-/

namespace Grf

open List

namespace Text

variable {x y : String} {l s names : List String}

/-- The names are sorted by insertion, from the last one on and in descending order. -/
theorem naturalSort_eq (names : List String) :
    naturalSort names = (names.reverse.insertionSort fun a b => ¬naturalLt a b = true).reverse := by
  have hinsert (a : String) (l : List String) :
      insertSorted naturalLt a l = l.orderedInsert (fun a b => ¬naturalLt a b = true) a := by
    induction l with
    | nil => rfl
    | cons b l ih => rw [insertSorted, orderedInsert_cons, ih, ite_not]
  simp only [naturalSort, hinsert, foldl_eq_foldr_reverse]
  rfl

theorem naturalSort_perm (names : List String) : (naturalSort names).Perm names := by
  grind [naturalSort_eq, perm_insertionSort]

/-- If the sorted list never depends on the order of the names, each name in it comes before those behind it: had two
of them come in the other order, they would have stayed like that. -/
theorem pairwise_of_determined (hnames : names.Nodup)
    (h : ∀ l : List String, l.Perm names → naturalSort l = naturalSort names) :
    (naturalSort names).Pairwise (naturalLt · · = true) := by
  have hperm := naturalSort_perm names
  have hnodup := hperm.nodup_iff.mpr hnames
  have hplaces : (naturalSort names).Pairwise ((naturalSort names).idxOf · < (naturalSort names).idxOf ·) :=
    pairwise_iff_getElem.mpr fun i j hi hj hij => by rwa [hnodup.idxOf_getElem, hnodup.idxOf_getElem]
  rw [pairwise_iff_forall_sublist] at hplaces ⊢
  intro x y hxy
  by_contra hless
  obtain ⟨rest, hrest⟩ := hxy.exists_perm_append
  have hyx : [y, x].Sublist (naturalSort (y :: x :: rest)) := by
    have hpair : [x, y].Sublist ((y :: x :: rest).reverse.insertionSort fun a b => ¬naturalLt a b = true) :=
      sublist_insertionSort (pairwise_pair.mpr hless) (by simp)
    rw [naturalSort_eq]
    exact hpair.reverse
  rw [h _ ((Perm.swap x y rest).trans (hrest.symm.trans hperm))] at hyx
  exact lt_asymm (hplaces hxy) (hplaces hyx)

theorem naturalLt_asymm (h : naturalLt x y = true) : ¬naturalLt y x = true := by
  unfold naturalLt
  rw [naturalLess_asymm h]
  exact Bool.false_ne_true

/-- Among names that are arranged, the natural order is that of the arrangement. -/
theorem naturalLt_iff_idxOf (hs : s.Pairwise (naturalLt · · = true)) (hx : x ∈ s) (hy : y ∈ s) :
    naturalLt x y = true ↔ s.idxOf x < s.idxOf y := by
  have hless {x y : String} (hx : x ∈ s) (hy : y ∈ s) (hlt : s.idxOf x < s.idxOf y) : naturalLt x y = true := by
    have hpair := pairwise_iff_getElem.mp hs _ _ (idxOf_lt_length_iff.mpr hx) (idxOf_lt_length_iff.mpr hy) hlt
    rwa [getElem_idxOf, getElem_idxOf] at hpair
  refine ⟨fun h => ?_, hless hx hy⟩
  by_contra hnot
  rcases Nat.lt_or_eq_of_le (Nat.le_of_not_lt hnot) with hlt | heq
  · exact naturalLt_asymm h (hless hy hx hlt)
  · obtain rfl := (idxOf_inj hy).mp heq
    exact naturalLt_asymm h h

/-- Names that can be arranged are sorted as they are arranged. -/
theorem naturalSort_of_arranged (hs : s.Pairwise (naturalLt · · = true)) (hl : l.Perm s) : naturalSort l = s := by
  have hmem : ∀ x ∈ l.reverse, x ∈ s := fun x hx => hl.mem_iff.mp (mem_reverse.mp hx)
  have hsorted : (naturalSort l).Pairwise (s.idxOf · ≤ s.idxOf ·) := by
    have hplaces := pairwise_insertionSort (· ≥ ·) (l.reverse.map s.idxOf)
    rw [← map_insertionSort (fun a b => ¬naturalLt a b = true) (· ≥ ·) s.idxOf _ fun x hx y hy => ?_, pairwise_map]
      at hplaces
    · rw [naturalSort_eq, pairwise_reverse]
      exact hplaces
    · rw [naturalLt_iff_idxOf hs (hmem x hx) (hmem y hy), not_lt]
  have harranged : s.Pairwise (s.idxOf · ≤ s.idxOf ·) :=
    hs.imp_of_mem fun hx hy h => ((naturalLt_iff_idxOf hs hx hy).mp h).le
  refine ((naturalSort_perm l).trans hl).eq_of_pairwise (fun x y _ hy hxy hyx => ?_) hsorted harranged
  exact ((idxOf_inj hy).mp (hyx.antisymm hxy)).symm

/-- A way to sort names in natural order. Up to twelve of them are inserted one by one. However more of them are sorted,
names that can be arranged are sorted as they are arranged. -/
structure Sorter where
  sort : List String → List String
  short : ∀ names : List String, names.length ≤ 12 → sort names = naturalSort names
  arranged : ∀ {l s : List String}, s.Pairwise (naturalLt · · = true) → l.Perm s → sort l = s

def Sorter.byInsertion : Sorter := ⟨naturalSort, fun _ _ => rfl, naturalSort_of_arranged⟩

end Text

namespace FileTree

variable {t t' : FileTree} {directory : String}

theorem visitedBefore_iff (a b : List String) :
    visitedBefore a b = true ↔ toLex (a.dropLast, a) ≤ toLex (b.dropLast, b) := by
  rw [Prod.Lex.le_iff]
  unfold visitedBefore
  by_cases h : a.dropLast = b.dropLast
  · simp [h]
  · simp [h, Ne.symm h, lt_iff_le_and_ne]

theorem pairwise_languagePlaces (t : FileTree) (directory : String) :
    (t.languagePlaces directory).Pairwise (visitedBefore · · = true) := by
  have hbelow (place : List String) : (t.below place).Pairwise (visitedBefore · · = true) := by
    refine pairwise_mergeSort (fun a b c => ?_) (fun a b => ?_) _
    · simp only [visitedBefore_iff]
      exact le_trans
    · simp only [Bool.or_eq_true, visitedBefore_iff]
      exact le_total _ _
  grind [languagePlaces]

/-- The language files of a directory are visited in an order that their places tell. -/
theorem languageFiles_determined (h : (t.languagePlaces directory).Perm (t'.languagePlaces directory)) :
    t.languageFiles directory = t'.languageFiles directory := by
  rw [languageFiles, languageFiles, h.eq_of_pairwise (fun a b _ _ hab hba => ?_) (pairwise_languagePlaces t _)
    (pairwise_languagePlaces t' _)]
  exact congrArg (fun x => (ofLex x).2) (le_antisymm ((visitedBefore_iff a b).mp hab) ((visitedBefore_iff b a).mp hba))

end FileTree

namespace StringTable

def namesBy (sorter : Text.Sorter) (t : StringTable) : List String := sorter.sort (t.entries.map (·.1))

def unusedBy (sorter : Text.Sorter) (t : StringTable) : List String :=
  (t.namesBy sorter).filter fun name => (t.ids.lookup name).isNone

theorem names_eq_byInsertion : names = namesBy .byInsertion ∧ unused = unusedBy .byInsertion := ⟨rfl, rfl⟩

/-- **When a listing is determined.** If the names of a table can be arranged such that each comes before all those
behind it, then they, and those of them that were never resolved, are listed the same in whatever order the table has
them. Up to twelve names are listed the same in this case only. The language files of a directory are always loaded in
an order that their places tell. -/
theorem listing_determined (sorter : Text.Sorter) (calls : List Call) :
    let arranged := ∃ s : List String, s.Perm ((table calls).entries.map (·.1)) ∧ s.Pairwise (Text.naturalLt · · = true)
    let determined := ∀ entries : List (String × List Wording), entries.Perm (table calls).entries →
      namesBy sorter { table calls with entries } = (table calls).namesBy sorter ∧
        unusedBy sorter { table calls with entries } = (table calls).unusedBy sorter
    (arranged → determined) ∧ ((table calls).entries.length ≤ 12 → determined → arranged) ∧
      ∀ (files files' : FileTree) (directory : String),
        (files.languagePlaces directory).Perm (files'.languagePlaces directory) →
        sorter.sort (files.languageFiles directory) = sorter.sort (files'.languageFiles directory) := by
  intro arranged determined
  refine ⟨?_, fun hshort h => ?_, fun files files' directory h => ?_⟩
  · rintro ⟨s, hperm, hs⟩ entries hentries
    have hnames : namesBy sorter { table calls with entries } = (table calls).namesBy sorter :=
      (sorter.arranged hs ((hentries.map _).trans hperm.symm)).trans (sorter.arranged hs hperm.symm).symm
    refine ⟨hnames, ?_⟩
    unfold unusedBy
    rw [hnames]
  · refine ⟨_, Text.naturalSort_perm _, Text.pairwise_of_determined (reflects_calls calls).names fun l hl => ?_⟩
    have hentries := congrFun (congrFun (eq_map_comp_perm fun e : String × List Wording => e.1) l) (table calls).entries
    obtain ⟨entries, rfl, hperm⟩ := hentries.mpr hl
    rw [← sorter.short _ (by simpa [hperm.length_eq] using hshort), ← sorter.short _ (by simpa using hshort)]
    exact (h entries hperm).1
  · rw [FileTree.languageFiles_determined h]

/-- Two names that differ by the zeros before a number stay in the order that they come in. -/
theorem listing_zeros : (table [.add 1 "a1b" "x" {}, .add 1 "a01b" "y" {}]).names = ["a1b", "a01b"] ∧
    (table [.add 1 "a01b" "y" {}, .add 1 "a1b" "x" {}]).names = ["a01b", "a1b"] := by
  decide +kernel

end StringTable

end Grf
