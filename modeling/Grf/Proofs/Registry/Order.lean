import Mathlib.Data.Char
import Mathlib.Data.List.InsertIdx
import Mathlib.Data.List.Lex
import Mathlib.Data.List.TakeWhile
import Mathlib.Data.Prod.Lex
import Mathlib.Data.Set.Pairwise.Basic
import Grf.Proofs.Registry.Growth

/-! # The order of names

Of two different names exactly one comes first in the index (`nameLess_eq_not`), but the order is not transitive on all
names: numbers of more than 64 bits are compared as text, and so are equal numbers as soon as one of the names ends
behind them. Names that meet neither exception are `Concordant`. They are ordered by what they are read as
(`naturalLess_iff`), which is a linear order. So an index of such names is sorted (`Reached.sorted`).
-/

namespace Grf

open List Text Char

namespace Text

variable {a b s t x y : List Char} {c d : Char} {m n : Nat}

/-! ## Comparing two names -/

theorem skipCommon_swap (as bs : List Char) : skipCommon bs as = (skipCommon as bs).swap := by
  induction as generalizing bs with
  | nil => cases bs <;> rfl
  | cons a as ih =>
    cases bs with
    | nil => rfl
    | cons b bs =>
      rw [skipCommon, skipCommon, ih, Bool.or_comm b.isDigit, bne_comm]
      split <;> rfl

theorem ne_nil_of_leadingNumber? (h : leadingNumber? a = some m) : a ≠ [] := by
  rintro rfl
  simp [leadingNumber?, readDigits?] at h

theorem naturalLess_of_nil (h : skipCommon a b = ([], y)) : naturalLess a b = !y.isEmpty := by
  rw [naturalLess]
  simp only [h]
  rfl

theorem naturalLess_of_numbers (h : skipCommon a b = (x, y)) (hx : leadingNumber? x = some m)
    (hy : leadingNumber? y = some n) : naturalLess a b = if m ≠ n then decide (m < n)
      else if x.dropWhile isDigit = [] ∨ y.dropWhile isDigit = [] then lexLess x y
      else naturalLess (x.dropWhile isDigit) (y.dropWhile isDigit) := by
  rw [naturalLess]
  simp only [h]
  rw [if_neg (by simpa using ne_nil_of_leadingNumber? hx)]
  split
  · rename_i hm hn
    rw [h] at hm
    obtain rfl := Option.some.inj (hx.symm.trans hm)
    obtain rfl := Option.some.inj (hy.symm.trans hn)
    simp
  grind

theorem naturalLess_of_text (h : skipCommon a b = (x, y)) (hx : x ≠ [])
    (hnone : ∀ m n, leadingNumber? x = some m → leadingNumber? y = some n → False) : naturalLess a b = lexLess x y := by
  simp_all [naturalLess]

theorem lexLess_asymm (h : lexLess a b = true) : lexLess b a = false := by
  simp_all [lexLess, List.lt_asymm]

theorem naturalLess_asymm (h : naturalLess a b = true) : naturalLess b a = false := by
  fun_induction naturalLess a b with
  | case1 a b x y hx =>
    have hswap : skipCommon b a = (y, []) := (skipCommon_swap a b).trans (by rw [← List.isEmpty_iff.mp hx]; rfl)
    rw [naturalLess_of_text hswap (by simpa using h) fun _ _ _ hn => ne_nil_of_leadingNumber? hn rfl]
    simp [lexLess]
  | case2 a b x y hx m n hm hn hne =>
    have hne : m ≠ n := by simpa using hne
    rw [naturalLess_of_numbers (skipCommon_swap a b) hn hm, if_pos hne.symm]
    simp only [decide_eq_true_eq, decide_eq_false_iff_not] at h ⊢
    omega
  | case3 a b x y hx m n hm hn hne u v hend =>
    obtain rfl : m = n := by simpa using hne
    rw [naturalLess_of_numbers (skipCommon_swap a b) hn hm, if_neg (not_not.mpr rfl),
      if_pos (show v = [] ∨ u = [] by simpa [or_comm] using hend)]
    exact lexLess_asymm h
  | case4 a b x y hx m n hm hn hne u v hend ih =>
    obtain rfl : m = n := by simpa using hne
    rw [naturalLess_of_numbers (skipCommon_swap a b) hn hm, if_neg (not_not.mpr rfl),
      if_neg (show ¬(v = [] ∨ u = []) by simpa [and_comm] using hend)]
    exact ih h
  | case5 a b x y hx hnone =>
    have hy : y ≠ [] := by
      intro hy
      rw [hy] at h
      simp [lexLess] at h
    rw [naturalLess_of_text (skipCommon_swap a b) hy fun m n hm hn => hnone n m hn hm]
    exact lexLess_asymm h

/-! ## What a name is read as -/

/-- A name as characters and numbers. The character `0` stands before each number. -/
def tokens : List Char → List Nat
  | [] => []
  | c :: s =>
    if c.isDigit then '0'.toNat :: (leadingNumber? (c :: s)).getD 0 :: tokens (s.dropWhile Char.isDigit)
    else c.toNat :: tokens s
termination_by s => s.length
decreasing_by
  · have := (List.dropWhile_suffix Char.isDigit (l := s)).length_le
    simp only [List.length_cons]
    omega
  · simp only [List.length_cons]
    omega

def ending : List Char → List Char
  | [] => []
  | c :: s => if (c :: s).all Char.isDigit then c :: s else ending s

/-- The comparison of two names meets no number that is too large, and no number with two spellings behind which
one of the names ends. -/
inductive Concordant : List Char → List Char → Prop
  | nil (s : List Char) : Concordant [] s
  | nil' (s : List Char) : Concordant s []
  | skip {c : Char} {s t : List Char} (hc : c.isDigit = false) (h : Concordant s t) : Concordant (c :: s) (c :: t)
  | apart {c d : Char} {s t : List Char} (hne : c ≠ d) (hd : c.isDigit = false ∨ d.isDigit = false) :
      Concordant (c :: s) (d :: t)
  | numbers {a b : List Char} {m n : Nat} (ha : leadingNumber? a = some m) (hb : leadingNumber? b = some n)
      (hend : m = n → (a.dropWhile Char.isDigit = [] ↔ b.dropWhile Char.isDigit = []) ∨
        a.takeWhile Char.isDigit = b.takeWhile Char.isDigit)
      (h : m = n → a.dropWhile Char.isDigit ≠ [] → b.dropWhile Char.isDigit ≠ [] →
        Concordant (a.dropWhile Char.isDigit) (b.dropWhile Char.isDigit)) : Concordant a b

theorem isDigit_of_leadingNumber? (h : leadingNumber? (c :: s) = some m) : c.isDigit = true := by
  cases hc : c.isDigit with
  | true => rfl
  | false => simp [leadingNumber?, readDigits?, hc] at h

theorem tokens_nil : tokens [] = [] := by rw [tokens]

theorem nil_lt_tokens (h : s ≠ []) : [] < tokens s := by
  cases s with
  | nil => exact absurd rfl h
  | cons c s =>
    rw [tokens]
    split <;> exact nil_lt_cons _ _

theorem tokens_cons (hc : c.isDigit = false) : tokens (c :: s) = c.toNat :: tokens s := by
  rw [tokens, if_neg (by simp [hc])]

theorem tokens_of_number (h : leadingNumber? a = some m) :
    tokens a = '0'.toNat :: m :: tokens (a.dropWhile isDigit) := by
  cases a with
  | nil => exact absurd rfl (ne_nil_of_leadingNumber? h)
  | cons c s =>
    have hc := isDigit_of_leadingNumber? h
    rw [tokens, if_pos hc, h, dropWhile_cons_of_pos hc]
    rfl

theorem ending_of_digits (h : a.dropWhile isDigit = []) : ending a = a := by
  cases a with
  | nil => rfl
  | cons c s => rw [ending, if_pos (by simpa [dropWhile_eq_nil_iff] using h)]

theorem ending_dropWhile (h : a.dropWhile isDigit ≠ []) : ending (a.dropWhile isDigit) = ending a := by
  induction a with
  | nil => rfl
  | cons c s ih =>
    cases hc : c.isDigit with
    | false => rw [dropWhile_cons_of_neg (by simp [hc])]
    | true =>
      rw [dropWhile_cons_of_pos hc] at h ⊢
      simp_all [ending]

theorem not_tokens_lt_nil {P : Prop} (h : s ≠ []) : ¬(tokens s < [] ∨ tokens s = [] ∧ P) := by
  grind [nil_lt_tokens]

theorem tokens_apart (hne : c ≠ d) (hd : c.isDigit = false ∨ d.isDigit = false) :
    (tokens (c :: s) < tokens (d :: t) ↔ c < d) ∧ tokens (c :: s) ≠ tokens (d :: t) := by
  have hnat : c.toNat ≠ d.toNat := fun h => hne (toNat_inj.mp h)
  have hlt : c < d ↔ c.toNat < d.toNat := Iff.rfl
  have hdigit : ∀ e : Char, e.isDigit = true ↔ 48 ≤ e.toNat ∧ e.toNat ≤ 57 := by
    simp [isDigit, UInt32.le_iff_toNat_le]
  have hzero : '0'.toNat = 48 := rfl
  rw [hlt]
  cases hc : c.isDigit with
  | false =>
    have hc' := (hdigit c).not.mp (by simp [hc])
    cases hd' : d.isDigit with
    | false => simp [tokens_cons hc, tokens_cons hd', cons_lt_cons_iff, hnat]
    | true =>
      have := (hdigit d).mp hd'
      rw [tokens_cons hc, tokens, if_pos hd', cons_lt_cons_iff, hzero]
      grind
  | true =>
    have hd' : d.isDigit = false := hd.resolve_left (by simp [hc])
    have := (hdigit d).not.mp (by simp [hd'])
    have := (hdigit c).mp hc
    rw [tokens_cons hd', tokens, if_pos hc, cons_lt_cons_iff, hzero]
    grind

/-- **Concordant names are ordered by what they are read as**, and then by the digits at their ends. -/
theorem naturalLess_iff (h : Concordant a b) : naturalLess a b = true ↔
    tokens a < tokens b ∨ tokens a = tokens b ∧ ending a < ending b := by
  induction h with
  | nil s =>
    rw [naturalLess_of_nil (y := s) (by cases s <;> rfl), tokens_nil]
    by_cases hs : s = []
    · simp [hs, tokens_nil]
    · simp [hs, nil_lt_tokens hs]
  | nil' s =>
    rw [tokens_nil]
    by_cases hs : s = []
    · simp [hs, naturalLess_of_nil (a := []) (b := []) (y := []) rfl, tokens_nil]
    · have hskip : skipCommon s [] = (s, []) := by cases s <;> rfl
      rw [naturalLess_of_text hskip hs fun _ _ _ hn => ne_nil_of_leadingNumber? hn rfl]
      exact iff_of_false (by simp [lexLess]) (not_tokens_lt_nil hs)
  | @skip c s t hc h ih =>
    have hsame : naturalLess (c :: s) (c :: t) = naturalLess s t := by
      have hskip : skipCommon (c :: s) (c :: t) = skipCommon s t := by simp [skipCommon, hc]
      rw [naturalLess, naturalLess, hskip]
    simp_all [tokens_cons, ending]
  | @apart c d s t hne hd =>
    have hskip : skipCommon (c :: s) (d :: t) = (c :: s, d :: t) := by simp [skipCommon, hne]
    obtain ⟨hlt, hneq⟩ := tokens_apart (s := s) (t := t) hne hd
    rw [naturalLess_of_text hskip (by simp), hlt]
    · simp [lexLess, cons_lt_cons_iff, hne, hneq]
    grind [isDigit_of_leadingNumber?]
  | @numbers a b m n ha hb hend h ih =>
    have hskip : skipCommon a b = (a, b) := by
      cases a with
      | nil => cases b <;> rfl
      | cons c s => cases b <;> simp [skipCommon, isDigit_of_leadingNumber? ha]
    rw [naturalLess_of_numbers hskip ha hb, tokens_of_number ha, tokens_of_number hb]
    by_cases hmn : m = n
    · subst hmn
      have ha' := takeWhile_append_dropWhile (p := isDigit) (l := a)
      have hb' := takeWhile_append_dropWhile (p := isDigit) (l := b)
      have hcontinued : ∀ {s t : List Char}, t ≠ [] → s < s ++ t := by
        intro s t ht
        obtain ⟨c, t, rfl⟩ := exists_cons_of_ne_nil ht
        have hlt : s ++ [] < s ++ c :: t := append_left_lt (nil_lt_cons c t)
        rwa [append_nil] at hlt
      simp only [ne_eq, not_true_eq_false, if_false, cons_lt_cons_iff, Nat.lt_irrefl, true_and, false_or,
        List.cons.injEq]
      by_cases hu : a.dropWhile isDigit = []
      · rw [if_pos (.inl hu), hu, tokens_nil]
        by_cases hv : b.dropWhile isDigit = []
        · rw [hv, tokens_nil, ending_of_digits hu, ending_of_digits hv]
          simp [lexLess]
        · have hspelled := (hend rfl).resolve_left (by simp [hu, hv])
          rw [hu, append_nil] at ha'
          refine iff_of_true (decide_eq_true ?_) (.inl (nil_lt_tokens hv))
          grind
      · by_cases hv : b.dropWhile isDigit = []
        · have hspelled := (hend rfl).resolve_left (by simp [hu, hv])
          rw [hv, append_nil] at hb'
          rw [if_pos (.inr hv), hv, tokens_nil]
          refine iff_of_false (fun hlt => List.lt_asymm (of_decide_eq_true hlt) ?_) (not_tokens_lt_nil hu)
          grind
        · rw [if_neg (by simp [hu, hv]), ih rfl hu hv, ending_dropWhile hu, ending_dropWhile hv]
    · simp [hmn, cons_lt_cons_iff]

end Text

namespace Registry

variable {r r' : Registry} {name : String} {node : Nat} {feature : Int} {pos : Position}

/-! ## The order of the index -/

variable {a b : String} {names : Set String}

/-- **Of two different names exactly one comes first.** -/
theorem nameLess_eq_not (h : a ≠ b) : nameLess a b = !nameLess b a := by
  have hasymm : nameLess a b = true → nameLess b a = false := by
    intro hless
    unfold nameLess at hless ⊢
    cases hab : naturalLt a b with
    | true =>
      have hba : naturalLt b a = false := naturalLess_asymm hab
      simp [hba]
    | false =>
      cases hba : naturalLt b a with
      | true => simp [hab, hba] at hless
      | false => simp_all [lexLess_asymm]
  cases hba : nameLess b a with
  | true => exact Bool.eq_false_iff.mpr fun hab => by simp [hasymm hab] at hba
  | false => exact Bool.eq_true_of_not_eq_false fun hab => h (eq_of_not_nameLess hab hba)

theorem nameLess_irrefl (a : String) : nameLess a a = false := by
  have hnat : naturalLt a a = false := Bool.eq_false_iff.mpr fun h => by
    have := naturalLess_asymm h
    exact absurd (h.symm.trans this) (by decide)
  simp [nameLess, hnat, lexLess]

/-- No two of the names are compared where the order is not transitive. -/
def ConcordantOn (names : Set String) : Prop := names.Pairwise fun a b => Text.Concordant a.toList b.toList

theorem nameLess_iff (hab : Text.Concordant a.toList b.toList)
    (hba : Text.Concordant b.toList a.toList) : nameLess a b = true ↔
      toLex (tokens a.toList, toLex (ending a.toList, a.toList)) <
        toLex (tokens b.toList, toLex (ending b.toList, b.toList)) := by
  have hlt : naturalLt a b = true ↔ _ := naturalLess_iff hab
  have hgt : naturalLt b a = true ↔ _ := naturalLess_iff hba
  -- the natural order of the two is decided by one of the parts
  have hfirst : naturalLt a b = true → nameLess a b = true := fun h => by simp [nameLess, h]
  have hsecond : naturalLt b a = true → nameLess a b = false := fun h => by
    have hnot : naturalLt a b = false := naturalLess_asymm h
    simp [nameLess, h, hnot]
  rw [Prod.Lex.toLex_lt_toLex, Prod.Lex.toLex_lt_toLex]
  rcases lt_trichotomy (tokens a.toList) (tokens b.toList) with ht | ht | ht
  · simp [hfirst (hlt.mpr (.inl ht)), ht]
  · rcases lt_trichotomy (ending a.toList) (ending b.toList) with he | he | he
    · simp [hfirst (hlt.mpr (.inr ⟨ht, he⟩)), ht, he]
    · simp_all [nameLess, lexLess]
    · simp [hsecond (hgt.mpr (.inr ⟨ht.symm, he⟩)), ht, he.not_gt, he.ne']
  · simp [hsecond (hgt.mpr (.inl ht)), ht.not_gt, ht.ne']

/-- **The order is transitive on concordant names.** -/
theorem nameLess_trans (h : ConcordantOn names) {c : String} (ha : a ∈ names) (hb : b ∈ names)
    (hc : c ∈ names) (hab : nameLess a b = true) (hbc : nameLess b c = true) : nameLess a c = true := by
  have hne : ∀ {x y : String}, nameLess x y = true → x ≠ y := by
    rintro x y hless rfl
    rw [nameLess_irrefl] at hless
    cases hless
  have hac : a ≠ c := by
    rintro rfl
    rw [nameLess_eq_not (hne hab), hbc] at hab
    cases hab
  rw [nameLess_iff (h ha hb (hne hab)) (h hb ha (hne hab).symm)] at hab
  rw [nameLess_iff (h hb hc (hne hbc)) (h hc hb (hne hbc).symm)] at hbc
  rw [nameLess_iff (h ha hc hac) (h hc ha hac.symm)]
  exact hab.trans hbc

/-! ## Searching -/

/-- The index has all definitions, in the order of their names. -/
structure Sorted (r : Registry) : Prop where
  perm : r.index.toList.Perm (List.range r.size)
  sorted : r.index.toList.Pairwise fun n m => nameLess (r.nameOf n) (r.nameOf m) = true

theorem upperBound_spec {low high : Nat} (hsize : high ≤ r.index.size) (hle : low ≤ high)
    (hmono : ∀ (i j n m : Nat), i ≤ j → r.index[i]? = some n → r.index[j]? = some m →
      nameLess name (r.nameOf n) = true → nameLess name (r.nameOf m) = true)
    (hlow : ∀ (i n : Nat), i < low → r.index[i]? = some n → nameLess name (r.nameOf n) = false)
    (hhigh : ∀ (i n : Nat), high ≤ i → r.index[i]? = some n → nameLess name (r.nameOf n) = true) :
    r.upperBound name low high ≤ high ∧ ∀ i n : Nat, r.index[i]? = some n →
      (nameLess name (r.nameOf n) = true ↔ r.upperBound name low high ≤ i) := by
  fun_induction upperBound r name low high with
  | case1 low high hlt mid hnone =>
    have : r.index.size ≤ mid := Array.getElem?_eq_none_iff.mp hnone
    omega
  | case2 low high hlt mid node hnode hless ih =>
    obtain ⟨hplace, hall⟩ := ih (by omega) (by omega) hlow fun i n hi hn => hmono mid i node n hi hnode hn hless
    exact ⟨by omega, hall⟩
  | case3 low high hlt mid node hnode hless ih =>
    refine ih hsize (by omega) (fun i n hi hn => Bool.eq_false_iff.mpr fun hn' => hless ?_) hhigh
    exact hmono i mid n node (by omega) hn hnode hn'
  | case4 low high hlt => grind

namespace Sorted

theorem mem_index (hr : r.Sorted) {n : Nat} : n < r.size ↔ ∃ i : Nat, r.index[i]? = some n := by
  rw [← mem_range, ← hr.perm.mem_iff, Array.mem_toList_iff, Array.mem_iff_getElem?]

theorem nameLess_of_lt (hr : r.Sorted) {i j n m : Nat} (hij : i < j) (hn : r.index[i]? = some n)
    (hm : r.index[j]? = some m) : nameLess (r.nameOf n) (r.nameOf m) = true := by
  obtain ⟨hi, rfl⟩ := Array.getElem?_eq_some_iff.mp hn
  obtain ⟨hj, rfl⟩ := Array.getElem?_eq_some_iff.mp hm
  exact pairwise_iff_getElem.mp hr.sorted i j hi hj hij

theorem lt_size_of_lookup? (hr : r.Sorted) (h : r.lookup? name = some node) : node < r.size := by
  refine hr.mem_index.mpr ?_
  grind [lookup?, search]

theorem definitions_perm (hr : r.Sorted) : r.definitions.Perm r.graph.data.toList := by
  have hall : (List.range r.size).map r.get? = r.graph.data.toList.map some := by
    refine ext_getElem (by simp [size]) fun i hi _ => ?_
    have hi' : i < r.graph.data.size := by simpa [size] using hi
    simp [get?, hi']
  calc r.definitions
    _ |>.Perm ((List.range r.size).filterMap r.get?) := hr.perm.filterMap r.get?
    _ = ((List.range r.size).map r.get?).filterMap id := by rw [filterMap_map]; rfl
    _ = r.graph.data.toList := by rw [hall, filterMap_map]; exact filterMap_some

theorem definitions_pairwise (hr : r.Sorted) : r.definitions.Pairwise fun d e => nameLess d.name e.name = true := by
  refine pairwise_filterMap.mpr (hr.sorted.imp fun hless d hd e he => ?_)
  rwa [nameOf_eq hd, nameOf_eq he] at hless

variable {names : Set String} (h : ConcordantOn names) (hr : r.Sorted)
  (hnames : ∀ n < r.size, r.nameOf n ∈ names) (hname : name ∈ names)
include h hr hnames hname

theorem place : r.upperBound name 0 r.index.size ≤ r.index.size ∧ ∀ i n : Nat, r.index[i]? = some n →
    (nameLess name (r.nameOf n) = true ↔ r.upperBound name 0 r.index.size ≤ i) := by
  refine upperBound_spec (Nat.le_refl _) (Nat.zero_le _) (fun i j n m hij hn hm hless => ?_) (by simp) ?_
  · rcases Nat.eq_or_lt_of_le hij with rfl | hij
    · rwa [← Option.some.inj (hn.symm.trans hm)]
    · exact nameLess_trans h hname (hnames n (hr.mem_index.mpr ⟨i, hn⟩)) (hnames m (hr.mem_index.mpr ⟨j, hm⟩)) hless
        (hr.nameLess_of_lt hij hn hm)
  grind

/-- **A name is found exactly if it has been defined.** -/
theorem lookup?_eq_some_iff : r.lookup? name = some node ↔ node < r.size ∧ r.nameOf node = name := by
  obtain ⟨hsize, hplace⟩ := place h hr hnames hname
  constructor
  · exact fun hfound => ⟨hr.lt_size_of_lookup? hfound, nameOf_of_lookup? hfound⟩
  · rintro ⟨hlt, rfl⟩
    obtain ⟨i, hi⟩ := hr.mem_index.mp hlt
    -- the name itself is the last one that it does not come before
    have hirrefl := nameLess_irrefl (r.nameOf node)
    have hlast : r.upperBound (r.nameOf node) 0 r.index.size = i + 1 := by
      have hle : ¬r.upperBound (r.nameOf node) 0 r.index.size ≤ i := by
        rw [← hplace i node hi, hirrefl]
        simp
      by_contra hne
      have hnext : r.index[i + 1]? = some r.index[i + 1] := Array.getElem?_eq_getElem (by omega)
      have := (hplace (i + 1) _ hnext).mp (hr.nameLess_of_lt (Nat.lt_succ_self i) hi hnext)
      omega
    unfold lookup? search
    simp [hlast, hi, hirrefl]

theorem define (hnew : r.define name feature pos = .ok (node, r')) : r'.Sorted := by
  obtain ⟨rfl, hdefined⟩ := define_eq_ok hnew
  obtain ⟨hle, hplace⟩ := place h hr hnames hname
  obtain ⟨hnone, hindex⟩ : r.lookup? name = none ∧ r'.index.toList =
      r.index.toList.insertIdx (r.upperBound name 0 r.index.size) r.size := by
    have hfirst : (r.search name).1 = r.upperBound name 0 r.index.size := by
      unfold search
      dsimp only
      split <;> rfl
    unfold Registry.define at hnew
    split at hnew
    · cases hnew
    · rename_i place hsearch
      obtain rfl : place = r.upperBound name 0 r.index.size := by rw [← hfirst, hsearch]
      obtain ⟨-, rfl⟩ := Prod.mk.inj (Except.ok.inj hnew)
      refine ⟨congrArg Prod.snd hsearch, ?_⟩
      rw [Array.insertIdxIfInBounds, dif_pos hle, Array.toList_insertIdx]
      rfl
  have hkept : ∀ n < r.size, r'.nameOf n = r.nameOf n := fun n hn => hdefined.grows.nameOf hn
  have hsplit : ∀ (xs : List Nat) (i : Nat), i ≤ xs.length →
      xs.insertIdx i r.size = xs.take i ++ r.size :: xs.drop i := by
    intro xs i hi
    induction i generalizing xs with
    | zero => rfl
    | succ i ih =>
      cases xs with
      | nil => cases hi
      | cons x xs => simp [ih xs (by simpa using hi)]
  refine ⟨?_, ?_⟩
  · rw [hindex, hdefined.size, range_succ]
    exact ((perm_insertIdx _ _ hle).trans (hr.perm.cons _)).trans (perm_append_singleton _ _).symm
  · have hmem : ∀ {n : Nat}, n ∈ r.index.toList → n < r.size := fun hn => mem_range.mp (hr.perm.mem_iff.mp hn)
    have hsorted : r.index.toList.Pairwise fun n m => nameLess (r'.nameOf n) (r'.nameOf m) = true :=
      hr.sorted.imp_of_mem fun hn hm hless => by rwa [hkept _ (hmem hn), hkept _ (hmem hm)]
    rw [← take_append_drop (r.upperBound name 0 r.index.size) r.index.toList, pairwise_append] at hsorted
    obtain ⟨hbefore, hafter, hacross⟩ := hsorted
    have hless : ∀ n ∈ r.index.toList.take (r.upperBound name 0 r.index.size),
        nameLess (r'.nameOf n) (r'.nameOf r.size) = true := by
      intro n hn
      obtain ⟨i, hi, rfl⟩ := mem_take_iff_getElem.mp hn
      have hlt := hmem (mem_of_mem_take hn)
      rw [hkept _ hlt, hdefined.name, nameLess_eq_not, Bool.not_eq_true', ← Bool.not_eq_true]
      · rw [hplace i _ (by simp)]
        omega
      · intro heq
        have hfound := (lookup?_eq_some_iff h hr hnames hname).mpr ⟨hlt, heq⟩
        rw [hnone] at hfound
        cases hfound
    have hgreater : ∀ n ∈ r.index.toList.drop (r.upperBound name 0 r.index.size),
        nameLess (r'.nameOf r.size) (r'.nameOf n) = true := by
      intro n hn
      have hlt := hmem (mem_of_mem_drop hn)
      obtain ⟨i, hi, rfl⟩ := mem_drop_iff_getElem.mp hn
      rw [hkept _ hlt, hdefined.name, hplace (r.upperBound name 0 r.index.size + i) _ (by simp)]
      omega
    rw [hindex, hsplit _ _ hle, pairwise_append, pairwise_cons]
    refine ⟨hbefore, ⟨hgreater, hafter⟩, fun n hn m hm => ?_⟩
    rcases mem_cons.mp hm with rfl | hm
    · exact hless n hn
    · exact hacross n hn m hm

end Sorted

/-- The registries `r` and `r'` have the same names in the same order. -/
structure SameNames (r r' : Registry) : Prop where
  index : r'.index = r.index
  names : r'.graph.data.map (·.name) = r.graph.data.map (·.name)

namespace SameNames

theorem trans {r'' : Registry} (h : SameNames r r') (h' : SameNames r' r'') : SameNames r r'' :=
  ⟨h'.index.trans h.index, h'.names.trans h.names⟩

theorem modify {f : Definition → Definition} (hf : ∀ d, r.get? node = some d → (f d).name = d.name) :
    SameNames r (r.modify node f) := by
  refine ⟨rfl, Array.ext_getElem? fun i => ?_⟩
  show ((r.graph.data.modify node f).map _)[i]? = _
  rw [Array.getElem?_map, Array.getElem?_map, Array.getElem?_modify]
  split_ifs with hi
  · subst hi
    cases hd : r.graph.data[node]? with
    | none => rfl
    | some d => exact congrArg some (hf d hd)
  · rfl

theorem release {d : Definition} (h : r.release node d = .ok r') : SameNames r r' := by
  unfold Registry.release at h
  split_ifs at h with hreleased
  · cases h
    exact ⟨rfl, rfl⟩
  · dsimp only at h
    split at h
    · cases h
      have hmodify : SameNames r (r.modify node fun d => { d with released := true }) := modify fun _ _ => rfl
      exact ⟨hmodify.index, hmodify.names⟩
    · cases h

theorem addRef {source : Option Nat} (h : r.addRef source name feature pos = .ok (node, r')) : SameNames r r' := by
  obtain ⟨⟨n, d⟩, -, h⟩ := except_bind_eq_ok h
  change (if d.feature ≠ feature then _ else _) = _ at h
  have hmodify : SameNames r (r.modify n fun d =>
      { d with refCount := d.refCount + 1, totalRefs := d.totalRefs + 1 }) := modify fun _ _ => rfl
  split_ifs at h
  · cases h
  · cases source with
    | none =>
      cases h
      exact hmodify
    | some s =>
      cases h
      exact hmodify.trans ⟨rfl, congrArg _ (Graph.data_insertEdge _ _ _)⟩

theorem bind {id : Int} (h : r.bind node pos = .ok (id, r')) : SameNames r r' := by
  unfold Registry.bind at h
  split at h
  · cases h
  rename_i d hd
  split_ifs at h
  obtain ⟨x, -, h⟩ := except_bind_eq_ok h
  change (if d.refCount = 0 then _ else _) = _ at h
  have hbound : SameNames r ((r.setIdPool d.feature x.2).modify node fun _ => { d with id := x.1 }) :=
    (SameNames.mk rfl rfl : SameNames r (r.setIdPool d.feature x.2)).trans <| modify fun e he => by
      rw [Option.some.inj (he.symm.trans hd)]
  split_ifs at h
  · obtain ⟨s, hrelease, ⟨⟩⟩ := except_bind_eq_ok h
    exact hbound.trans (release hrelease)
  · cases h
    exact hbound

theorem bindRef {id : Int} (h : r.bindRef name pos = .ok (id, r')) : SameNames r r' := by
  obtain ⟨⟨node, d⟩, hfind, h⟩ := except_bind_eq_ok h
  obtain ⟨hd, -⟩ := of_find_eq_ok hfind
  obtain ⟨s, hremove, ⟨⟩⟩ := except_bind_eq_ok h
  unfold removeRef at hremove
  have hbound : SameNames r (r.modify node fun _ => { d with refCount := d.refCount - 1 }) :=
    modify fun e he => by rw [Option.some.inj (he.symm.trans hd)]
  grind [hbound.trans, release]

theorem size (h : SameNames r r') : r'.size = r.size := by
  simpa [Registry.size] using congrArg Array.size h.names

theorem nameOf (h : SameNames r r') : r'.nameOf = r.nameOf := by
  funext n
  have hn := congrArg (fun names => (names[n]?).getD "") h.names
  simpa [Registry.nameOf, get?] using hn

theorem sorted_of (h : SameNames r r') (hr : (∀ n < r.size, r.nameOf n ∈ names) → r.Sorted)
    (hnames : ∀ n < r'.size, r'.nameOf n ∈ names) : r'.Sorted := by
  rw [h.size, h.nameOf] at hnames
  obtain ⟨hperm, hsorted⟩ := hr hnames
  refine ⟨?_, ?_⟩
  · rwa [h.index, h.size]
  · rwa [h.index, h.nameOf]

end SameNames

/-- The registries that definitions and references lead to. -/
inductive Reached : Registry → Prop
  | empty : Reached {}
  | define {r r' : Registry} {name : String} {feature : Int} {pos : Position} {node : Nat} (h : Reached r)
      (hnew : r.define name feature pos = .ok (node, r')) : Reached r'
  | addRef {r r' : Registry} {source : Option Nat} {name : String} {feature : Int} {pos : Position} {node : Nat}
      (h : Reached r) (href : r.addRef source name feature pos = .ok (node, r')) : Reached r'
  | bind {r r' : Registry} {node : Nat} {pos : Position} {id : Int} (h : Reached r)
      (hbind : r.bind node pos = .ok (id, r')) : Reached r'
  | bindRef {r r' : Registry} {name : String} {pos : Position} {id : Int} (h : Reached r)
      (hbind : r.bindRef name pos = .ok (id, r')) : Reached r'

namespace Reached

theorem sorted (h : ConcordantOn names) (hr : r.Reached) (hnames : ∀ n < r.size, r.nameOf n ∈ names) : r.Sorted := by
  induction hr with
  | empty => exact ⟨by rfl, .nil⟩
  | define hr hnew ih =>
    obtain ⟨rfl, hdefined⟩ := define_eq_ok hnew
    have hbefore : ∀ n < _, _ := fun n hn => hdefined.grows.nameOf hn ▸ hnames n (by rw [hdefined.size]; omega)
    refine (ih hbefore).define h hbefore ?_ hnew
    rw [← hdefined.name]
    exact hnames _ (by rw [hdefined.size]; omega)
  | addRef hr href ih => exact (SameNames.addRef href).sorted_of ih hnames
  | bind hr hbind ih => exact (SameNames.bind hbind).sorted_of ih hnames
  | bindRef hr hbind ih => exact (SameNames.bindRef hbind).sorted_of ih hnames

end Reached

/-- **The order of the index.** It is irreflexive, and of two different names exactly one comes first. On concordant
names it is transitive as well. A registry of such names finds a name exactly if it has been defined, and lists all
its definitions in the one order that their names have. -/
theorem nameLess_order {names : Set String} (h : ConcordantOn names) :
    (∀ a, nameLess a a = false) ∧ (∀ a b, a ≠ b → nameLess a b = !nameLess b a) ∧
    (∀ a ∈ names, ∀ b ∈ names, ∀ c ∈ names, nameLess a b = true → nameLess b c = true → nameLess a c = true) ∧
    ∀ r : Registry, r.Reached → (∀ n < r.size, r.nameOf n ∈ names) →
      (∀ name node, r.lookup? name = some node ↔ node < r.size ∧ r.nameOf node = name) ∧
      ∀ ds, r.definitions = ds ↔ ds.Perm r.graph.data.toList ∧
        ds.Pairwise fun d e => nameLess d.name e.name = true := by
  refine ⟨nameLess_irrefl, fun a b => nameLess_eq_not,
    fun a ha b hb c hc => nameLess_trans h ha hb hc, fun r hr hnames => ?_⟩
  have hsorted := hr.sorted h hnames
  refine ⟨fun name node => ?_, fun ds => ?_⟩
  · by_cases hname : name ∈ names
    · exact hsorted.lookup?_eq_some_iff h hnames hname
    · refine iff_of_false (fun hfound => hname ?_) fun hdefined => hname (hdefined.2 ▸ hnames node hdefined.1)
      rw [← nameOf_of_lookup? hfound]
      exact hnames node (hsorted.lt_size_of_lookup? hfound)
  · refine ⟨fun hds => hds ▸ ⟨hsorted.definitions_perm, hsorted.definitions_pairwise⟩, fun hds => ?_⟩
    refine (hsorted.definitions_perm.trans hds.1.symm).eq_of_pairwise (fun d e _ _ hde hed => ?_)
      hsorted.definitions_pairwise hds.2
    by_cases hne : d.name = e.name
    · rw [hne, nameLess_irrefl] at hde
      cases hde
    · rw [nameLess_eq_not hne, hed] at hde
      cases hde

/-- Two numbers of different length: the shorter one is defined last and listed first. -/
theorem nameLess_order_defined : ∃ r r' : Registry, define {} "a10" 0 {} = .ok (0, r) ∧
    r.define "a2" 0 {} = .ok (1, r') ∧ r'.lookup? "a10" = some 0 ∧
    r'.definitions = [{ name := "a2", feature := 0, pos := {} }, { name := "a10", feature := 0, pos := {} }] := by
  have hless : nameLess "a2" "a10" = true := by decide +kernel
  have hconcordant : ConcordantOn ({"a10", "a2"} : Set String) := by
    have hnumbers : Text.Concordant "a10".toList "a2".toList ∧ Text.Concordant "a2".toList "a10".toList :=
      ⟨.skip rfl (.numbers (m := 10) (n := 2) (by decide) (by decide) (by simp) (by simp)),
        .skip rfl (.numbers (m := 2) (n := 10) (by decide) (by decide) (by simp) (by simp))⟩
    rintro a (rfl | rfl) b (rfl | rfl) hne
    · exact absurd rfl hne
    · exact hnumbers.1
    · exact hnumbers.2
    · exact absurd rfl hne
  let longer : Definition := { name := "a10", feature := 0, pos := {} }
  let shorter : Definition := { name := "a2", feature := 0, pos := {} }
  have hfirst : define {} "a10" 0 {} = .ok (0, { graph := ⟨#[longer], []⟩, index := #[0] }) := by
    simp [define, search, upperBound, Graph.addNode, longer]
  have hsecond : define { graph := ⟨#[longer], []⟩, index := #[0] } "a2" 0 {} =
      .ok (1, { graph := ⟨#[longer, shorter], []⟩, index := #[1, 0] }) := by
    simp [define, search, upperBound, Graph.addNode, nameOf, get?, hless, longer, shorter]
  obtain ⟨-, -, -, hall⟩ := nameLess_order hconcordant
  obtain ⟨hfound, hlisted⟩ := hall _ ((Reached.empty.define hfirst).define hsecond) fun n hn => by
    obtain rfl | rfl : n = 0 ∨ n = 1 := by
      have : n < 2 := hn
      omega
    · exact Or.inl rfl
    · exact Or.inr rfl
  exact ⟨_, _, hfirst, hsecond, (hfound _ _).mpr ⟨Nat.zero_lt_two, rfl⟩,
    (hlisted _).mpr ⟨.swap _ _ _, List.pairwise_pair.mpr hless⟩⟩

end Registry

end Grf
