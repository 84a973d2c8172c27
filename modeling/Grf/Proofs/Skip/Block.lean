import Mathlib.Data.List.Infix
import Mathlib.Data.List.SplitLengths
import Grf.Proofs.Skip.Runs

/-! # Nested guards

A guarded list may become part of another list that is guarded again. A `Block` keeps the lists and the
wraps that were put into them apart, and `Block.flatten` inserts all wraps.

To tell equal records apart, the elements of a block are numbered, the ones that wraps insert included
(`Block.number`). No number occurs twice in the flattened block (`Block.nodup_number`).
-/

namespace Grf

open List

variable {α β : Type}

/-- A list with the wraps that have been put into it and into its parts. -/
inductive Block (α : Type)
  | leaf (xs : List α)
  | append (first second : Block α)
  | guard (wraps : List (Wrap α)) (body : Block α)

def Wrap.counted (w : Wrap α) (run : List α) : List (α × List α) :=
  match w.skip, w.label with
  | some skip, none => [(skip, run)]
  | _, _ => []

/-- The skips of the runs that are skipped by their lengths, each with its run. -/
def countedRuns : List (Wrap α) → List α → List (α × List α)
  | [], _ => []
  | w :: ws, xs => w.counted (xs.take w.length) ++ countedRuns ws (xs.drop w.length)

def Wrap.map (f : α → β) (w : Wrap α) : Wrap β := ⟨w.length, w.skip.map f, w.label.map f⟩

/-- A test and what is inserted into the list that it guards. -/
structure Guard (α : Type) where
  test : SkipCondition
  wraps : List (Wrap α)

namespace Guard

def around (g : Guard α) (xs : List α) : List α := wrapAll g.wraps xs

def map (f : α → β) (g : Guard α) : Guard β := ⟨g.test, g.wraps.map (·.map f)⟩

/-- What an optional guard makes of a list. -/
def aroundOr (g : Option (Guard α)) (xs : List α) : List α :=
  match g with
  | none => xs
  | some g => g.around xs

def wrapsOf (g : Option (Guard α)) : List (Wrap α) :=
  match g with
  | none => []
  | some g => g.wraps

end Guard

namespace Block

def flatten : Block α → List α
  | leaf xs => xs
  | append first second => first.flatten ++ second.flatten
  | guard wraps body => wrapAll wraps body.flatten

/-- All skips of a block that count the records of their runs, each with its run. -/
def counts : Block α → List (α × List α)
  | leaf _ => []
  | append first second => first.counts ++ second.counts
  | guard wraps body => countedRuns wraps body.flatten ++ body.counts

def map (f : α → β) : Block α → Block β
  | leaf xs => leaf (xs.map f)
  | append first second => append (first.map f) (second.map f)
  | guard wraps body => guard (wraps.map (·.map f)) (body.map f)

end Block

theorem wrapAll_map (f : α → β) (ws : List (Wrap α)) (xs : List α) :
    wrapAll (ws.map (·.map f)) (xs.map f) = (wrapAll ws xs).map f := by
  induction ws generalizing xs with
  | nil => rfl
  | cons w ws ih =>
    have hlist : ∀ o : Option α, (o.map f).toList = o.toList.map f := by
      intro o
      cases o <;> rfl
    show (w.map f).apply ((xs.map f).take w.length) ++ wrapAll _ ((xs.map f).drop w.length) = _
    rw [← map_drop, ih, ← map_take]
    simp [wrapAll, Wrap.apply, Wrap.map, hlist]

theorem Block.flatten_map (f : α → β) (b : Block α) : (b.map f).flatten = b.flatten.map f := by
  induction b with
  | leaf xs => rfl
  | append first second ih ih' => simp [map, flatten, ih, ih']
  | guard wraps body ih =>
    show wrapAll _ (body.map f).flatten = _
    rw [ih, wrapAll_map]
    rfl

def Wrap.number (w : Wrap α) (n : Nat) : Wrap (α × Nat) := ⟨w.length, w.skip.map (·, n), w.label.map (·, n + 1)⟩

def numberWraps : List (Wrap α) → Nat → List (Wrap (α × Nat))
  | [], _ => []
  | w :: ws, n => w.number n :: numberWraps ws (n + 2)

namespace Block

def size : Block α → Nat
  | leaf xs => xs.length
  | append first second => first.size + second.size
  | guard wraps body => 2 * wraps.length + body.size

def number : Block α → Nat → Block (α × Nat)
  | leaf xs, n => leaf (xs.zipIdx n)
  | append first second, n => append (first.number n) (second.number (n + first.size))
  | guard wraps body, n => guard (numberWraps wraps n) (body.number (n + 2 * wraps.length))

theorem map_number (b : Block α) (n : Nat) : (b.number n).map Prod.fst = b := by
  have hwraps : ∀ (ws : List (Wrap α)) (n : Nat), (numberWraps ws n).map (·.map Prod.fst) = ws := by
    intro ws
    induction ws with
    | nil => exact fun n => rfl
    | cons w ws ih =>
      intro n
      show (w.number n).map Prod.fst :: _ = _
      rw [ih]
      obtain ⟨length, skip, label⟩ := w
      cases skip <;> cases label <;> rfl
  induction b generalizing n with
  | leaf xs => simp [number, map]
  | append first second ih ih' => simp [number, map, ih, ih']
  | guard wraps body ih => simp [number, map, ih, hwraps]

end Block

theorem wrapAll_perm_take (ws : List (Wrap α)) (xs : List α) :
    (wrapAll ws xs).Perm (ws.flatMap (·.inserted) ++ xs.take (ws.map Wrap.length).sum) := by
  induction ws generalizing xs with
  | nil => exact .refl _
  | cons w ws ih =>
    classical
    have hperm := ih (xs.drop w.length)
    rw [map_cons, sum_cons, take_add]
    rw [perm_iff_count] at hperm ⊢
    intro a
    have hcount := hperm a
    simp only [wrapAll, Wrap.apply, Wrap.inserted, flatMap_cons, count_append] at hcount ⊢
    omega

theorem numbers_inserted (ws : List (Wrap α)) (n : Nat) :
    Sublist (((numberWraps ws n).flatMap (·.inserted)).map Prod.snd) (List.range' n (2 * ws.length)) := by
  induction ws generalizing n with
  | nil => exact nil_sublist _
  | cons w ws ih =>
    obtain ⟨length, skip, label⟩ := w
    have hrange : List.range' n (2 * (ws.length + 1)) = [n, n + 1] ++ List.range' (n + 2) (2 * ws.length) := by
      rfl
    rw [length_cons, hrange, numberWraps, flatMap_cons, map_append]
    refine Sublist.append ?_ (ih (n + 2))
    cases skip <;> cases label <;> simp [Wrap.number, Wrap.inserted]

namespace Block

theorem number_subperm (b : Block α) (n : Nat) :
    Subperm ((b.number n).flatten.map Prod.snd) (List.range' n b.size) := by
  induction b generalizing n with
  | leaf xs =>
    show Subperm ((xs.zipIdx n).map Prod.snd) _
    rw [zipIdx_map_snd]
    exact Subperm.refl _
  | append first second ih ih' =>
    show Subperm (((first.number n).flatten ++ _).map _) (List.range' n (first.size + second.size))
    rw [map_append, ← range'_append_1]
    exact (ih n).append (ih' (n + first.size))
  | guard wraps body ih =>
    have hperm := (wrapAll_perm_take (numberWraps wraps n) (body.number (n + 2 * wraps.length)).flatten).map Prod.snd
    rw [map_append] at hperm
    show Subperm ((wrapAll _ _).map _) (List.range' n (2 * wraps.length + body.size))
    rw [← range'_append_1]
    refine hperm.subperm.trans ((numbers_inserted wraps n).subperm.append ?_)
    exact ((take_sublist _ _).map Prod.snd).subperm.trans (ih (n + 2 * wraps.length))

theorem nodup_number (b : Block α) (n : Nat) : (b.number n).flatten.Nodup := by
  obtain ⟨ys, hperm, hsub⟩ := b.number_subperm n
  have hnodup : ((b.number n).flatten.map Prod.snd).Nodup := hperm.nodup_iff.mp (hsub.nodup (nodup_range'))
  exact hnodup.of_map Prod.snd

end Block

end Grf
