import Grf.Proofs.Conditional.Scaffold
import Grf.Proofs.Lowering.Traced

/-! # Nearest assignments

What is read in a temporary parameter has been put there by the nearest assignment before. `Settled` says so of a list
of readings. It is kept when skips and labels are inserted (`Settled.pads`), and follows from the computations being
there if each temporary parameter is assigned to once (`settled_of_fed`). The parameter of a chain is an exception: its
guards read what the start or a branch has put there last.
-/

namespace Grf

open List Reading

variable {α : Type}

namespace Scaffold

def chains : Scaffold α → List (α × Scaffold α)
  | done => []
  | leaf _ _ => []
  | append first second => first.chains ++ second.chains
  | chain start arms => (start, arms) :: arms.chains
  | branch _ _ _ _ _ body rest => body.chains ++ rest.chains
  | last _ body => body.chains
  | loop _ _ _ _ body _ => body.chains

def marks : Scaffold α → List α
  | branch _ _ mark _ _ _ rest => mark ++ rest.marks
  | _ => []

/-- What leaves out the branches of a chain once one has been taken. -/
def guards : Scaffold α → List α
  | branch _ _ _ _ outer _ rest => (Guard.wrapsOf outer).flatMap Wrap.inserted ++ rest.guards
  | last g _ => g.wraps.flatMap Wrap.inserted
  | _ => []

end Scaffold

/-! ## Assignments before a place -/

/-- A reading with the number of its unit. A unit is what is lowered for one declaration, for one
condition, or for one chain of branches as such. -/
structure Entry extends Reading where
  unit : Nat

def entries (k : Nat) (us : List Reading) : List Entry := us.map (⟨·, k⟩)

theorem record_entries (k : Nat) (us : List Reading) : (entries k us).map (·.record) = us.map record := by
  simp [entries, Function.comp_def]

def Entry.assigns (t : Int) (u : Entry) : Bool := decide (u.record.target? = some t)

/-- The nearest assignment to a parameter before the end of a list. -/
def Nearest (us : List Entry) (t : Int) (a : Entry) : Prop :=
  ∃ start mid, us = start ++ a :: mid ∧ a.assigns t = true ∧ ∀ u ∈ mid, u.assigns t = false

section Nearest

variable {us vs : List Entry} {t : Int} {a : Entry}

section
variable (h : Nearest us t a)
include h

theorem Nearest.mem : a ∈ us := by
  obtain ⟨start, mid, rfl, -, -⟩ := h
  simp

theorem Nearest.assigns : a.assigns t = true := by
  obtain ⟨start, mid, -, ha, -⟩ := h
  exact ha

theorem Nearest.append_left (vs : List Entry) : Nearest (vs ++ us) t a := by
  obtain ⟨start, mid, rfl, ha, hmid⟩ := h
  exact ⟨vs ++ start, mid, by simp, ha, hmid⟩

theorem Nearest.append_right (hvs : ∀ v ∈ vs, v.assigns t = false) : Nearest (us ++ vs) t a := by
  obtain ⟨start, mid, rfl, ha, hmid⟩ := h
  exact ⟨start, mid ++ vs, by simp, ha, forall_mem_append.mpr ⟨hmid, hvs⟩⟩

theorem Nearest.pads {P : Entry → Prop} (hpads : Pads P us vs)
    (hP : ∀ y, P y → y.assigns t = false) : Nearest vs t a := by
  obtain ⟨start, mid, rfl, ha, hmid⟩ := h
  obtain ⟨zs, rest, rfl, hstart, hrest⟩ := hpads.of_append
  obtain ⟨inserted, mid', rfl, -, hmid'⟩ := hrest.of_cons
  refine ⟨zs ++ inserted, mid', by simp, ha, fun u hu => ?_⟩
  grind [hmid'.mem]

end

theorem exists_nearest (h : ∃ u ∈ us, u.assigns t = true) : ∃ a, Nearest us t a := by
  induction us with
  | nil =>
    obtain ⟨u, ⟨⟩, -⟩ := h
  | cons v us ih =>
    by_cases hlater : ∃ u ∈ us, u.assigns t = true
    · obtain ⟨a, ha⟩ := ih hlater
      exact ⟨a, ha.append_left [v]⟩
    · have hnone : ∀ u ∈ us, u.assigns t = false := by
        simp_all
      obtain ⟨u, hu, hassigns⟩ := h
      rcases mem_cons.mp hu with rfl | hu
      · exact ⟨u, [], us, rfl, hassigns, hnone⟩
      · exact absurd ⟨u, hu, hassigns⟩ hlater

theorem nearest_of_computedIn {rs : List Reading} {p : Int × Expr} (k : Nat) (h : ComputedIn rs p)
    (ht : IsTemporary p.1) (hnodup : (temporaries (rs.map record)).Nodup) :
    ∃ a, Nearest (entries k rs) p.1 a ∧ a.value = some p.2 ∧ a.unit = k := by
  obtain ⟨a, ha, htarget, hvalue⟩ := h
  obtain ⟨start, mid, rfl⟩ := append_of_mem ha
  refine ⟨⟨a, k⟩, ⟨entries k start, entries k mid, by simp [entries], ?_, fun u hu => ?_⟩, hvalue, rfl⟩
  · simp [Entry.assigns, htarget]
  -- another assignment would be there a second time
  obtain ⟨u, hmem, rfl⟩ := mem_map.mp hu
  by_contra hassigns
  have hu' : u.record.target? = some p.1 := by simpa [Entry.assigns] using hassigns
  have hsecond : p.1 ∈ temporaries (mid.map record) :=
    mem_temporaries.mpr ⟨ht, u.record, mem_map.mpr ⟨u, hmem, rfl⟩, hu'⟩
  have hfirst : p.1 ∈ temporaries [a.record] := mem_temporaries.mpr ⟨ht, a.record, by simp, htarget⟩
  have hsplit : temporaries ((start ++ a :: mid).map record) =
      temporaries (start.map record) ++ (temporaries [a.record] ++ temporaries (mid.map record)) := by
    rw [map_append]
    show temporaries (_ ++ ([a.record] ++ mid.map record)) = _
    rw [temporaries_append, temporaries_append]
  rw [hsplit] at hnodup
  exact (nodup_append.mp (nodup_append.mp hnodup).2.1).2.2 _ hfirst _ hsecond rfl

end Nearest

/-! ## Settled readings -/

abbrev Chains := List (Entry × Scaffold Entry)

/-- What a record reads after the records `us`. The value of an expression is found in a temporary
parameter if the nearest assignment has put it there, and this has been done for the same unit. Otherwise
the record is a guard of a chain, and the nearest assignment is the start of the chain or the mark of a
branch. The guards of a chain that is not complete yet are exempt. -/
structure SettledAt (chains : Chains) (exempt : Entry → Int → Prop) (us : List Entry) (u : Entry) : Prop where
  operand : ∀ p ∈ u.operands, IsTemporary p.1 → ∃ a, Nearest us p.1 a ∧ a.value = some p.2 ∧ a.unit = u.unit
  other : ∀ t ∈ u.record.reads, IsTemporary t → (∃ e, (t, e) ∈ u.operands) ∨ exempt u t ∨
    ∃ chain ∈ chains, u ∈ chain.2.guards ∧ ∃ a, Nearest us t a ∧ (a = chain.1 ∨ a ∈ chain.2.marks)

theorem SettledAt.of_nearest {chains : Chains} {exempt : Entry → Int → Prop} {us vs : List Entry} {u : Entry}
    (h : SettledAt chains exempt us u) (hnearest : ∀ t a, Nearest us t a → Nearest vs t a) :
    SettledAt chains exempt vs u := by
  refine ⟨fun p hp ht => ?_, fun t ht htemp => ?_⟩
  · grind [h.operand]
  grind [h.other]

/-- All records of a list are settled, if the records `ctx` come before it. -/
def Settled (chains : Chains) (exempt : Entry → Int → Prop) (ctx us : List Entry) : Prop :=
  ∀ pre u post, us = pre ++ u :: post → SettledAt chains exempt (ctx ++ pre) u

section Settled

variable {chains chains' : Chains} {exempt exempt' : Entry → Int → Prop} {ctx us vs : List Entry} {u : Entry}

theorem SettledAt.mono (h : SettledAt chains exempt us u) (hchains : chains ⊆ chains')
    (hexempt : ∀ u t, exempt u t → exempt' u t) : SettledAt chains' exempt' us u where
  operand := h.operand
  other t ht htemp := by
    grind [h.other]

theorem settledAt_of_silent (h : ∀ t ∈ u.record.reads, ¬IsTemporary t) : SettledAt chains exempt us u where
  operand p hp ht := absurd ht (h p.1 (List.of_mem_zip hp).1)
  other t ht htemp := absurd htemp (h t ht)

namespace Settled

theorem mono (h : Settled chains exempt ctx us) (hchains : chains ⊆ chains')
    (hexempt : ∀ u t, exempt u t → exempt' u t) : Settled chains' exempt' ctx us :=
  fun pre u post hus => (h pre u post hus).mono hchains hexempt

theorem context (h : Settled chains exempt [] us) : Settled chains exempt ctx us := by
  intro pre u post hus
  exact (h pre u post hus).of_nearest fun _ _ ha => ha.append_left ctx

theorem append (h : Settled chains exempt ctx us) (h' : Settled chains exempt (ctx ++ us) vs) :
    Settled chains exempt ctx (us ++ vs) := by
  intro pre u post hus
  rcases append_eq_append_iff.mp hus with ⟨rest, rfl, hvs⟩ | ⟨rest, hpre, hrest⟩
  · have hsettled := h' rest u post hvs
    rwa [append_assoc] at hsettled
  · cases rest with
    | nil =>
      rw [append_nil] at hpre
      subst hpre
      have hsettled := h' [] u post hrest.symm
      rwa [append_nil] at hsettled
    | cons v rest =>
      obtain ⟨rfl, -⟩ := List.cons.inj hrest
      exact h pre u rest hpre

theorem cons (hu : SettledAt chains exempt ctx u) (h : Settled chains exempt (ctx ++ [u]) us) :
    Settled chains exempt ctx (u :: us) := by
  have hone : Settled chains exempt ctx [u] := by
    intro pre v post hus
    rcases cons_eq_append_iff.mp hus with ⟨rfl, hrest⟩ | ⟨rest, -, hrest⟩
    · obtain ⟨rfl, -⟩ := List.cons.inj hrest
      rwa [append_nil]
    · simp at hrest
  exact hone.append h

theorem of_silent (h : ∀ u ∈ us, ∀ t ∈ u.record.reads, ¬IsTemporary t) : Settled chains exempt ctx us := by
  rintro pre u post rfl
  exact settledAt_of_silent (h u (by simp))

/-- **Skips and labels that are inserted leave the other records settled.** They have to be settled
themselves, whatever part of the list comes before them. -/
theorem pads {P : Entry → Prop} (h : Settled chains exempt ctx us) (hpads : Pads P us vs)
    (hP : ∀ y, P y → y.record.target? = none)
    (hinserted : ∀ y pre pre' post', P y → us = pre' ++ post' → Pads P pre' pre →
      SettledAt chains exempt (ctx ++ pre) y) : Settled chains exempt ctx vs := by
  have hassigns : ∀ (t : Int) (y : Entry), P y → y.assigns t = false := by
    intro t y hy
    simp [Entry.assigns, hP y hy]
  rintro pre u post rfl
  rcases hpads.of_split with ⟨pre', post', rfl, hpre⟩ | ⟨hu, pre', post', hus, hpre⟩
  · have hctx : Pads P (ctx ++ pre') (ctx ++ pre) := (Pads.refl ctx).append hpre
    exact (h pre' u post' rfl).of_nearest fun t _ ha => ha.pads hctx (hassigns t)
  · exact hinserted u pre pre' post' hu hus hpre

end Settled

/-- **What a unit computes before it reads it is settled**, if each temporary parameter is assigned to
once. -/
theorem settled_of_fed {rs : List Reading} (k : Nat) (h : Fed (fun _ => False) rs)
    (hnodup : (temporaries (rs.map record)).Nodup) : Settled chains exempt [] (entries k rs) := by
  intro pre u post hsplit
  obtain ⟨pre, rest, rfl, rfl, hrest⟩ := map_eq_append_iff.mp hsplit
  obtain ⟨u, post, rfl, rfl, rfl⟩ := map_eq_cons_iff.mp hrest
  have hsupplies := h.at_split
  have hpre : (temporaries (pre.map record)).Nodup := by
    grind [temporaries_append]
  refine ⟨fun p hp ht => ?_, fun t ht htemp => .inl (hsupplies.covers t ht htemp)⟩
  exact nearest_of_computedIn k ((hsupplies.of_mem_zip p hp ht).resolve_left id) ht hpre

end Settled

end Grf
