import Grf.Proofs.Pool.Partition

/-! # Scopes of a pool

A scope is what lies between a `save` and the `restore` that closes its frame: pops, some of which may fail, and further
scopes. At its end all ids are where they were, in the same order (`enclosed_inverse`). While it is open, its frame has
the ids that it has popped, in the order in which they were on the free stack (`out`). A scope within it gives its ids
back before the next pop.
-/

namespace Grf.Pool

open List

/-- What is done in a scope. -/
inductive Body
  | done
  | pop (pos : Position) (rest : Body)
  | scope (inner rest : Body)
deriving Repr

def enclosed (uses : List Use) : List Use := [.save] ++ uses ++ [.restore]

def Body.uses : Body → List Use
  | done => []
  | pop pos rest => [.pop pos] ++ rest.uses
  | scope inner rest => enclosed inner.uses ++ rest.uses

/-! ## Runs without a fault -/

/-- The answers of a run that is not ended by a fault, and the pool after it. -/
def run (p : Pool) (uses : List Use) : Option (List (Except Error (Option Int)) × Pool) :=
  if (p.trace uses).length = uses.length then
    some ((p.trace uses).map (·.answer), p.endOf (p.trace uses))
  else none

section
variable {p q m : Pool} {us vs : List Use} {use : Use} {id : Int} {id? : Option Int} {free ids : List Int}
  {as bs : List (Except Error (Option Int))}

theorem run_of_ok (h : use.apply p = .ok (id?, q)) :
    p.run (use :: us) = (q.run us).map fun x => (.ok id? :: x.1, x.2) := by
  simp only [run, trace_of_ok h, length_cons, Nat.add_right_cancel_iff]
  split <;> rfl

theorem run_of_error {e : Error} (h : use.apply p = .error (.error e)) :
    p.run (use :: us) = (p.run us).map fun x => (.error e :: x.1, x.2) := by
  simp only [run, trace_of_error h, length_cons, Nat.add_right_cancel_iff]
  split <;> rfl

theorem run_of_fault {f : Fault} (h : use.apply p = .error (.fault f)) : p.run (use :: us) = none := by
  simp [run, trace_of_fault h]

theorem run_append : p.run (us ++ vs) = (p.run us).bind fun x => (x.2.run vs).map fun y => (x.1 ++ y.1, y.2) := by
  induction us generalizing p with
  | nil =>
    show p.run vs = (p.run vs).map id
    rw [Option.map_id]
    rfl
  | cons use us ih =>
    cases h : use.apply p with
    | ok result => simp [run_of_ok h, ih, Option.map_bind, Option.bind_map, Function.comp_def]
    | error failure =>
      cases failure with
      | error e => simp [run_of_error h, ih, Option.map_bind, Option.bind_map, Function.comp_def]
      | fault f => simp [run_of_fault h]

/-! ## What a scope pops -/

/-- The pool `p`, with the peak of `r` and the ids that `r` has handed out so far. -/
def withHistory (p r : Pool) : Pool := { p with issued := r.issued, peak := r.peak, peakPos := r.peakPos }

/-- The pool `p` after it has handed out `ids` in the current frame. -/
def out (p : Pool) (ids free : List Int) : Pool :=
  { p with free, frames := p.frames.modifyHead (· ++ ids), inUse := ids.reverse ++ p.inUse }

/-- The ways in which a pop in an open frame can end, whatever has been handed out before. -/
theorem apply_pop_cases (hframes : p.frames ≠ []) (pos : Position) :
    (∃ e, ∀ r, (Use.pop pos).apply (p.withHistory r) = .error (.error e)) ∨
    ∃ id free, p.free = id :: free ∧
      (id ∈ p.inUse ∧ (∀ r, ∃ f, (Use.pop pos).apply (p.withHistory r) = .error (.fault f)) ∨
        id ∉ p.inUse ∧ ∀ r, ∃ r', (Use.pop pos).apply (p.withHistory r) =
          .ok (some id, (p.out [id] free).withHistory r')) := by
  have hpop : ∀ r, (Use.pop pos).apply (p.withHistory r) = _ := fun r => apply_pop (p := p.withHistory r) hframes pos
  simp only [hpop]
  cases hfree : p.free with
  | nil =>
    obtain ⟨e, he⟩ : ∃ e, p.exhausted pos = .error e := ⟨_, rfl⟩
    exact .inl ⟨e, fun r => by rw [popGlobal_of_nil (p := p.withHistory r) hfree, ← he]; rfl⟩
  | cons id free =>
    refine .inr ⟨id, free, rfl, ?_⟩
    by_cases hid : id ∈ p.inUse
    · refine .inl ⟨hid, fun r => ⟨.handedOutTwice p.name id, ?_⟩⟩
      simp only [popGlobal, withHistory, hfree, take, contains_eq_mem, hid, decide_true, if_true]
      rfl
    · refine .inr ⟨hid, fun r => ⟨(p.withHistory r).handOut id pos, ?_⟩⟩
      rw [popGlobal_of_cons (p := p.withHistory r) hfree hid]
      simp [Except.map, record_eq, handOut, taken, out, hfree, withHistory]

/-- Whatever has been handed out before, the uses get these answers in `p` and lead to `q`. -/
def Leads (p : Pool) (us : List Use) (answers : List (Except Error (Option Int))) (q : Pool) : Prop :=
  ∀ r, ∃ r', (p.withHistory r).run us = some (answers, q.withHistory r')

namespace Leads

theorem of_ok (h : ∀ r, ∃ r', use.apply (p.withHistory r) = .ok (id?, q.withHistory r')) :
    p.Leads [use] [.ok id?] q := by
  intro r
  obtain ⟨r', h⟩ := h r
  exact ⟨r', run_of_ok h⟩

theorem of_error {e : Error} (h : ∀ r, use.apply (p.withHistory r) = .error (.error e)) :
    p.Leads [use] [.error e] p := fun r => ⟨r, run_of_error (h r)⟩

theorem append (h : p.Leads us as m) (h' : m.Leads vs bs q) : p.Leads (us ++ vs) (as ++ bs) q := by
  intro r
  obtain ⟨r₁, hus⟩ := h r
  obtain ⟨r₂, hvs⟩ := h' r₁
  grind [run_append]

theorem enclosed (hfresh : ∀ id ∈ ids, id ∉ p.inUse) (hfree : p.free = ids ++ free)
    (h : p.save.Leads us as (p.save.out ids free)) : p.Leads (enclosed us) ([.ok none] ++ as ++ [.ok none]) p := by
  have hsave : p.Leads [.save] [.ok none] p.save := of_ok fun r => ⟨r, rfl⟩
  have hkept : p.inUse.filter (fun id => !decide (id ∈ ids)) = p.inUse :=
    filter_eq_self.mpr fun id hid => by simpa using fun hmem => hfresh id hmem hid
  have hrestore : (p.save.out ids free).Leads [.restore] [.ok none] p :=
    of_ok fun r => ⟨r, by simp [Use.apply, Pool.restore, orFault, withHistory, out, save, hfree, hkept]⟩
  exact (hsave.append h).append hrestore

end Leads

/-- No fault ends the run: it has not been ended by one, or no id is free twice, or free and in use. -/
def Safe (p : Pool) (us : List Use) : Prop :=
  (∃ r, ((p.withHistory r).run us).isSome) ∨ p.free.Nodup ∧ ∀ id ∈ p.free, id ∉ p.inUse

theorem Safe.of_append (h : p.Safe (us ++ vs)) : p.Safe us := by
  refine h.imp_left ?_
  rintro ⟨r, h⟩
  rw [run_append] at h
  exact ⟨r, Option.isSome_of_isSome_bind h⟩

theorem Safe.rest (h : p.Safe (us ++ vs)) (hleads : p.Leads us as q)
    (hkept : p.free.Nodup → (∀ id ∈ p.free, id ∉ p.inUse) → q.free.Nodup ∧ ∀ id ∈ q.free, id ∉ q.inUse) :
    q.Safe vs := by
  rcases h with ⟨r, h⟩ | h
  · obtain ⟨r', hr⟩ := hleads r
    rw [run_append, hr] at h
    exact .inl ⟨r', by simpa using h⟩
  · exact .inr (hkept h.1 h.2)

theorem Safe.save (h : p.Safe (enclosed us)) : p.save.Safe us :=
  (h.of_append.rest (Leads.of_ok fun r => ⟨r, rfl⟩) And.intro : p.save.Safe us)

/-- **What a body pops is held in the frame.** -/
theorem Body.leads (b : Body) (hframes : p.frames ≠ []) (h : p.Safe b.uses) :
    ∃ ids free as, (∀ id ∈ ids, id ∉ p.inUse) ∧ p.free = ids ++ free ∧ p.Leads b.uses as (p.out ids free) := by
  induction b generalizing p with
  | done =>
    obtain ⟨frame, frames, hcons⟩ := exists_cons_of_ne_nil hframes
    exact ⟨[], p.free, [], by simp, rfl, fun r => ⟨r, by simp [out, hcons, uses, run, trace, endOf, withHistory]⟩⟩
  | pop pos rest ih =>
    rcases apply_pop_cases hframes pos with ⟨e, herror⟩ | ⟨id, free, hfree, ⟨hid, hfault⟩ | ⟨hid, hok⟩⟩
    · have hpop := Leads.of_error herror
      obtain ⟨ids, free, as, hfresh, hfree, hrest⟩ := ih hframes (h.rest hpop And.intro)
      exact ⟨ids, free, _, hfresh, hfree, hpop.append hrest⟩
    · rcases h with ⟨r, h⟩ | ⟨-, h⟩
      · obtain ⟨f, hfault⟩ := hfault r
        rw [uses, singleton_append, run_of_fault hfault] at h
        cases h
      · exact absurd hid (h id (by simp [hfree]))
    · have hpop := Leads.of_ok hok
      have hout : (p.out [id] free).frames ≠ [] := by simpa [out] using hframes
      have hsafe := h.rest hpop fun hnodup hdisjoint => by
        rw [hfree, nodup_cons] at hnodup
        refine ⟨hnodup.2, fun i hi => not_mem_cons_of_ne_of_not_mem ?_ (hdisjoint i (hfree ▸ mem_cons_of_mem _ hi))⟩
        exact ne_of_mem_of_not_mem hi hnodup.1
      obtain ⟨ids, free', as, hfresh, hfree', hrest⟩ := ih hout hsafe
      have heq : (p.out [id] free).out ids free' = p.out (id :: ids) free' := by simp [out, Function.comp_def]
      refine ⟨id :: ids, free', _, forall_mem_cons.mpr ⟨hid, fun i hi => ?_⟩, ?_, heq ▸ hpop.append hrest⟩
      · exact not_mem_of_not_mem_cons (hfresh i hi)
      · exact hfree.trans (congrArg (id :: ·) hfree')
  | scope inner rest ihinner ihrest =>
    -- the inner scope is over, and nothing is left of it
    obtain ⟨ids, free, as, hfresh, hfree, hinner⟩ := ihinner (p := p.save) (by simp [save]) h.of_append.save
    have hscope := Leads.enclosed (p := p) hfresh hfree hinner
    obtain ⟨ids, free, as, hfresh, hfree, hrest⟩ := ihrest hframes (h.rest hscope And.intro)
    exact ⟨ids, free, _, hfresh, hfree, hscope.append hrest⟩

/-- **A scope is undone at its end.** The free stack, the frames and the ids in use are as before, and the scope gets
the same answers if it is repeated. It is not stopped by a fault if no id is free twice, or free and in use, as in
every state of a pool that has been made from a range. -/
theorem enclosed_inverse (p : Pool) (b : Body) :
    let scope := enclosed b.uses
    (∀ name first last p₀ history, ofRange? name first last = .ok p₀ → p = p₀.endOf (p₀.trace history) →
      (p.run scope).isSome) ∧
    (p.free.Nodup → (∀ id ∈ p.free, id ∉ p.inUse) → (p.run scope).isSome) ∧
    ∀ answers q, p.run scope = some (answers, q) →
      q.free = p.free ∧ q.frames = p.frames ∧ q.inUse = p.inUse ∧ ∃ q', q.run scope = some (answers, q') := by
  intro scope
  have hleads : p.Safe scope → ∃ as, p.Leads scope as p := by
    intro h
    obtain ⟨ids, free, as, hfresh, hfree, hbody⟩ := b.leads (p := p.save) (by simp [save]) h.save
    exact ⟨_, hbody.enclosed hfresh hfree⟩
  have hsome : p.free.Nodup → (∀ id ∈ p.free, id ∉ p.inUse) → (p.run scope).isSome := by
    intro hnodup hdisjoint
    obtain ⟨as, h⟩ := hleads (.inr ⟨hnodup, hdisjoint⟩)
    obtain ⟨r, hr⟩ : ∃ r, p.run scope = some (as, p.withHistory r) := h p
    rw [hr]
    rfl
  refine ⟨?_, hsome, fun answers q hq => ?_⟩
  · rintro name first last p₀ history hp₀ rfl
    obtain rfl := ofRange?_eq hp₀
    obtain ⟨hbalanced, -⟩ := trace_keeps (ofRange_balanced name first last) (ofRange_peaked name first last) history
    exact hsome (nodup_append.mp hbalanced.nodup).1 hbalanced.fresh
  · obtain ⟨as, h⟩ := hleads (.inl ⟨p, show (p.run scope).isSome by rw [hq]; rfl⟩)
    obtain ⟨r, hr⟩ : ∃ r, p.run scope = some (as, p.withHistory r) := h p
    rw [hr] at hq
    cases hq
    obtain ⟨r', hagain⟩ := h r
    exact ⟨rfl, rfl, rfl, _, hagain⟩

theorem enclosed_inverse_nested :
    let p := ofRange "ids" 3 4
    let b := Body.scope (.pop {} .done) .done
    ∃ x q, p.run (enclosed b.uses) = some x ∧ x.2.run (enclosed b.uses) = some (x.1, q) := by
  intro p b
  obtain ⟨hsome, -, hinverse⟩ := enclosed_inverse p b
  obtain ⟨x, hx⟩ := Option.isSome_iff_exists.mp (hsome "ids" 3 4 p [] rfl rfl)
  obtain ⟨-, -, -, q, hq⟩ := hinverse x.1 x.2 hx
  exact ⟨x, q, hx, hq⟩

end

end Grf.Pool
