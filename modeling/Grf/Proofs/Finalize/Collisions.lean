import Grf.Proofs.Conditional.Drafts
import Grf.Proofs.Finalize.Outcome

/-! # Registers of linked tables

Tables that references link, in either direction and over any number of tables, do not share a scratch register.
Binding changes neither the edges of the graph of references nor the slots, so the registers suffice exactly if no
component of the graph that lowering has left has more slots than there are registers (`registers_apart`).
-/

namespace Grf.Lowering

open List Registry Context

variable {R R' : Record} {rs rs' : List Record} {c c' : Context} {g g' : Graph Definition}

/-! ## Slots of components -/

/-- A record with the same slots, linked to the same definitions. -/
structure SameSlots (R R' : Record) : Prop where
  stores : R'.stores = R.stores
  touches : ∀ g n, R'.Touches g n ↔ R.Touches g n

theorem sameSlots_of_boundAs (h : R.BoundAs R') : SameSlots R R' := by
  cases h with
  | table hstream =>
    refine ⟨(filterMap_eq_of_forall₂ (hstream.imp fun _ _ hitem => ?_)).symm, fun _ _ => Iff.rfl⟩
    cases hitem <;> rfl
  | graphics | same => exact ⟨rfl, fun _ _ => Iff.rfl⟩

theorem linked_congr (h : g'.edges = g.edges) (v w : Nat) : g'.Linked v w ↔ g.Linked v w := by
  have hadjacent : g'.adjacent = g.adjacent := by
    funext v w
    simp only [Graph.adjacent, Graph.hasEdge, h]
  unfold Graph.Linked
  rw [hadjacent]

theorem touches_congr (h : g'.edges = g.edges) (R : Record) (n : Nat) : R.Touches g' n ↔ R.Touches g n := by
  unfold Record.Touches
  split
  · exact linked_congr h _ n
  · exact Iff.rfl

theorem slotsLinked_congr (h : g'.edges = g.edges) (hrs : Forall₂ SameSlots rs rs') (n : Nat) :
    slotsLinked g' rs' n = slotsLinked g rs n := by
  induction hrs with
  | nil => rfl
  | @cons R R' rs rs' hR _ ih =>
    have htouches : R'.Touches g' n ↔ R.Touches g n := (hR.touches g' n).trans (touches_congr h R n)
    by_cases hn : R.Touches g n
    · rw [slotsLinked_cons_of_touches hn, slotsLinked_cons_of_touches (htouches.mpr hn), hR.stores, ih]
    grind [slotsLinked_cons_of_not_touches]

theorem slotsLinked_reverse (g : Graph Definition) (rs : List Record) (n : Nat) :
    slotsLinked g rs.reverse n = slotsLinked g rs n := by
  simp [slotsLinked]

theorem lowerAll_open {ds : List Declaration} {limit : Int} {strings : Option StringTable}
    {sprites : Option SpriteRegistry} (h : Declaration.lowerAll ds (create limit strings sprites) = .ok rs c)
    (hopen : ∀ s, .switch s ∈ Declaration.walkAll ds → s.Open) : ∀ R ∈ rs, R.Open := by
  rintro ⟨pos, body⟩ hR
  cases body with
  | decisionTable t =>
    obtain ⟨s, hs, part, htable, hR⟩ := lowerAll_tables (create_inRange limit strings sprites) h hR rfl
    exact htable.isOpen (hopen s hs) _ hR
  | _ => exact open_of_stores rfl

theorem open_of_sameSlots (h : Forall₂ SameSlots rs rs') (hopen : ∀ R ∈ rs, R.Open) : ∀ R ∈ rs', R.Open := by
  induction h with
  | nil => simp
  | @cons R R' rs rs' hR _ ih =>
    rw [forall_mem_cons] at hopen ⊢
    grind [Record.Open, hR.stores]

/-! ## The last pass -/

theorem Apart.symm (h : Apart g R R') : Apart g R' R := fun n hn hn' slot hslot hslot' => h n hn' hn slot hslot' hslot

theorem stores_withId (R : Record) (r : Registry) : (R.withId r).stores = R.stores := by
  obtain ⟨pos, body⟩ := R
  cases body <;> rfl

theorem touches_withId (R : Record) (r : Registry) (g : Graph Definition) (n : Nat) :
    (R.withId r).Touches g n ↔ R.Touches g n := by
  obtain ⟨pos, body⟩ := R
  cases body <;> exact Iff.rfl

def Allotted (R : Record) : Prop :=
  (∀ slot ∈ R.stores, ∃ register : Int, slot = .register register ∧ 0x80 ≤ register ∧ register ≤ 0xFF) ∧ R.stores.Nodup

theorem Fresh.allotted (h : Fresh c R) : Allotted R := by
  obtain ⟨registers, hstores, hnodup, hrange, -⟩ := h
  unfold Allotted
  rw [hstores]
  refine ⟨fun slot hslot => ?_, hnodup.map fun n m hnm => by simpa using hnm⟩
  obtain ⟨register, hregister, rfl⟩ := mem_map.mp hslot
  have hbounds := mem_range'_1.mp (hrange register hregister)
  unfold firstScratch scratchCount at hbounds
  exact ⟨register, rfl, by omega, by omega⟩

/-- **The last pass fails exactly if a component has too many slots.** Otherwise it gives each slot
a register that no other slot of the component has. -/
theorem Reaches.prepareAll_spec {bound : List Record} {c₁ : Context} (h : Reaches rs c bound c₁)
    (hclosed : c.registry.graph.Closed) (hscratch : c.scratch = []) (hopen : ∀ R ∈ rs, R.Open) :
    ((∃ n, scratchCount < slotsLinked c.registry.graph rs n) ∧
      ∃ pos message c', prepareAll bound c₁ = .error (.compile .resourceExhausted pos message) c') ∨
    ((∀ n, slotsLinked c.registry.graph rs n ≤ scratchCount) ∧
      ∃ out c', prepareAll bound c₁ = .ok out c' ∧ (∀ R ∈ out, Allotted R) ∧
        out.Pairwise (Apart c.registry.graph) ∧ out.map (·.stores.length) = rs.map (·.stores.length)) := by
  obtain ⟨hscratch₁, hgraph, hbound⟩ := KeepsGraph.mapM bindRecord_boundAs rs c bound c₁ h.bind
  have hslots := hbound.imp fun _ _ => sameSlots_of_boundAs
  have hscratch₁ : c₁.scratch = [] := hscratch₁.trans hscratch
  have hclosed₁ : c₁.registry.graph.Closed := by
    intro e he
    have hsize : c₁.registry.graph.data.size = c.registry.graph.data.size := hgraph.size
    rw [hsize]
    exact hclosed e (hgraph.edges ▸ he)
  have htaken : ∀ n, c₁.takenScratch n = [] := fun n => by
    unfold takenScratch
    rw [hscratch₁]
    rfl
  have hcount : ∀ n, (c₁.takenScratch n).length + slotsLinked c₁.registry.graph bound.reverse n =
      slotsLinked c.registry.graph rs n := fun n => by
    rw [htaken, slotsLinked_reverse, slotsLinked_congr hgraph.edges hslots, length_nil, Nat.zero_add]
  have hopen₁ : ∀ R ∈ bound.reverse, R.Open := fun R hR => open_of_sameSlots hslots hopen R (mem_reverse.mp hR)
  rcases mapM_prepareRecord_spec (shares_of_nil hclosed₁ hscratch₁) hopen₁ with
    ⟨⟨n, hn⟩, pos, message, c', herror⟩ | ⟨hroom, prepared, c', hok, -, halike, hfresh, hapart⟩
  · exact .inl ⟨⟨n, hcount n ▸ hn⟩, pos, message, c', bind_of_error herror⟩
  refine .inr ⟨fun n => hcount n ▸ hroom n, prepared.reverse.map (·.withId c'.registry), c', bind_of_ok hok, ?_, ?_, ?_⟩
  · intro R hR
    obtain ⟨R, hmem, rfl⟩ := mem_map.mp hR
    unfold Allotted
    rw [stores_withId]
    exact Fresh.allotted (hfresh R (mem_reverse.mp hmem))
  · rw [pairwise_map, pairwise_reverse]
    refine hapart.imp fun {R R'} hRR' n hn hn' => ?_
    rw [touches_withId, ← touches_congr hgraph.edges] at hn hn'
    rw [stores_withId, stores_withId]
    exact Apart.symm hRR' n hn hn'
  · have hlengths : bound.reverse.map (·.stores.length) = prepared.map (·.stores.length) := by
      rw [← forall₂_eq_eq_eq, forall₂_map_left_iff, forall₂_map_right_iff]
      exact halike.imp fun _ _ h => h.2.symm
    have hlengths' : rs.map (·.stores.length) = bound.map (·.stores.length) := by
      rw [← forall₂_eq_eq_eq, forall₂_map_left_iff, forall₂_map_right_iff]
      exact hslots.imp fun _ _ h => congrArg List.length h.stores.symm
    rw [hlengths', map_map, map_reverse]
    rw [map_reverse] at hlengths
    have hwithId : ((·.stores.length) ∘ (Record.withId · c'.registry)) = fun R : Record => R.stores.length :=
      funext fun R => congrArg List.length (stores_withId R _)
    rw [hwithId, ← hlengths, reverse_reverse]

/-- **Registers of linked tables are different.** Each slot of the output has a scratch register,
and two slots of a table or of two linked tables have different ones. The last pass fails exactly if
the tables of a component have more slots together than there are registers, and then for this
reason. -/
theorem registers_apart {ds : List Declaration} {limit : Int} {strings : Option StringTable}
    {sprites : Option SpriteRegistry}
    (h : Declaration.lowerAll ds (Context.create limit strings sprites) = .ok rs c)
    (hopen : ∀ s, .switch s ∈ Declaration.walkAll ds → s.Open) :
    (∀ out c', finalize rs c = .ok out c' →
      (∀ R ∈ out, (∀ slot ∈ R.stores, ∃ register : Int, slot = .register register ∧ 0x80 ≤ register ∧
        register ≤ 0xFF) ∧ R.stores.Nodup) ∧
      out.Pairwise (Apart c.registry.graph) ∧ out.map (·.stores.length) = rs.map (·.stores.length)) ∧
    ∀ bound c₁, Reaches rs c bound c₁ →
      ((∃ pos message c', finalize rs c = .error (.compile .resourceExhausted pos message) c') ↔
        ∃ n, 128 < slotsLinked c.registry.graph rs n) ∧
      ∀ e c', finalize rs c = .error e c' → ∃ pos message, e = .compile .resourceExhausted pos message := by
  obtain ⟨hscratch, steps, hspelled, hwritten⟩ := lowerAll_written h
  have hspec : ∀ bound c₁, Reaches rs c bound c₁ → _ := fun bound c₁ hreaches =>
    hreaches.prepareAll_spec hwritten.closed hscratch (lowerAll_open h hopen)
  refine ⟨fun out c' hok => ?_, fun bound c₁ hreaches => ?_⟩
  · obtain ⟨bound, c₁, hreaches, hprepare⟩ := Reaches.of_ok hok
    rcases hspec bound c₁ hreaches with ⟨-, _, _, _, herror⟩ | ⟨-, out', c'', hok', hout⟩
    · rw [hprepare] at herror
      cases herror
    · rw [hprepare] at hok'
      cases hok'
      exact hout
  · rw [hreaches.finalize_eq]
    rcases hspec bound c₁ hreaches with ⟨hfull, pos, message, d, herror⟩ | ⟨hroom, out, c', hok, -⟩
    · refine ⟨iff_of_true ⟨pos, message, d, herror⟩ hfull, fun e c' he => ⟨pos, message, ?_⟩⟩
      rw [herror] at he
      cases he
      rfl
    · have hnone : ¬∃ n, 128 < slotsLinked c.registry.graph rs n := fun ⟨n, hn⟩ => Nat.not_lt.mpr (hroom n) hn
      refine ⟨iff_of_false ?_ hnone, ?_⟩
      · rintro ⟨_, _, _, herror⟩
        rw [hok] at herror
        cases herror
      · intro e d herror
        rw [hok] at herror
        cases herror

/-- A table that calls another one. Both compute an operand first, and the last table gets its
register first. -/
theorem registers_apart_called :
    let nested (e : Expr) : Expr := .binary .mul e
      (.binary .add (.var { num := 0x42 }) (.var { num := 0x43 }))
    let ds : List Declaration := [.switch ⟨"leaf", 0, false, 1, nested (.var { num := 0x41 }), [], some (.const 2), {}⟩,
        .switch ⟨"root", 0, false, 1, nested (.var (Expr.procedureCall (.recordRef "leaf"))), [], some (.const 7), {}⟩]
    ∃ rs c out c', Declaration.lowerAll ds (Context.create 0 none none) = .ok rs c ∧
      finalize rs c = .ok out c' ∧ out.map (·.stores) = [[.register 0x81], [.register 0x80]] ∧
      (∀ R ∈ out, (∀ slot ∈ R.stores, ∃ register : Int, slot = .register register ∧ 0x80 ≤ register ∧
        register ≤ 0xFF) ∧ R.stores.Nodup) ∧
      out.Pairwise (Apart c.registry.graph) := by
  intro nested ds
  have hpasses : passes ds [1, 0] (fun out =>
      out.map (·.stores) = [[.register 0x81], [.register 0x80]]) = true := by
    decide +kernel
  have hopen : ∀ s, .switch s ∈ Declaration.walkAll ds → s.Open := by
    intro s hs
    simp only [ds, Declaration.walkAll, Declaration.walk, List.append_nil, List.mem_append,
      List.mem_singleton, Declaration.switch.injEq] at hs
    rcases hs with rfl | rfl <;> simp [nested, Switch.Open, Expr.Open, Expr.procedureCall, Expr.recordRef]
  obtain ⟨rs, c, out, c', h, -, hok, hstores⟩ := eq_ok_of_passes hpasses
  obtain ⟨hallotted, hapart, -⟩ := (registers_apart h hopen).1 out c' hok
  exact ⟨rs, c, out, c', h, hok, of_decide_eq_true hstores, hallotted, hapart⟩

end Grf.Lowering
