import Grf.Proofs.Finalize.Shapes
import Grf.Proofs.Table.Slots

/-! # Scratch registers

Each decision table takes its registers from those that no linked table has taken before. As all
tables that are linked see the same registers taken (`Shares`), a register is taken once among them,
and a table finds none left only if all of them together have more slots than there are registers
(`mapM_prepareRecord_spec`).
-/

namespace Grf

open List

namespace Context

variable {c : Context} {n : Nat}

theorem takenScratch_reserveScratch (c : Context) (register node n : Nat) :
    (c.reserveScratch register node).takenScratch n =
      if n = node then register :: c.takenScratch node else c.takenScratch n := by
  unfold takenScratch reserveScratch
  by_cases hn : n = node
  · simp [hn, takenScratch]
  · rw [if_neg hn, lookup_cons, beq_eq_false_iff_ne.mpr hn]
    rw [lookup_filter_of_ne hn]

theorem takenScratch_foldl (register : Nat) {nodes : List Nat} (hnodup : nodes.Nodup) (c : Context) (n : Nat) :
    (nodes.foldl (fun c node => c.reserveScratch register node) c).takenScratch n =
      if n ∈ nodes then register :: c.takenScratch n else c.takenScratch n := by
  induction nodes generalizing c with
  | nil => rfl
  | cons node nodes ih =>
    obtain ⟨hnot, hnodup⟩ := nodup_cons.mp hnodup
    rw [foldl_cons, ih hnodup, takenScratch_reserveScratch]
    by_cases hn : n = node
    · subst hn
      simp [hnot]
    · simp [hn]

/-- Definitions that are linked have the same registers taken, each once. -/
structure Shares (c : Context) : Prop where
  closed : c.registry.graph.Closed
  linked : ∀ v w, c.registry.graph.Linked v w → c.takenScratch v = c.takenScratch w
  nodup : ∀ v, (c.takenScratch v).Nodup
  range : ∀ v, ∀ register ∈ c.takenScratch v, register ∈ List.range' firstScratch scratchCount

theorem shares_of_nil (hclosed : c.registry.graph.Closed) (hscratch : c.scratch = []) : c.Shares := by
  have htaken : ∀ v, c.takenScratch v = [] := by
    intro v
    unfold takenScratch
    rw [hscratch]
    rfl
  exact ⟨hclosed, fun v w _ => by rw [htaken, htaken], fun v => by simp [htaken], fun v => by simp [htaken]⟩

theorem Shares.length_le (h : c.Shares) (v : Nat) : (c.takenScratch v).length ≤ scratchCount := by
  have hle := ((h.nodup v).subperm (h.range v)).length_le
  rwa [length_range'] at hle

theorem Shares.available (h : c.Shares) (v : Nat) :
    (scratchCount ≤ (c.takenScratch v).length ∧ c.availableScratch v = []) ∨
    ((c.takenScratch v).length < scratchCount ∧ ∃ register rest, c.availableScratch v = register :: rest ∧
      register ∉ c.takenScratch v ∧ register ∈ List.range' firstScratch scratchCount) := by
  have hsub : c.takenScratch v ⊆ List.range' firstScratch scratchCount := h.range v
  have hlength : (List.range' firstScratch scratchCount).length = scratchCount := length_range'
  cases havailable : c.availableScratch v with
  | nil =>
    refine .inl ⟨?_, rfl⟩
    have hall : List.range' firstScratch scratchCount ⊆ c.takenScratch v := by
      intro register hregister
      by_contra hnot
      have hmem : register ∈ c.availableScratch v := mem_filter.mpr ⟨hregister, by simpa using hnot⟩
      rw [havailable] at hmem
      cases hmem
    have hnodup : (List.range' firstScratch scratchCount).Nodup := nodup_range'
    have hle := (hnodup.subperm hall).length_le
    rwa [hlength] at hle
  | cons register rest =>
    have hmem : register ∈ c.availableScratch v := by simp [havailable]
    obtain ⟨hregister, hnot⟩ := mem_filter.mp hmem
    have hnot : register ∉ c.takenScratch v := by simpa using hnot
    refine .inr ⟨?_, register, rest, rfl, hnot, hregister⟩
    have hnodup : (register :: c.takenScratch v).Nodup := nodup_cons.mpr ⟨hnot, h.nodup v⟩
    have hle := (hnodup.subperm (cons_subset.mpr ⟨hregister, hsub⟩)).length_le
    exact hle

end Context

/-! ## Tables -/

/-- The registers `registers` have been taken for the definitions that are `touched`, each by a slot
of its own. -/
structure Claims (c : Context) (touched : Nat → Prop) (registers : List Nat) (c' : Context) : Prop where
  registry : c'.registry = c.registry
  shares : c'.Shares
  taken : ∀ n, touched n → c'.takenScratch n = registers ++ c.takenScratch n
  others : ∀ n, ¬touched n → c'.takenScratch n = c.takenScratch n

namespace Claims

variable {c c' c'' : Context} {touched : Nat → Prop} {registers registers' : List Nat}

theorem refl (h : c.Shares) : Claims c touched [] c := ⟨rfl, h, fun _ _ => rfl, fun _ _ => rfl⟩

theorem trans (h : Claims c touched registers c') (h' : Claims c' touched registers' c'') :
    Claims c touched (registers' ++ registers) c'' where
  registry := h'.registry.trans h.registry
  shares := h'.shares
  taken n hn := by rw [h'.taken n hn, h.taken n hn, append_assoc]
  others n hn := by rw [h'.others n hn, h.others n hn]

end Claims

namespace Lowering

open Context

variable {α : Type} {c : Context} {v : Nat} {name : String} {pos : Position}

theorem reserveRegister_spec (h : c.Shares) : (scratchCount ≤ (c.takenScratch v).length ∧ ∃ message,
      reserveRegister v name pos c = .error (.compile .resourceExhausted pos message) c) ∨
    ((c.takenScratch v).length < scratchCount ∧ ∃ (register : Nat) (c' : Context),
      reserveRegister v name pos c = .ok (register : Int) c' ∧ Claims c (c.registry.graph.Linked v) [register] c') := by
  rcases h.available v with ⟨hfull, hnil⟩ | ⟨hroom, register, rest, hcons, hnot, hregister⟩ <;>
    rcases reserveRegister_cases c v name pos with ⟨hnil', message, herror⟩ | ⟨register', rest', hcons', hok⟩
  · exact .inl ⟨hfull, message, herror⟩
  · cases hnil.symm.trans hcons'
  · cases hcons.symm.trans hnil'
  obtain ⟨rfl, rfl⟩ := List.cons.inj (hcons.symm.trans hcons')
  refine .inr ⟨hroom, register, _, hok, ?_⟩
  have hregistry := registry_foldl register (v :: c.registry.graph.connected v) c
  have htaken := takenScratch_foldl register (Graph.nodup_component h.closed (v := v)) c
  generalize (v :: c.registry.graph.connected v).foldl (fun c node => c.reserveScratch register node) c = c'
    at hregistry htaken
  have hlinked : ∀ n, c.registry.graph.Linked v n → c'.takenScratch n = register :: c.takenScratch v := by
    intro n hn
    rw [htaken, if_pos ((Graph.mem_component h.closed).mpr hn), h.linked v n hn]
  have hothers : ∀ n, ¬c.registry.graph.Linked v n → c'.takenScratch n = c.takenScratch n := by
    intro n hn
    rw [htaken, if_neg (fun hmem => hn ((Graph.mem_component h.closed).mp hmem))]
  refine ⟨hregistry, ⟨hregistry ▸ h.closed, fun u w huw => ?_, fun n => ?_, fun n => ?_⟩, fun n hn => ?_, hothers⟩
  · -- the component of `v` takes the register as a whole
    rw [hregistry] at huw
    by_cases hu : c.registry.graph.Linked v u
    · rw [hlinked u hu, hlinked w (hu.trans huw)]
    · rw [hothers u hu, hothers w fun hw => hu (hw.trans huw.symm), h.linked u w huw]
  · by_cases hn : c.registry.graph.Linked v n
    · grind [h.nodup]
    · rw [hothers n hn]
      exact h.nodup n
  · by_cases hn : c.registry.graph.Linked v n
    · grind [h.range]
    · rw [hothers n hn]
      exact h.range n
  · rw [hlinked n hn, h.linked v n hn]
    rfl

abbrev slotsOf (items : List StreamItem) : List Slot := items.filterMap (·.slot?)

/-- The slots of a list of elements get registers, unless there are not enough of them left. -/
def Allots (m : Lowering α) (items : α → List StreamItem) (before : List StreamItem) (v : Nat)
    (pos : Position) (c : Context) : Prop :=
  (scratchCount < (c.takenScratch v).length + (slotsOf before).length ∧ ∃ message c',
    m c = .error (.compile .resourceExhausted pos message) c') ∨
  ((c.takenScratch v).length + (slotsOf before).length ≤ scratchCount ∧
    ∃ (a : α) (registers : List Nat) (c' : Context), m c = .ok a c' ∧
      Claims c (c.registry.graph.Linked v) registers.reverse c' ∧
      registers.length = (slotsOf before).length ∧
      slotsOf (items a) = registers.map (fun n : Nat => Slot.register n))

theorem assignStore_allots {item : StreamItem} (h : c.Shares) (hopen : ∀ slot ∈ item.slot?, slot.register? = none) :
    Allots (assignStore v name pos item) (fun x => [x.1]) [item] v pos c := by
  have hreserve : ∀ (slot : Slot) (x : Int → Option (Nat × Int)), item = .operand (.store slot) →
      assignStore v name pos item = (do
        let register ← reserveRegister v name pos
        return (.operand (.store (.register register)), x register)) →
      Allots (assignStore v name pos item) (fun x => [x.1]) [item] v pos c := by
    rintro slot x rfl hassign
    rw [hassign]
    rcases reserveRegister_spec h with ⟨hfull, message, herror⟩ | ⟨hroom, register, c', hok, hclaims⟩
    · exact .inl ⟨Nat.lt_succ_of_le hfull, message, c, bind_of_error herror⟩
    · exact .inr ⟨hroom, _, [register], c', bind_of_ok hok, hclaims, rfl, rfl⟩
  by_cases hslot : ∃ slot, item = .operand (.store slot)
  · obtain ⟨slot, rfl⟩ := hslot
    cases slot with
    | register number => cases hopen _ rfl
    | spill number => exact hreserve _ (fun register => some (number, register)) rfl rfl
    | unassigned => exact hreserve _ (fun _ => none) rfl rfl
  · have hnone : item.slot? = none := by
      unfold StreamItem.slot?
      split
      · exact absurd ⟨_, rfl⟩ hslot
      · rfl
    have hpure : assignStore v name pos item = Pure.pure (item, none) := by
      unfold assignStore
      split
      · exact absurd ⟨_, rfl⟩ hslot
      · exact absurd ⟨_, rfl⟩ hslot
      · rfl
    have hslots : slotsOf [item] = [] := by simp [slotsOf, hnone]
    unfold Allots
    rw [hpure, hslots]
    refine .inr ⟨?_, (item, none), [], c, rfl, .refl h, rfl, hslots⟩
    exact h.length_le v

theorem mapM_assignStore_allots {items : List StreamItem} (h : c.Shares)
    (hopen : ∀ slot ∈ slotsOf items, slot.register? = none) :
    Allots (items.mapM (assignStore v name pos)) (·.map (·.1)) items v pos c := by
  induction items generalizing c with
  | nil => exact .inr ⟨h.length_le v, [], [], c, rfl, .refl h, rfl, rfl⟩
  | cons item items ih =>
    have hcons : slotsOf (item :: items) = slotsOf [item] ++ slotsOf items := filterMap_append (l := [item])
    rw [hcons, forall_mem_append] at hopen
    have hitem : ∀ slot ∈ item.slot?, slot.register? = none := fun slot hslot =>
      hopen.1 slot (mem_filterMap.mpr ⟨item, by simp, hslot⟩)
    unfold Allots
    rw [hcons, length_append, List.mapM_cons]
    rcases assignStore_allots h hitem with ⟨hfull, message, c', herror⟩ |
      ⟨hroom, x, registers, c', hok, hclaims, hlength, hslots⟩
    · exact .inl ⟨by omega, message, c', bind_of_error herror⟩
    have htaken : (c'.takenScratch v).length = (c.takenScratch v).length + (slotsOf [item]).length := by
      rw [hclaims.taken v (.refl _ v), length_append, length_reverse, hlength, Nat.add_comm]
    rw [bind_of_ok hok]
    rcases ih hclaims.shares hopen.2 with ⟨hfull, message, c'', herror⟩ |
      ⟨hroom', out, registers', c'', hok', hclaims', hlength', hslots'⟩
    · exact .inl ⟨by omega, message, c'', bind_of_error herror⟩
    · refine .inr ⟨by omega, x :: out, registers ++ registers', c'', bind_of_ok hok', ?_, ?_, ?_⟩
      · grind [hclaims.registry, hclaims.trans]
      · rw [length_append, hlength, hlength']
      grind

end Lowering

/-- The definitions that are linked to the one of a decision table. -/
def Record.Touches (g : Graph Definition) (R : Record) (n : Nat) : Prop :=
  match R.body with
  | .decisionTable t => g.Linked t.node n
  | _ => False

/-- A record after its last step, which differs from the one before in its scratch registers only. -/
structure Record.Alike (R R' : Record) : Prop where
  references : R'.references = R.references
  named : R'.named? = R.named?
  feature : R'.feature? = R.feature?
  touches : ∀ g n, R'.Touches g n ↔ R.Touches g n

theorem Record.PreparedAs.alike {R R' : Record} (h : R.PreparedAs R') : R.Alike R' := by
  cases h with
  | @table pos t stores h =>
    refine ⟨?_, rfl, rfl, fun _ _ => Iff.rfl⟩
    refine congrArg (fun refs => refs ++ t.ranges.filterMap (·.result.reference?) ++ t.default.reference?.toList) ?_
    rw [filterMap_map]
    refine (filterMap_eq_of_forall₂ (h.imp fun item x hx => ?_)).symm
    show _ = (Lowering.assignLoad _ x.1).reference?
    cases hx with
    | spill | unassigned => rfl
    | same =>
      dsimp only
      unfold Lowering.assignLoad
      split
      · split <;> rfl
      · rfl
  | same => exact ⟨rfl, rfl, rfl, fun _ _ => Iff.rfl⟩

/-- A record whose slots have registers of their own, which `c` had not taken for a definition linked to the record.
-/
def Fresh (c : Context) (R : Record) : Prop :=
  ∃ registers : List Nat, R.stores = registers.map (fun n : Nat => Slot.register n) ∧ registers.Nodup ∧
    (∀ register ∈ registers, register ∈ List.range' Context.firstScratch Context.scratchCount) ∧
    ∀ n, R.Touches c.registry.graph n → ∀ register ∈ registers, register ∉ c.takenScratch n

namespace Lowering

open Context

variable {c : Context} {R : Record} {g : Graph Definition}

theorem slot?_assignLoad (registers : List (Nat × Int)) (item : StreamItem) :
    (assignLoad registers item).slot? = item.slot? := by
  unfold assignLoad
  split
  · split <;> rfl
  · rfl

theorem prepareRecord_spec (h : c.Shares) (hopen : R.Open) :
    ((∃ n, R.Touches c.registry.graph n ∧ scratchCount < (c.takenScratch n).length + R.stores.length) ∧
      ∃ pos message c', prepareRecord R c = .error (.compile .resourceExhausted pos message) c') ∨
    ((∀ n, R.Touches c.registry.graph n → (c.takenScratch n).length + R.stores.length ≤ scratchCount) ∧
      ∃ R' registers c', prepareRecord R c = .ok R' c' ∧
        Claims c (R.Touches c.registry.graph) registers c' ∧ registers.length = R.stores.length ∧
        R'.stores.length = R.stores.length ∧ Fresh c R' ∧ ∀ n, R.Touches c.registry.graph n →
          ∀ slot ∈ R'.stores, ∃ register ∈ c'.takenScratch n, slot = .register (register : Nat)) := by
  obtain ⟨pos, body⟩ := R
  cases body with
  | decisionTable t =>
    rw [prepareRecord_table]
    have htaken : ∀ n, c.registry.graph.Linked t.node n → c.takenScratch n = c.takenScratch t.node :=
      fun n hn => (h.linked t.node n hn).symm
    rcases mapM_assignStore_allots h hopen with ⟨hfull, message, c', herror⟩ |
      ⟨hroom, out, registers, c', hok, hclaims, hlength, hslots⟩
    · exact .inl ⟨⟨t.node, .refl _ _, hfull⟩, pos, message, c', bind_of_error herror⟩
    · have hnodup : ∀ n, c.registry.graph.Linked t.node n →
          (registers.reverse ++ c.takenScratch n).Nodup := fun n hn => by
        rw [← hclaims.taken n hn]
        exact hclaims.shares.nodup n
      have hstores : (out.map fun x => assignLoad (out.filterMap (·.2)) x.1).filterMap (·.slot?) =
          registers.map fun n : Nat => Slot.register n := by
        rw [← hslots]
        show _ = List.filterMap _ (out.map _)
        simp [slot?_assignLoad]
      refine .inr ⟨fun n hn => ?_, ⟨pos, .decisionTable { t with
        stream := out.map fun x => assignLoad (out.filterMap (·.2)) x.1 }⟩, registers.reverse, c', ?_, hclaims,
        ?_, ?_, ⟨registers, hstores, ?_, ?_, fun n hn register hregister => ?_⟩, fun n hn slot hslot => ?_⟩
      · rw [htaken n hn]
        exact hroom
      · exact bind_of_ok hok
      · rw [length_reverse]
        exact hlength
      · have hcount := congrArg List.length hstores
        rw [length_map, hlength] at hcount
        exact hcount
      · exact nodup_reverse.mp (nodup_append.mp (hnodup t.node (.refl _ _))).1
      · intro register hregister
        refine hclaims.shares.range t.node register ?_
        rw [hclaims.taken t.node (.refl _ _)]
        exact mem_append_left _ (mem_reverse.mpr hregister)
      · intro hmem
        exact (nodup_append.mp (hnodup n hn)).2.2 register (mem_reverse.mpr hregister) register hmem rfl
      · change slot ∈ List.filterMap _ _ at hslot
        rw [hstores] at hslot
        obtain ⟨register, hregister, rfl⟩ := mem_map.mp hslot
        refine ⟨register, ?_, rfl⟩
        rw [hclaims.taken n hn]
        exact mem_append_left _ (mem_reverse.mpr hregister)
  | _ =>
    refine .inr ⟨fun n hn => hn.elim, _, [], c, rfl, ?_, rfl, rfl,
      ⟨[], rfl, .nil, by simp, by simp⟩, fun n hn => hn.elim⟩
    exact .refl h

/-! ## All records -/

open Classical in
/-- The number of slots of the tables that are linked to a definition. -/
noncomputable def slotsLinked (g : Graph Definition) (rs : List Record) (n : Nat) : Nat :=
  ((rs.filter fun R => R.Touches g n).map (·.stores.length)).sum

theorem slotsLinked_cons_of_touches {n : Nat} (h : R.Touches g n) (rs : List Record) :
    slotsLinked g (R :: rs) n = R.stores.length + slotsLinked g rs n := by
  grind [slotsLinked]

theorem slotsLinked_cons_of_not_touches {n : Nat} (h : ¬R.Touches g n) (rs : List Record) :
    slotsLinked g (R :: rs) n = slotsLinked g rs n := by
  unfold slotsLinked
  rw [filter_cons_of_neg (by simpa using h)]

def Apart (g : Graph Definition) (R R' : Record) : Prop :=
  ∀ n, R.Touches g n → R'.Touches g n → ∀ slot ∈ R.stores, slot ∉ R'.stores

theorem Fresh.mono {c' : Context} (h : Fresh c' R) (hregistry : c'.registry = c.registry)
    (htaken : ∀ n, c.takenScratch n ⊆ c'.takenScratch n) : Fresh c R := by
  obtain ⟨registers, hstores, hnodup, hrange, hfresh⟩ := h
  refine ⟨registers, hstores, hnodup, hrange, fun n hn register hregister hmem => ?_⟩
  exact hfresh n (hregistry ▸ hn) register hregister (htaken n hmem)

/-- **The last step of all records.** Each slot gets a register that no slot of a linked table has,
unless the tables that are linked have too many slots together. -/
theorem mapM_prepareRecord_spec {rs : List Record} (h : c.Shares) (hopen : ∀ R ∈ rs, R.Open) :
    ((∃ n, scratchCount < (c.takenScratch n).length + slotsLinked c.registry.graph rs n) ∧
      ∃ pos message c', rs.mapM prepareRecord c = .error (.compile .resourceExhausted pos message) c') ∨
    ((∀ n, (c.takenScratch n).length + slotsLinked c.registry.graph rs n ≤ scratchCount) ∧
      ∃ out c', rs.mapM prepareRecord c = .ok out c' ∧ c'.registry = c.registry ∧
        Forall₂ (fun R R' => R.Alike R' ∧ R'.stores.length = R.stores.length) rs out ∧
        (∀ R ∈ out, Fresh c R) ∧ out.Pairwise (Apart c.registry.graph)) := by
  induction rs generalizing c with
  | nil => exact .inr ⟨fun n => h.length_le n, [], c, rfl, rfl, .nil, by simp, .nil⟩
  | cons R rs ih =>
    rw [List.mapM_cons]
    rcases prepareRecord_spec h (hopen R (by simp)) with ⟨⟨n, hn, hfull⟩, pos, message, c', herror⟩ |
      ⟨-, R', registers, c', hok, hclaims, hlength, hslots, hfresh, hstores⟩
    · refine .inl ⟨⟨n, ?_⟩, pos, message, c', bind_of_error herror⟩
      rw [slotsLinked_cons_of_touches hn]
      omega
    have halike : R.Alike R' := ((prepareRecord_preparedAs R c).of_ok hok).1.alike
    -- what the first record takes is what the others have less
    have hcount : ∀ n, (c'.takenScratch n).length + slotsLinked c.registry.graph rs n =
        (c.takenScratch n).length + slotsLinked c.registry.graph (R :: rs) n := by
      intro n
      by_cases hn : R.Touches c.registry.graph n
      · rw [hclaims.taken n hn, slotsLinked_cons_of_touches hn, length_append, hlength]
        omega
      · rw [hclaims.others n hn, slotsLinked_cons_of_not_touches hn]
    have htaken : ∀ n, c.takenScratch n ⊆ c'.takenScratch n := by
      intro n
      by_cases hn : R.Touches c.registry.graph n
      · rw [hclaims.taken n hn]
        exact subset_append_right _ _
      · rw [hclaims.others n hn]
        exact Subset.refl _
    rw [bind_of_ok hok]
    rcases ih hclaims.shares fun R hR => hopen R (by simp [hR]) with ⟨⟨n, hfull⟩, pos, message, c'', herror⟩ |
      ⟨hroom, out, c'', hok', hregistry, halikes, hfreshes, happart⟩
    · grind [bind_of_error, hclaims.registry]
    · rw [hclaims.registry] at hroom happart hregistry
      refine .inr ⟨fun n => hcount n ▸ hroom n, R' :: out, c'', bind_of_ok hok', hregistry,
        .cons ⟨halike, hslots⟩ halikes, forall_mem_cons.mpr ⟨hfresh, fun R hR => ?_⟩,
        pairwise_cons.mpr ⟨fun R'' hR'' n hn hn'' slot hslot hslot'' => ?_, happart⟩⟩
      · exact Fresh.mono (hfreshes R hR) hclaims.registry htaken
      · obtain ⟨register, hregister, rfl⟩ := hstores n ((halike.touches _ n).mp hn) slot hslot
        obtain ⟨registers'', hstores'', -, -, hnot⟩ := hfreshes R'' hR''
        obtain ⟨register'', hregister'', heq⟩ := mem_map.mp (hstores'' ▸ hslot'')
        obtain rfl : register'' = register := by
          have := Slot.register.inj heq
          omega
        exact hnot n (hclaims.registry ▸ hn'') register'' hregister'' hregister

end Lowering

end Grf
