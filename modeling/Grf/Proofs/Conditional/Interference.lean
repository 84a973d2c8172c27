import Grf.Proofs.Conditional.Lowered
import Grf.Proofs.Conditional.Settled

/-! # Temporary parameters do not interfere

The numbers of temporary parameters are used again and again. Still, whatever is read in one is the value that was
computed for it: the nearest assignment before is the one made for this operand (`lowerAll_temporaries`). What is in use
when a part of a scaffold is lowered is not assigned to by that part (`Calm.fresh`), so the parameter of a condition
keeps its value through the branch, and that of a chain is changed by its branches only.
-/

namespace Grf

open List Declaration Entry Guard Scaffold

/-! ## Annotated scaffolds -/

/-- A record that assigns no expression, with its unit and what it reads. -/
def Entry.note (k : Nat) (needs : List Expr) (r : Record) : Entry := ⟨⟨r, none, needs⟩, k⟩

namespace Lowering

/-- The records `before` compute the operand of a condition, and what its guard inserts reads nothing
else. Both are of the unit `k`. -/
def Conditioned (cond : Expr) (k : Nat) (before : List Entry) (g : Guard Entry) : Prop :=
  ∃ pos steps, Traces (testedOperand cond).fold (.hold g.test.param) [] steps ∧
    before = entries k (readings pos steps) ∧
    ∀ u, InsertedBy g.wraps u → u = .note k [(testedOperand cond).fold] u.record ∧
      (u.record.reads = [g.test.param] ∨ u.record.reads = [])

end Lowering

open Lowering in
/-- The entries of declarations and conditions are for the expressions in them, and those of a chain or a loop as such
for no expression. The units are numbered from `k` to `k'`, and `n` is that of the chain which the scaffold is a part
of. -/
def Scaffold.Annotated : Scaffold Entry → (n k k' : Nat) → Prop
  | done, _, k, k' => k' = k
  | leaf decl us, _, k, k' => k' = k + 1 ∧ ∃ rs, Traced decl rs ∧ us = entries k rs
  | append first second, n, k, k' => ∃ m, first.Annotated n k m ∧ second.Annotated n m k'
  | chain start arms, _, k, k' => start = .note k [] start.record ∧ arms.Annotated k (k + 1) k'
  | branch cond before mark inner outer body rest, n, k, k' =>
    Conditioned cond k before inner ∧ (∀ u ∈ mark, u = .note n [] u.record) ∧
      (∀ u, InsertedBy (wrapsOf outer) u → u = .note n [] u.record) ∧
      ∃ m, body.Annotated n (k + 1) m ∧ rest.Annotated n m k'
  | last g body, n, k, k' => (∀ u, InsertedBy g.wraps u → u = .note n [] u.record) ∧ body.Annotated n k k'
  | loop cond label before g body jump, n, k, k' =>
    label = .note k [] label.record ∧ jump = .note k [] jump.record ∧
      (before = [] ∧ g = none ∨ ∃ g', g = some g' ∧ Conditioned cond k before g') ∧
      body.Annotated n (k + 1) k'

/-- From the start of the chain to its end, its parameter is assigned to by the start and by the marks of its
branches only. -/
def ChainIn (us : List Entry) (chain : Entry × Scaffold Entry) : Prop :=
  ∃ t pre mid post, us = pre ++ chain.1 :: mid ++ post ∧ IsTemporary t ∧ chain.1.assigns t = true ∧
    List.Sublist chain.2.elements mid ∧ mid.filter (·.assigns t) = chain.2.marks

section ChainIn

variable {us vs : List Entry} {chain : Entry × Scaffold Entry}

theorem ChainIn.append_left (h : ChainIn us chain) (vs : List Entry) : ChainIn (vs ++ us) chain := by
  obtain ⟨t, pre, mid, post, rfl, hrest⟩ := h
  exact ⟨t, vs ++ pre, mid, post, by simp, hrest⟩

theorem ChainIn.append_right (h : ChainIn us chain) (vs : List Entry) : ChainIn (us ++ vs) chain := by
  obtain ⟨t, pre, mid, post, rfl, hrest⟩ := h
  exact ⟨t, pre, mid, post ++ vs, by simp, hrest⟩

theorem ChainIn.pads {P : Entry → Prop} (h : ChainIn us chain) (hpads : Pads P us vs)
    (hP : ∀ y, P y → y.record.target? = none) : ChainIn vs chain := by
  obtain ⟨t, pre, mid, post, rfl, ht, hstart, helements, hmarks⟩ := h
  rw [append_assoc] at hpads
  obtain ⟨pre', rest, rfl, -, hrest⟩ := hpads.of_append
  obtain ⟨inserted, rest', rfl, -, hrest'⟩ := hrest.of_cons
  obtain ⟨mid', post', rfl, hmid, -⟩ := hrest'.of_append
  refine ⟨t, pre' ++ inserted, mid', post', by simp, ht, hstart, helements.trans hmid.sublist, ?_⟩
  rw [← hmarks]
  exact hmid.filter_eq fun y hy => by simp [assigns, hP y hy]

end ChainIn

namespace Lowering

variable {c c' c₁ inner d : Context} {pos : Position} {test : SkipCondition} {own : Option Int} {n k k' m : Nat}
  {xs us vs marks marks' : List Entry} {cond : Expr} {chains chains' : Chains} {exempt exempt' : Entry → Int → Prop}
  {g : Guard Entry} {untaken : Int}

/-! ## Guards -/

theorem map_note (k : Nat) (needs : List Expr) (rs : List Record) : (rs.map (note k needs)).map (·.record) = rs := by
  simp [note, Function.comp_def]

theorem map_note_guard (k : Nat) (needs : List Expr) (g : Guard Record) : (g.map (note k needs)).map (·.record) = g := by
  have hone : ∀ w : Wrap Record, (w.map (note k needs)).map (·.record) = w := by
    rintro ⟨length, skip, label⟩
    cases skip <;> cases label <;> rfl
  simp [Guard.map, Function.comp_def, hone]

/-- A guard inserts skips that test its parameter, and labels. -/
structure Inserts (g : Guard Entry) (k : Nat) (needs : List Expr) (xs : List Entry) : Prop where
  spans : Spans g.wraps xs
  note : ∀ u, InsertedBy g.wraps u → u = .note k needs u.record
  target : ∀ u, InsertedBy g.wraps u → u.record.target? = none
  reads : ∀ u, InsertedBy g.wraps u → u.record.reads = [g.test.param] ∨ u.record.reads = []

theorem Guards.inserts {rs : List Record} {g : Guard Record} (h : Guards c g.test rs g.wraps c')
    (k : Nat) (needs : List Expr) (hxs : xs.map (·.record) = rs) : Inserts (g.map (note k needs)) k needs xs := by
  have hrecord : ∀ u, InsertedBy (g.map (note k needs)).wraps u → ∃ r, InsertedBy g.wraps r ∧ u = .note k needs r := by
    rintro u ⟨w', hw', hu⟩
    obtain ⟨w, hw, rfl⟩ := mem_map.mp hw'
    have hinserted : (w.map (note k needs)).inserted = w.inserted.map (.note k needs) := by
      obtain ⟨length, skip, label⟩ := w
      cases skip <;> cases label <;> rfl
    rw [hinserted] at hu
    obtain ⟨r, hr, rfl⟩ := mem_map.mp hu
    exact ⟨r, ⟨w, hw, hr⟩, rfl⟩
  have hcovers : ∀ r, InsertedBy g.wraps r → r.target? = none ∧ (r.reads = [g.test.param] ∨ r.reads = []) := by
    rintro r ⟨w, hw, hr⟩
    obtain ⟨run, hcovers⟩ := exists_covers h.covers w hw
    cases hcovers with
    | alone => cases hr
    | counted =>
      obtain rfl := mem_singleton.mp hr
      exact ⟨rfl, .inl rfl⟩
    | labelled =>
      rcases mem_pair.mp hr with rfl | rfl
      · exact ⟨rfl, .inl rfl⟩
      · exact ⟨rfl, .inr rfl⟩
  constructor
  · rw [← spans_map (·.record), map_note_guard, hxs]
    exact spans_of_covers h.covers
  · intro u hu
    obtain ⟨r, -, rfl⟩ := hrecord u hu
    rfl
  · intro u hu
    obtain ⟨r, hr, rfl⟩ := hrecord u hu
    exact (hcovers r hr).1
  · intro u hu
    obtain ⟨r, hr, rfl⟩ := hrecord u hu
    exact (hcovers r hr).2

/-- The readings that compute a condition. Its operand is found in the parameter that is tested, which is in use from
then on if it is temporary. -/
structure Tested (c : Context) (cond : Expr) (test : SkipCondition) (k : Nat) (us : List Entry)
    (c' : Context) : Prop where
  steps : ∃ pos steps, Traces (testedOperand cond).fold (.hold test.param) [] steps ∧
    us = entries k (readings pos steps)
  settled : ∀ chains exempt, Settled chains exempt [] us
  nearest : IsTemporary test.param →
    ∃ a, Nearest us test.param a ∧ a.value = some (testedOperand cond).fold ∧ a.unit = k
  fresh : ∀ t ∈ c.tempParams.inUse, ∀ u ∈ us, u.assigns t = false
  inUse : IsTemporary test.param → test.param ∈ c'.tempParams.inUse

theorem lowerCondition_tested {before : List Record} (k : Nat) (hc : c.InRange)
    (hclear : cond.Clear) (h : lowerCondition cond pos c = .ok (before, test) c') :
    ∃ us : List Entry, us.map (·.record) = before ∧ Tested c cond test k us c' := by
  obtain ⟨steps, hsteps, hrecords⟩ := lowerCondition_traces c (before, test) c' h
  obtain ⟨ts, htakes, hperm⟩ := lowerCondition_program.hands_of_pure c (before, test) c' hc h
  have hoperand : (testedOperand cond).fold.Clear := Expr.clear_fold hclear.testedOperand
  have hnodup : (temporaries ((readings pos steps).map Reading.record)).Nodup := by
    rw [hrecords]
    exact (hperm.nodup_iff.mpr htakes.nodup).filter _
  have hmem : ∀ t, ∀ u ∈ entries k (readings pos steps), u.assigns t = true → t ∈ ts := by
    intro t u hu hassigns
    refine hperm.mem_iff.mp (mem_filterMap.mpr ⟨u.record, ?_, by simpa [assigns] using hassigns⟩)
    rw [← hrecords, ← record_entries k]
    exact mem_map.mpr ⟨u, hu, rfl⟩
  have hnearest : IsTemporary test.param → ∃ a, Nearest (entries k (readings pos steps)) test.param a ∧
      a.value = some (testedOperand cond).fold ∧ a.unit = k :=
    fun ht => nearest_of_computedIn k (hsteps.served hoperand ht) ht hnodup
  refine ⟨entries k (readings pos steps), (record_entries k _).trans hrecords,
    ⟨⟨pos, steps, hsteps, rfl⟩, fun chains exempt => ?_, hnearest, ?_, ?_⟩⟩
  · exact settled_of_fed k (hsteps.fed hoperand rfl) hnodup
  · intro t ht u hu
    rw [← Bool.not_eq_true]
    exact fun hassigns => htakes.temps.fresh t (hmem t u hu hassigns) ht
  · intro ht
    obtain ⟨a, ha, -⟩ := hnearest ht
    exact (htakes.temps.inUse _).mpr (.inl (hmem _ a ha.mem ha.assigns))

/-- **A condition is tested before each record that it guards**, and nothing in between has changed its
operand. -/
theorem Tested.settled_guard (h : Tested c cond g.test k us c')
    (hws : Inserts g k [(testedOperand cond).fold] xs) (hxs : Settled chains exempt [] xs)
    (hkept : IsTemporary g.test.param → ∀ u ∈ xs, u.assigns g.test.param = false) :
    Settled chains exempt [] (us ++ g.around xs) := by
  refine (h.settled chains exempt).append (hxs.context.pads (pads_wrapAll hws.spans) hws.target ?_)
  rintro y pre pre' post' hy rfl hpre
  have hread : ∀ t ∈ y.record.reads, t = g.test.param := by
    grind [hws.reads]
  have hneeds : y.needs = [(testedOperand cond).fold] := by
    rw [hws.note y hy]
    rfl
  have hyunit : y.unit = k := by
    rw [hws.note y hy]
    rfl
  constructor
  · intro p hp ht
    have hparam := hread p.1 (List.of_mem_zip hp).1
    have hvalue : p.2 = (testedOperand cond).fold := by
      have hmem := (List.of_mem_zip hp).2
      simpa [hneeds] using hmem
    rw [hparam] at ht ⊢
    obtain ⟨a, ha, haval, hunit⟩ := h.nearest ht
    refine ⟨a, ha.append_right fun u hu => ?_, hvalue ▸ haval, hunit.trans hyunit.symm⟩
    grind [hpre.mem, assigns, hws.target]
  grind [Reading.operands, hws.reads]

theorem assigns_constant (k : Nat) (needs : List Expr) (n value t : Int) (pos : Position) :
    (note k needs (.constantAssignment n value pos)).assigns t = decide (n = t) := by
  simp [assigns, note, Record.target?, Record.constantAssignment]

theorem not_isTemporary_constant {n value : Int} :
    ∀ t ∈ (Record.constantAssignment n value pos).reads, ¬IsTemporary t := by
  intro t ht
  have hsources : t ∈ [AssignRecord.dataSource, 0] := ht
  rcases mem_pair.mp hsources with rfl | rfl <;> decide

theorem Inserts.settled_exempt (hws : Inserts g n [] xs) (hxs : Settled chains exempt [] xs)
    (hexempt : ∀ u, InsertedBy g.wraps u → exempt u g.test.param) : Settled chains exempt [] (g.around xs) := by
  refine hxs.pads (pads_wrapAll hws.spans) hws.target fun y pre pre' post' hy _ _ => ?_
  have hneeds : y.needs = [] := by
    rw [hws.note y hy]
    rfl
  refine ⟨fun p hp => ?_, fun t ht _ => .inr (.inl ?_)⟩
  · simp [Reading.operands, hneeds] at hp
  · rcases hws.reads y hy with hreads | hreads
    · obtain rfl : t = g.test.param := by simpa [hreads] using ht
      exact hexempt y hy
    · simp [hreads] at ht

/-! ## Lists of entries -/

/-- The entries of a part of a lowering that starts in the state `c`. If it is a part of a chain, `own` is the parameter
of the chain, which the `marks` assign to. The `chains` are those inside of the part. -/
structure Calm (c : Context) (own : Option Int) (exempt : Entry → Int → Prop) (chains : Chains)
    (marks us : List Entry) : Prop where
  fresh : ∀ t, Held c t → own ≠ some t → ∀ u ∈ us, u.assigns t = false
  marked : ∀ t, own = some t → us.filter (·.assigns t) = marks
  settled : Settled chains exempt [] us
  chained : ∀ chain ∈ chains, ChainIn us chain

namespace Calm

theorem of_silent (hreads : ∀ u ∈ us, ∀ t ∈ u.record.reads, ¬IsTemporary t)
    (hassigns : ∀ u ∈ us, ∀ t, u.assigns t = false) : Calm c own exempt [] [] us where
  fresh t _ _ u hu := hassigns u hu t
  marked t _ := by simpa using fun u hu => hassigns u hu t
  settled := .of_silent hreads
  chained := by simp

theorem append (h : Calm c own exempt chains marks us) (h' : Calm c own exempt chains' marks' vs) :
    Calm c own exempt (chains ++ chains') (marks ++ marks') (us ++ vs) where
  fresh t ht hown := forall_mem_append.mpr ⟨h.fresh t ht hown, h'.fresh t ht hown⟩
  marked t ht := by rw [filter_append, h.marked t ht, h'.marked t ht]
  settled := by
    refine (h.settled.mono (subset_append_left _ _) fun _ _ h => h).append (Settled.context ?_)
    exact h'.settled.mono (subset_append_right _ _) fun _ _ h => h
  chained := forall_mem_append.mpr
    ⟨fun chain hchain => (h.chained chain hchain).append_right _, fun chain hchain => (h'.chained chain hchain).append_left _⟩

theorem pads {P : Entry → Prop} (h : Calm c own exempt chains marks us) (hpads : Pads P us vs)
    (hP : ∀ y, P y → y.record.target? = none) (hvs : Settled chains exempt [] vs) :
    Calm c own exempt chains marks vs where
  fresh t ht hown u hu := by
    rcases hpads.mem hu with hu | hu
    · exact h.fresh t ht hown u hu
    · simp [assigns, hP u hu]
  marked t ht := by
    rw [← h.marked t ht]
    exact hpads.filter_eq fun y hy => by simp [assigns, hP y hy]
  settled := hvs
  chained chain hchain := (h.chained chain hchain).pads hpads hP

theorem exempted (h : Calm c own exempt chains marks xs) (hws : Inserts g n [] xs)
    (hexempt : ∀ u, InsertedBy g.wraps u → exempt u g.test.param) : Calm c own exempt chains marks (g.around xs) :=
  h.pads (pads_wrapAll hws.spans) hws.target (hws.settled_exempt h.settled hexempt)

/-- A list that is left out if a condition is false, after the computation of the condition. -/
theorem guarded (h : Calm c own exempt chains marks xs) (htested : Tested c cond g.test k us c₁)
    (hws : Inserts g k [(testedOperand cond).fold] xs) (hown : ∀ t, own = some t → Held c t)
    (hkept : IsTemporary g.test.param → ∀ u ∈ xs, u.assigns g.test.param = false) :
    Calm c own exempt chains marks (us ++ g.around xs) := by
  have hbefore : Calm c own exempt [] [] us := by
    refine ⟨fun t ht _ => htested.fresh t ht, fun t ht => ?_, htested.settled _ _, by simp⟩
    simpa using htested.fresh t (hown t ht)
  exact (hbefore.append h).pads ((Pads.refl us).append (pads_wrapAll hws.spans)) hws.target
    (htested.settled_guard hws h.settled hkept)

end Calm

/-! ## Scaffolds -/

/-- The entries of a scaffold, numbered from `k` to `k'`. If it is a part of a chain, `n` is the unit of the chain. -/
structure Quiet (c : Context) (own : Option Int) (n k k' : Nat) (s : Scaffold Entry) : Prop where
  annotated : s.Annotated n k k'
  calm : Calm c own (fun u t => own = some t ∧ u ∈ s.guards) s.chains s.marks s.elements

namespace Quiet

/-- What is made inside of a branch or a loop does not assign to what is in use there. -/
theorem inside {s : Scaffold Entry} (h : Quiet c₁ none n k k' s) (hinUse : ∀ t, Held c t → Held c₁ t)
    (hown : ∀ t, own = some t → Held c t) : Calm c own exempt s.chains [] s.elements where
  fresh t ht _ := h.calm.fresh t (hinUse t ht) (by simp)
  marked t ht := by simpa using h.calm.fresh t (hinUse t (hown t ht)) (by simp)
  settled := h.calm.settled.mono (Subset.refl _) (by simp)
  chained := h.calm.chained

theorem of_inUse {s : Scaffold Entry} (h : Quiet c' own n k k' s) (hinUse : ∀ t, Held c t → Held c' t) :
    Quiet c own n k k' s :=
  ⟨h.annotated, { h.calm with fresh := fun t ht => h.calm.fresh t (hinUse t ht) }⟩

theorem done : Quiet c own n k k .done := ⟨rfl, .of_silent (by simp [elements]) (by simp [elements])⟩

theorem leaf {decl : Declaration} {rs : List Record} (hc : c.InRange) (hd : decl.IsSimple)
    (hclear : decl.Clear) (h : decl.lower c = .ok rs c') :
    ∃ us : List Entry, us.map (·.record) = rs ∧ Quiet c none n k (k + 1) (.leaf decl us) := by
  obtain ⟨us, htraced, rfl⟩ := lower_traced hd c rs c' h
  have hspares : decl.Spares IsTemporary := by
    cases decl with
    | assign target value pos => exact hclear.1.1
    | _ => trivial
  obtain ⟨hnodup, hfresh⟩ := (lower_spends hd hc h).2.2 hspares
  refine ⟨entries k us, record_entries k us, ⟨rfl, us, htraced, rfl⟩, fun t ht _ u hu => ?_, by simp,
    settled_of_fed k (htraced.fed hclear) hnodup, by simp [Scaffold.chains]⟩
  rw [← Bool.not_eq_true]
  intro hassigns
  refine hfresh t (mem_temporaries.mpr ⟨hc.held t ht, u.record, ?_, ?_⟩) ht
  · rw [← record_entries k]
    exact mem_map.mpr ⟨u, hu, rfl⟩
  · simpa [assigns] using hassigns

theorem append {s s' : Scaffold Entry} (h : Quiet c none n k m s) (h' : Quiet c none n m k' s') :
    Quiet c none n k k' (.append s s') :=
  ⟨⟨m, h.annotated, h'.annotated⟩, (h.inside (fun _ ht => ht) (by simp)).append (h'.inside (fun _ ht => ht) (by simp))⟩

theorem branch {before mark : List Entry} {outer : Option (Guard Entry)} {body rest : Scaffold Entry}
    (htested : Tested c cond g.test k before c₁) (hbody : Quiet c₁ none n (k + 1) m body)
    (hown : ∀ t, own = some t → Held c t)
    (hmark : ∀ u ∈ mark, ∃ t value pos, u = .note n [] (.constantAssignment t value pos) ∧ own = some t)
    (hinner : Inserts g k [(testedOperand cond).fold] (mark ++ body.elements))
    (houter : ∀ g' ∈ outer, own = some g'.test.param ∧ Inserts g' n [] (before ++ g.around (mark ++ body.elements)))
    (hrest : Quiet c own n m k' rest) (hinUse : ∀ t, Held c t → Held c₁ t) :
    Quiet c own n k k' (.branch cond before mark g outer body rest) := by
  let exempt (u : Entry) (t : Int) : Prop := own = some t ∧ u ∈ (Scaffold.branch cond before mark g outer body rest).guards
  have hmarkCalm : Calm c own exempt [] mark mark := by
    refine ⟨fun t _ hne u hu => ?_, fun t ht => filter_eq_self.mpr fun u hu => ?_, .of_silent fun u hu => ?_, by simp⟩
    all_goals obtain ⟨t', value, pos, rfl, hown'⟩ := hmark u hu
    · grind [assigns_constant]
    · grind [assigns_constant]
    · exact not_isTemporary_constant
  have hbodyCalm : Calm c own exempt body.chains [] body.elements := hbody.inside hinUse hown
  have hkept : IsTemporary g.test.param → ∀ u ∈ mark ++ body.elements, u.assigns g.test.param = false := by
    intro htemp u hu
    rcases mem_append.mp hu with hu | hu
    · obtain ⟨t, value, pos, rfl, hown'⟩ := hmark u hu
      obtain ⟨a, ha, -⟩ := htested.nearest htemp
      rw [assigns_constant, decide_eq_false_iff_not]
      -- the condition does not assign to the parameter of the chain
      rintro rfl
      grind [ha.assigns, htested.fresh, ha.mem]
    · exact hbody.calm.fresh _ (htested.inUse htemp) (by simp) u hu
  have hguarded := (hmarkCalm.append hbodyCalm).guarded htested hinner hown hkept
  have hwhole : Calm c own exempt ([] ++ body.chains) (mark ++ [])
      (aroundOr outer (before ++ g.around (mark ++ body.elements))) := by
    cases outer with
    | none => exact hguarded
    | some g' =>
      obtain ⟨hparam, hinserts⟩ := houter g' rfl
      refine hguarded.exempted hinserts fun u hu => ⟨hparam, ?_⟩
      obtain ⟨w, hw, hmem⟩ := hu
      exact mem_append_left _ (mem_flatMap.mpr ⟨w, hw, hmem⟩)
  have hrestCalm : Calm c own exempt rest.chains rest.marks rest.elements :=
    { hrest.calm with
      settled := hrest.calm.settled.mono (Subset.refl _) fun u t h => ⟨h.1, mem_append_right _ h.2⟩ }
  refine ⟨⟨?_, fun u hu => ?_, ?_, m, hbody.annotated, hrest.annotated⟩, ?_⟩
  · obtain ⟨pos, steps, hsteps, hreadings⟩ := htested.steps
    exact ⟨pos, steps, hsteps, hreadings, fun u hu => ⟨hinner.note u hu, hinner.reads u hu⟩⟩
  · obtain ⟨t, value, pos, rfl, -⟩ := hmark u hu
    rfl
  · cases outer with
    | none => rintro u ⟨w, ⟨⟩, -⟩
    | some g' => exact (houter g' rfl).2.note
  · have hall := hwhole.append hrestCalm
    rwa [nil_append, append_nil] at hall

theorem last {body : Scaffold Entry} (hbody : Quiet c none n k k' body) (hown : own = some g.test.param)
    (hin : Held c g.test.param) (hws : Inserts g n [] body.elements) : Quiet c own n k k' (.last g body) := by
  refine ⟨⟨hws.note, hbody.annotated⟩, Calm.exempted ?_ hws fun u hu => ⟨hown, ?_⟩⟩
  · exact hbody.inside (fun _ ht => ht) fun t ht => Option.some.inj (hown.symm.trans ht) ▸ hin
  · obtain ⟨w, hw, hmem⟩ := hu
    exact mem_flatMap.mpr ⟨w, hw, hmem⟩

/-- **A complete chain.** Its guards read what its start or a mark has put there, since nothing else in
the chain assigns to its parameter. -/
theorem chain {value : Int} {arms : Scaffold Entry} (htemp : IsTemporary untaken) (hfresh : ¬Held c untaken)
    (harms : Quiet c (some untaken) k (k + 1) k' arms) :
    Quiet c none n k k' (.chain (.note k [] (.constantAssignment untaken value pos)) arms) := by
  have hstart : (note k [] (.constantAssignment untaken value pos)).assigns untaken = true := by
    rw [assigns_constant, decide_eq_true rfl]
  have hmarks := harms.calm.marked untaken rfl
  refine ⟨⟨rfl, harms.annotated⟩, fun t ht _ u hu => ?_, by simp, ?_, fun chain hchain => ?_⟩
  · have hne : untaken ≠ t := fun heq => hfresh (heq ▸ ht)
    rcases mem_cons.mp hu with rfl | hu
    · rw [assigns_constant, decide_eq_false_iff_not]
      exact hne
    · exact harms.calm.fresh t ht (fun heq => hne (Option.some.inj heq)) u hu
  · refine Settled.cons (settledAt_of_silent not_isTemporary_constant) ?_
    intro pre u post hsplit
    have hplace : SettledAt _ _ ([.note k [] (.constantAssignment untaken value pos)] ++ pre) u :=
      harms.calm.settled.context pre u post hsplit
    refine ⟨hplace.operand, fun t ht htemp => ?_⟩
    rcases hplace.other t ht htemp with hoperand | ⟨⟨⟩, hguard⟩ | ⟨chain, hchain, hguard⟩
    · exact .inl hoperand
    · -- the start is there, so there is a nearest assignment
      obtain ⟨a, ha⟩ : ∃ a, Nearest ([.note k [] (.constantAssignment untaken value pos)] ++ pre) untaken a :=
        exists_nearest ⟨_, mem_append_left _ mem_cons_self, hstart⟩
      refine .inr (.inr ⟨_, mem_cons_self, hguard, a, ha, ?_⟩)
      grind [ha.mem, ha.assigns]
    · exact .inr (.inr ⟨chain, mem_cons_of_mem _ hchain, hguard⟩)
  · rcases mem_cons.mp hchain with rfl | hchain
    · exact ⟨untaken, [], arms.elements, [], by simp [elements], htemp, hstart, Sublist.refl _, hmarks⟩
    · exact (harms.calm.chained chain hchain).append_left [_]

theorem loop {label : Int} {before : List Entry} {outer : Option (Guard Entry)} {body : Scaffold Entry}
    (hbody : Quiet c₁ none n (k + 1) k' body) (hinUse : ∀ t, Held c t → Held c₁ t)
    (hguard : before = [] ∧ outer = none ∨ ∃ g, outer = some g ∧ Tested c cond g.test k before c₁ ∧
      Inserts g k [(testedOperand cond).fold] (body.elements ++ [.note k [] (.jumpTo label pos)])) :
    Quiet c none n k k' (.loop cond (.note k [] (.ofLabel label pos)) before outer body
      (.note k [] (.jumpTo label pos))) := by
  have hjump : ∀ {c : Context} {exempt : Entry → Int → Prop},
      Calm c none exempt [] [] [.note k [] (.jumpTo label pos)] := by
    refine .of_silent (forall_mem_singleton.mpr fun t ht => ?_) (forall_mem_singleton.mpr fun _ => rfl)
    obtain rfl : t = SkipCondition.always.param := mem_singleton.mp ht
    decide
  have hlabel : ∀ {exempt : Entry → Int → Prop}, Calm c none exempt [] [] [.note k [] (.ofLabel label pos)] :=
    .of_silent (forall_mem_singleton.mpr fun t ht => by cases ht) (forall_mem_singleton.mpr fun _ => rfl)
  have hturn : ∀ {c : Context} {exempt : Entry → Int → Prop}, (∀ t, Held c t → Held c₁ t) →
      Calm c none exempt (body.chains ++ []) [] (body.elements ++ [.note k [] (.jumpTo label pos)]) :=
    fun hinUse => (hbody.inside hinUse (by simp)).append hjump
  have hwhole : ∀ {exempt : Entry → Int → Prop}, Calm c none exempt (body.chains ++ []) []
      (before ++ aroundOr outer (body.elements ++ [.note k [] (.jumpTo label pos)])) := by
    intro exempt
    rcases hguard with ⟨rfl, rfl⟩ | ⟨g, rfl, htested, hws⟩
    · exact hturn hinUse
    · have hkept := @hturn c₁ exempt fun _ ht => ht
      exact (hturn hinUse).guarded htested hws (by simp) fun htemp => hkept.fresh _ (htested.inUse htemp) (by simp)
  refine ⟨⟨rfl, rfl, ?_, hbody.annotated⟩, ?_⟩
  · rcases hguard with hnone | ⟨g, rfl, htested, hws⟩
    · exact .inl hnone
    · obtain ⟨pos, steps, hsteps, hreadings⟩ := htested.steps
      exact .inr ⟨g, rfl, pos, steps, hsteps, hreadings, fun u hu => ⟨hws.note u hu, hws.reads u hu⟩⟩
  · show Calm c none _ body.chains [] ([_] ++ (before ++ aroundOr outer _))
    rw [← append_nil body.chains]
    exact hlabel.append hwhole

end Quiet

/-! ## Lowered declarations -/

mutual

/-- **The entries of a list of declarations.** -/
theorem BuildsAll.quiet {ds : List Declaration} {c c' : Context} {s : Scaffold Record}
    (h : BuildsAll ds c s c') (n k : Nat) (hc : c.InRange) (hclear : ∀ d ∈ walkAll ds, d.Clear) :
    ∃ k', ∃ s' : Scaffold Entry, s'.map (·.record) = s ∧ Quiet c none n k k' s' := by
  cases h with
  | nil => exact ⟨k, .done, rfl, .done⟩
  | cons h h' =>
    rw [walkAll, forall_mem_append] at hclear
    have hext := (h.sound ⟨hc, rfl, rfl⟩).1.ext
    obtain ⟨m, s, rfl, hs⟩ := h.quiet n k hc hclear.1
    obtain ⟨k', s', rfl, hs'⟩ := h'.quiet n m (hext.inRange hc) hclear.2
    exact ⟨k', .append s s', rfl, hs.append (hs'.of_inUse fun t ht => hext.inUse ht)⟩

theorem Builds.quiet {decl : Declaration} {c c' : Context} {s : Scaffold Record}
    (h : Builds decl c s c') (n k : Nat) (hc : c.InRange) (hclear : ∀ d ∈ decl.walk, d.Clear) :
    ∃ k', ∃ s' : Scaffold Entry, s'.map (·.record) = s ∧ Quiet c none n k k' s' := by
  have henter : ∀ {inner d : Context}, Encloses c inner d c' → ∀ t, Held c t → Held inner t :=
    fun hframe t ht => show t ∈ _ from hframe.fields.2.2 ▸ ht
  cases h with
  | simple hd h =>
    have hself : decl ∈ decl.walk := by
      cases decl <;> simp [walk]
    obtain ⟨us, rfl, hquiet⟩ := Quiet.leaf hc hd (hclear decl hself) h
    exact ⟨k + 1, .leaf decl us, rfl, hquiet⟩
  | conditional hframe h =>
    rw [walk, forall_mem_cons] at hclear
    obtain ⟨k', s, rfl, hs⟩ := h.quiet n k (hframe.inRange hc) hclear.1 hclear.2
    exact ⟨k', s, rfl, hs.of_inUse (henter hframe)⟩
  | never hframe hcond => exact ⟨k, .done, rfl, .done⟩
  | @forever cond body pos label _ _ _ _ _ _ hframe hcond hlabel h =>
    rw [walk, forall_mem_cons] at hclear
    have hc' := hframe.inRange hc
    have hext := (popLongLabel_eq_ok hc' hlabel).1
    obtain ⟨k', s, rfl, hs⟩ := h.quiet n (k + 1) (hext.inRange hc') hclear.2
    refine ⟨k', .loop cond (.note k [] (.ofLabel label pos)) [] none s (.note k [] (.jumpTo label pos)), rfl, ?_⟩
    exact hs.loop (fun t ht => hext.inUse (henter hframe t ht)) (.inl ⟨rfl, rfl⟩)
  | @loop cond body pos label _ _ c₁ _ _ _ _ _ g _ hframe hcond hlabel hbefore h hguard =>
    rw [walk, forall_mem_cons] at hclear
    have hc' := hframe.inRange hc
    have hext₁ := (popLongLabel_eq_ok hc' hlabel).1
    have hc₁ := hext₁.inRange hc'
    have hext₂ := (lowerCondition_spec hc₁ hcond hbefore).1
    obtain ⟨us, rfl, htested⟩ := lowerCondition_tested k hc₁ hclear.1 hbefore
    obtain ⟨k', s, rfl, hs⟩ := h.quiet n (k + 1) (hext₂.inRange hc₁) hclear.2
    have hjump : (s.elements ++ [note k [] (.jumpTo label pos)]).map (·.record) =
        (s.map (·.record)).elements ++ [.jumpTo label pos] := by
      rw [map_append, elements_map]
      rfl
    have hloop : Quiet c₁ none n k k' (.loop cond (.note k [] (.ofLabel label pos)) us
        (some (g.map (note k [(testedOperand cond).fold]))) s (.note k [] (.jumpTo label pos))) :=
      hs.loop (fun t ht => hext₂.inUse ht) (.inr ⟨_, rfl, htested, hguard.inserts k _ hjump⟩)
    refine ⟨k', _, ?_, hloop.of_inUse fun t ht => hext₁.inUse (henter hframe t ht)⟩
    simp only [Scaffold.map, Option.map_some, map_note_guard]
    rfl

theorem BuildsIf.quiet {branches : List (IfBranch Declaration)} {pos : Position} {c c' : Context}
    {s : Scaffold Record} (h : BuildsIf branches pos c s c') (n k : Nat) (hc : c.InRange)
    (hconds : ∀ b ∈ branches, ∀ e ∈ b.cond, e.Clear) (hclear : ∀ d ∈ walkBranches branches, d.Clear) :
    ∃ k', ∃ s' : Scaffold Entry, s'.map (·.record) = s ∧ Quiet c none n k k' s' := by
  cases h with
  | nil => exact ⟨k, .done, rfl, .done⟩
  | never hcond h =>
    rw [forall_mem_cons] at hconds
    rw [walkBranches, forall_mem_append] at hclear
    exact h.quiet n k hc hconds.2 hclear.2
  | always hcond h => simp_all [walkBranches, h.quiet]
  | @single cond body _ pos' rest _ c₁ c₂ _ before g s hcond hrest hbefore h hguard =>
    rw [forall_mem_cons] at hconds
    rw [walkBranches, forall_mem_append] at hclear
    have hext := (lowerCondition_spec hc hcond hbefore).1
    obtain ⟨us, rfl, htested⟩ := lowerCondition_tested k hc (hconds.1 cond rfl) hbefore
    obtain ⟨k', s, rfl, hs⟩ := h.quiet n (k + 1) (hext.inRange hc) hclear.1
    refine ⟨k', .branch cond us [] (g.map (note k [(testedOperand cond).fold])) none s .done, ?_, ?_⟩
    · simp only [Scaffold.map, map_note_guard]
      rfl
    · exact .branch htested hs (by simp) (by simp) (hguard.inserts k _ (elements_map ..).symm) (by simp) .done
        fun t ht => hext.inUse ht
  | @chain cond body _ pos' rest untaken _ c₁ c₂ c₃ c₄ _ before g s s' hcond htemp hbefore h hguard hrest =>
    rw [forall_mem_cons] at hconds
    rw [walkBranches, forall_mem_append] at hclear
    obtain ⟨hext₁, htemporary, hfresh, hin⟩ := popTemp_eq_ok hc htemp
    have hc₁ := hext₁.inRange hc
    have hext₂ := (lowerCondition_spec hc₁ hcond hbefore).1
    have hext₄ := (hext₂.trans (h.sound ⟨hext₂.inRange hc₁, rfl, rfl⟩).1.ext).trans hguard.ext
    -- the chain is the unit `k`, and its first condition is the next one
    obtain ⟨us, rfl, htested⟩ := lowerCondition_tested (k + 1) hc₁ (hconds.1 cond rfl) hbefore
    obtain ⟨m, s, rfl, hs⟩ := h.quiet k (k + 1 + 1) (hext₂.inRange hc₁) hclear.1
    obtain ⟨k', s', rfl, hs'⟩ := hrest.quiet k m (hext₄.inRange hc₁) (hext₄.inUse hin) hconds.2 hclear.2
    let mark : Entry := .note k [] (.constantAssignment untaken 0 pos')
    have hrecords : ([mark] ++ s.elements).map (·.record) =
        .constantAssignment untaken 0 pos' :: (s.map (·.record)).elements := by
      rw [map_append, elements_map]
      rfl
    have hbranch : Quiet c₁ (some untaken) k (k + 1) k' (.branch cond us [mark]
        (g.map (note (k + 1) [(testedOperand cond).fold])) none s s') := by
      refine .branch htested hs ?_ (fun u hu => ?_) (hguard.inserts (k + 1) _ hrecords) (by simp)
        (hs'.of_inUse fun t ht => hext₄.inUse ht) fun t ht => hext₂.inUse ht
      · rintro t ⟨⟩
        exact hin
      · exact ⟨untaken, 0, pos', mem_singleton.mp hu, rfl⟩
    refine ⟨k', .chain (.note k [] (.constantAssignment untaken 0xFFFFFFFF pos)) _, ?_,
      .chain htemporary hfresh (hbranch.of_inUse fun t ht => hext₁.inUse ht)⟩
    simp only [Scaffold.map, map_note_guard]
    rfl

theorem BuildsArms.quiet {untaken : Int} {branches : List (IfBranch Declaration)} {c c' : Context}
    {s : Scaffold Record} (h : BuildsArms untaken branches c s c') (n k : Nat) (hc : c.InRange)
    (hin : Held c untaken) (hconds : ∀ b ∈ branches, ∀ e ∈ b.cond, e.Clear)
    (hclear : ∀ d ∈ walkBranches branches, d.Clear) :
    ∃ k', ∃ s' : Scaffold Entry, s'.map (·.record) = s ∧ Quiet c (some untaken) n k k' s' := by
  cases h with
  | nil => exact ⟨k, .done, rfl, .done⟩
  | never hcond h =>
    rw [forall_mem_cons] at hconds
    rw [walkBranches, forall_mem_append] at hclear
    exact h.quiet n k hc hin hconds.2 hclear.2
  | @always _ _ _ _ _ _ _ _ ws _ hcond h hguard =>
    rw [walkBranches, forall_mem_append] at hclear
    obtain ⟨k', s, rfl, hs⟩ := h.quiet n k hc hclear.1
    let g : Guard Record := ⟨takenTest untaken, ws⟩
    have hws : Inserts (g.map (note n [])) n [] s.elements := Guards.inserts hguard n [] (elements_map (·.record) s).symm
    exact ⟨k', .last (g.map (note n [])) s, by simp only [Scaffold.map, map_note_guard, g], hs.last rfl hin hws⟩
  | @branch _ cond body pos _ _ _ _ _ _ _ before mark g outer s s' hcond hmark hbefore h hinner houter hrest =>
    rw [forall_mem_cons] at hconds
    rw [walkBranches, forall_mem_append] at hclear
    have hext₁ := (lowerCondition_spec hc hcond hbefore).1
    have hext₄ := ((hext₁.trans (h.sound ⟨hext₁.inRange hc, rfl, rfl⟩).1.ext).trans hinner.ext).trans houter.ext
    obtain ⟨us, rfl, htested⟩ := lowerCondition_tested k hc (hconds.1 cond rfl) hbefore
    obtain ⟨m, s, rfl, hs⟩ := h.quiet n (k + 1) (hext₁.inRange hc) hclear.1
    obtain ⟨k', s', rfl, hs'⟩ := hrest.quiet n m (hext₄.inRange hc) (hext₄.inUse hin) hconds.2 hclear.2
    let noted := g.map (note k [(testedOperand cond).fold])
    let outside : Guard Record := ⟨takenTest untaken, outer⟩
    have hrecords : (mark.map (note n []) ++ s.elements).map (·.record) = mark ++ (s.map (·.record)).elements := by
      rw [map_append, elements_map, map_note]
    have hwhole : (us ++ noted.around (mark.map (note n []) ++ s.elements)).map (·.record) =
        us.map (·.record) ++ g.around (mark ++ (s.map (·.record)).elements) := by
      rw [map_append, ← around_map, map_note_guard, hrecords]
    have hmarks : ∀ u ∈ mark.map (note n []), u = .note n [] (.constantAssignment untaken 0 pos) := by
      rcases hmark with rfl | ⟨rfl, -⟩ <;> simp
    refine ⟨k', .branch cond us (mark.map (.note n [])) noted (some (outside.map (note n []))) s s', ?_, ?_⟩
    · simp only [Scaffold.map, Option.map_some, map_note_guard, map_note, noted, outside]
    · refine .branch htested hs ?_ (fun u hu => ⟨untaken, 0, pos, hmarks u hu, rfl⟩) (hinner.inserts k _ hrecords) ?_
        (hs'.of_inUse fun t ht => hext₄.inUse ht) fun t ht => hext₁.inUse ht
      · rintro t ⟨⟩
        exact hin
      · rintro g' ⟨⟩
        exact ⟨rfl, Guards.inserts houter n [] hwhole⟩

end

/-- **Temporary parameters do not interfere.** The records that declarations are lowered to are those of a
scaffold in which every record is annotated with what it reads. If no parameter of the declarations has
the number of a temporary one, the nearest assignment before a record that reads a temporary parameter is
the one that has been made for this operand. The parameter of a chain of branches is read by the guards of
the chain, and from its start to its end only the start and the marks of the branches assign to it. -/
theorem lowerAll_temporaries {ds : List Declaration} {rs : List Record} (hc : c.InRange)
    (hclear : ∀ d ∈ Declaration.walkAll ds, d.Clear) (h : Declaration.lowerAll ds c = .ok rs c') :
    ∃ (s : Scaffold Entry) (k : Nat), BuildsAll ds c (s.map (·.record)) c' ∧
      s.elements.map (·.record) = rs ∧ s.Annotated 0 0 k ∧
      (∀ pre u post, s.elements = pre ++ u :: post → (∀ p ∈ u.operands, IsTemporary p.1 →
          ∃ a, Nearest pre p.1 a ∧ a.value = some p.2 ∧ a.unit = u.unit) ∧
        ∀ t ∈ u.record.reads, IsTemporary t → (∃ e, (t, e) ∈ u.operands) ∨ ∃ chain ∈ s.chains, u ∈ chain.2.guards ∧
            ∃ a, Nearest pre t a ∧ (a = chain.1 ∨ a ∈ chain.2.marks)) ∧
      ∀ chain ∈ s.chains, ChainIn s.elements chain := by
  obtain ⟨_, hbuilds, rfl, -⟩ := lowerAll_builds ds hc h
  obtain ⟨k, s, rfl, hs⟩ := hbuilds.quiet 0 0 hc hclear
  refine ⟨s, k, hbuilds, (Scaffold.elements_map ..).symm, hs.annotated, fun pre u post hsplit => ?_, hs.calm.chained⟩
  have hplace := hs.calm.settled pre u post hsplit
  refine ⟨hplace.operand, fun t ht htemp => ?_⟩
  rcases hplace.other t ht htemp with hoperand | ⟨hown, -⟩ | hguard
  · exact Or.inl hoperand
  · cases hown
  · exact Or.inr hguard

/-- A chain with two computed conditions and a loop inside of its first branch, and an assignment after it. The
parameter 0x40 is that of the chain, and is used again after it. Three operands are computed in 0x44, one after the
other. -/
theorem lowerAll_temporaries_reused :
    let sum (a b : Int) : Expr := .binary .add (.paramAt a) (.paramAt b)
    let square : Declaration := .assign (.const 5) (.binary .mul (sum 6 7) (sum 6 7)) {}
    let ds : List Declaration := [
      .conditional [
        ⟨some (.binary .mul (sum 1 2) (sum 3 4)), [square, .loop (sum 1 2) [.assign (.const 1) (.const 0) {}] {}], {}⟩,
        ⟨some (sum 1 2), [], {}⟩, ⟨none, [square], {}⟩] {},
      square]
    let c : Context := .create 15 none none
    ∃ (rs : List Record) (c' : Context) (s : Scaffold Entry), (∀ d ∈ Declaration.walkAll ds, d.Clear) ∧
      Declaration.lowerAll ds c = .ok rs c' ∧ s.elements.map (·.record) = rs ∧
      temporaries rs = [0x40, 0x42, 0x43, 0x41, 0x40, 0x44, 0x45, 0x44, 0x44, 0x40, 0x45, 0x46, 0x40, 0x41] ∧
      ∀ pre u post, s.elements = pre ++ u :: post → ∀ p ∈ u.operands, IsTemporary p.1 →
        ∃ a, Nearest pre p.1 a ∧ a.value = some p.2 ∧ a.unit = u.unit := by
  intro sum square ds c
  have hparam : ∀ n, ¬IsTemporary n → (Expr.paramAt n).Clear := by
    rintro n hn
    exact ⟨fun _ hfold => Expr.const.inj hfold ▸ hn, trivial⟩
  have hsum : ∀ a b, ¬IsTemporary a → ¬IsTemporary b → (sum a b).Clear := fun a b ha hb => ⟨hparam a ha, hparam b hb⟩
  have hsquare : square.Clear :=
    ⟨hparam 5 (by decide), hsum 6 7 (by decide) (by decide), hsum 6 7 (by decide) (by decide)⟩
  have hclear : ∀ d ∈ Declaration.walkAll ds, d.Clear := by
    have h12 := hsum 1 2 (by decide) (by decide)
    have h34 := hsum 3 4 (by decide) (by decide)
    have h1 : (Declaration.assign (.const 1) (.const 0) {}).Clear := ⟨hparam 1 (by decide), trivial⟩
    have hwalk : Declaration.walkAll ds = [_, square, .loop (sum 1 2) [_] {}, _, square, square] := rfl
    rw [hwalk]
    simp only [List.forall_mem_cons]
    refine ⟨?_, hsquare, h12, h1, hsquare, hsquare, by simp⟩
    simpa [Declaration.Clear] using ⟨⟨h12, h34⟩, h12⟩
  have hok : succeeds (Declaration.lowerAll ds) c (fun rs _ => temporaries rs =
      [0x40, 0x42, 0x43, 0x41, 0x40, 0x44, 0x45, 0x44, 0x44, 0x40, 0x45, 0x46, 0x40, 0x41]) = true := by
    decide +kernel
  obtain ⟨rs, c', h, htemporaries⟩ := eq_ok_of_succeeds hok
  obtain ⟨s, k, -, hrecords, -, hsettled, -⟩ := lowerAll_temporaries (Context.create_inRange 15 none none) hclear h
  exact ⟨rs, c', s, hclear, h, hrecords, of_decide_eq_true htemporaries,
    fun pre u post hsplit => (hsettled pre u post hsplit).1⟩

end Lowering

end Grf
