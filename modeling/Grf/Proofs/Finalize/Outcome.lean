import Grf.Proofs.Conditional.Emits
import Grf.Proofs.Finalize.Registers
import Grf.Proofs.Graph.Built

/-! # What comes of a file

The records of declarations that have been lowered are finalized, unless references form a cycle, or
there are not enough ids or scratch registers: no other failure can come up, and nothing stays
allocated (`finalize_outcome`). A reference has the id of the record it names, and no record in
between has taken that id over (`reference_not_captured`).
-/

namespace Grf.Lowering

open List

open Registry BindStep

variable {decls : List Declaration} {limit : Int} {strings : Option StringTable}
  {sprites : Option SpriteRegistry} {rs out : List Record} {steps : List BindStep} {c c' : Context}
  {r : Registry} {D R : Record} {d : NamedRecord}

/-! ## Records of the output -/

/-- A record of the output, which is the record `R` with the ids of the registry. -/
structure Final (r : Registry) (R R' : Record) : Prop where
  references : R'.references = R.references.map fun ref => (ref.1, r.idOf ref.1)
  named : R'.named? = R.named?.map fun d => { d with id := r.idAt d.node }
  feature : R'.feature? = R.feature?

theorem final_withId {R' : Record} (h : (R.withRefs r.idOf).Alike R') : Final r R (R'.withId r) := by
  obtain ⟨hreferences, hnamed, hfeature, -⟩ := h
  rw [Record.references_withRefs] at hreferences
  rw [Record.named?_withRefs] at hnamed
  rw [Record.feature?_withRefs] at hfeature
  constructor
  · rw [← hreferences]
    obtain ⟨pos, body⟩ := R'
    cases body <;> rfl
  · rw [← hnamed]
    obtain ⟨pos, body⟩ := R'
    cases body <;> rfl
  · rw [← hfeature]
    obtain ⟨pos, body⟩ := R'
    cases body <;> rfl

theorem bound_start (hwritten : c.registry.Written steps [] []) : c.registry.Bound [] steps c.registry :=
  .start hwritten.unbound.id hwritten.unbound.released hwritten.unbound.idPools fun n hn => by
    simpa using hwritten.refCount n

theorem ordered_of_acyclic (hwritten : c.registry.Written steps [] []) (hexact : c.registry.Exact)
    (hacyclic : c.registry.graph.Acyclic) : Ordered (fun n => .bind n ∈ ([] : List BindStep)) steps := by
  have hordered := (hwritten.ordered hexact.unique).resolve_left fun hcycle => hcycle.not_acyclic hacyclic
  simpa using hordered

theorem find?_refCount (h : ∀ n < r.size, (r.entry n).refCount = 0) : r.definitions.find? (·.refCount ≠ 0) = none := by
  refine find?_eq_none.mpr fun d hd => ?_
  obtain ⟨n, -, hget⟩ := mem_filterMap.mp hd
  have hcount := h n (lt_size_of_get? hget)
  rw [entry_eq hget] at hcount
  simp [hcount]

/-! ## The passes -/

theorem run_lift_error {α β : Type} {x : Except Failure α} {f : α → Lowering β} {e : Failure} (h : x = .error e) :
    (lift x >>= f) c = .error e c := by
  rw [h]
  rfl

/-- What finalizing leaves: the records with the ids of the registry, in which nothing is left to
bind. -/
structure Finished (rs : List Record) (steps : List BindStep) (c : Context) (out : List Record) (c' : Context) :
    Prop where
  final : Forall₂ (Final c'.registry) rs out
  bound : c.registry.Bound steps [] c'.registry
  kept : ∀ pre R post, rs = pre ++ R :: post → Kept c'.registry (nodesOf pre) R

/-- **Finalizing stops at a cycle.** Without one, only ids and registers can be lacking. -/
theorem finalize_spec (hexact : c.registry.Exact) (hspelled : Spelled c.registry rs steps)
    (hwritten : c.registry.Written steps [] []) :
    (¬c.registry.graph.Acyclic ∧
      ∃ pos message c', finalize rs c = .error (.compile .unsupportedOperator pos message) c') ∨
    (c.registry.graph.Acyclic ∧ OrExhausted (finalize rs) c (Finished rs steps c)) := by
  rcases Graph.checkCycles_cases hwritten.closed with ⟨hacyclic, hcycles⟩ | ⟨hcyclic, _, _, d, _, -, -, -, hcycles⟩
  · refine .inr ⟨hacyclic, ?_⟩
    rcases mapM_bindRecord_spec hexact hspelled (ordered_of_acyclic hwritten hexact hacyclic)
      (bound_start hwritten) with ⟨_, c₁, hbind, rfl, hbound, -, -, hkept⟩ | ⟨pos, message, c₁, herror⟩
    · have hreaches : Reaches rs c _ c₁ := ⟨hcycles, hbind, find?_refCount hbound.finish.1⟩
      unfold OrExhausted
      rw [hreaches.finalize_eq]
      refine (prepareAll_preparedAs _ c₁).mono ?_
      rintro out c' ⟨hregistry, prepared, hprepared, rfl⟩
      rw [← hregistry] at hbound hkept hprepared ⊢
      refine ⟨?_, hbound, hkept⟩
      rw [forall₂_map_right_iff]
      rw [forall₂_map_left_iff] at hprepared
      exact hprepared.imp fun _ _ h => final_withId h.alike
    · exact .inr ⟨pos, message, c₁, (run_lift_ok hcycles).trans (bind_of_error herror)⟩
  · exact .inl ⟨hcyclic, _, _, c, run_lift_error hcycles⟩

theorem finished_of_ok (hexact : c.registry.Exact) (hspelled : Spelled c.registry rs steps)
    (hwritten : c.registry.Written steps [] []) (hok : finalize rs c = .ok out c') : Finished rs steps c out c' := by
  rcases finalize_spec hexact hspelled hwritten with ⟨-, _, _, _, herror⟩ |
    ⟨-, ⟨out', c'', hok', hfinished⟩ | ⟨_, _, _, herror⟩⟩
  · rw [hok] at herror
    cases herror
  · grind
  · rw [hok] at herror
    cases herror

/-! ## Declarations -/

/-- Finalizes the declarations `ds` pass by pass. Instead of looking for a cycle, a given order of the
definitions is checked. -/
def passes (ds : List Declaration) (order : List Nat) (test : List Record → Bool) : Bool :=
  succeeds (Declaration.lowerAll ds) (Context.create 0 none none) fun rs c =>
    c.registry.Exact && c.registry.graph.respects order && succeeds (rs.mapM bindRecord) c fun bound c₁ =>
      (c₁.registry.definitions.find? (·.refCount ≠ 0)).isNone && succeeds (prepareAll bound) c₁ fun out _ => test out

theorem eq_ok_of_passes {order : List Nat} {test : List Record → Bool} (h : passes decls order test = true) :
    ∃ rs c out c', Declaration.lowerAll decls (Context.create 0 none none) = .ok rs c ∧ c.registry.Exact ∧
      finalize rs c = .ok out c' ∧ test out = true := by
  obtain ⟨rs, c, hlower, h⟩ := eq_ok_of_succeeds h
  rw [Bool.and_eq_true, Bool.and_eq_true, decide_eq_true_eq] at h
  obtain ⟨⟨hexact, hrespects⟩, h⟩ := h
  obtain ⟨bound, c₁, hbind, h⟩ := eq_ok_of_succeeds h
  rw [Bool.and_eq_true, Option.isNone_iff_eq_none] at h
  obtain ⟨hcounts, h⟩ := h
  obtain ⟨out, c', hprepare, htest⟩ := eq_ok_of_succeeds h
  obtain ⟨-, _, -, hwritten⟩ := lowerAll_written hlower
  have hcycles : c.registry.checkCycles = .ok () :=
    if_pos ((Graph.isSome_order? hwritten.closed).mpr (Graph.acyclic_of_respects hrespects))
  have hreaches : Reaches rs c bound c₁ := ⟨hcycles, hbind, hcounts⟩
  exact ⟨rs, c, out, c', hlower, hexact, hreaches.finalize_eq.trans hprepare, htest⟩

theorem bound_of_written (hwritten : c.registry.Written steps [] []) (hbound : c.registry.Bound steps [] c'.registry)
    {n : Nat} (hn : n < c'.registry.size) : 0 ≤ (c'.registry.entry n).id := by
  have hmem : n ∈ binds steps := by
    grind [hwritten.binds, hbound.size]
  exact (hbound.bound n hn).mpr (mem_binds.mp hmem)

/-- **Finalizing ends well or for one of two reasons.** The records of declarations have a cycle of
references, or there are not enough ids or registers, or each definition gets its id, all references
are used up and all ids are free again. -/
theorem finalize_outcome (h : Declaration.lowerAll decls (Context.create limit strings sprites) = .ok rs c)
    (hexact : c.registry.Exact) :
    (¬c.registry.graph.Acyclic ∧
      ∃ pos message c', finalize rs c = .error (.compile .unsupportedOperator pos message) c') ∨
    (c.registry.graph.Acyclic ∧
      ((∃ pos message c', finalize rs c = .error (.compile .resourceExhausted pos message) c') ∨
        ∃ out c', finalize rs c = .ok out c' ∧ c'.registry.size = c.registry.size ∧
          (∀ n d, c'.registry.get? n = some d → 0 ≤ d.id ∧ d.refCount = 0) ∧
          ∀ feature, (c'.registry.idPool feature).inUse = [] ∧
            (c'.registry.idPool feature).free.Perm Pool.recordIds)) := by
  obtain ⟨-, steps, hspelled, hwritten⟩ := lowerAll_written h
  rcases finalize_spec hexact hspelled hwritten with hcyclic | ⟨hacyclic, ⟨out, c', hok, hfinished⟩ | hexhausted⟩
  · exact Or.inl hcyclic
  · have hbound := hfinished.bound
    refine Or.inr ⟨hacyclic, Or.inr ⟨out, c', hok, hbound.size, fun n d hd => ?_, hbound.finish.2⟩⟩
    have hn := lt_size_of_get? hd
    rw [← entry_eq hd]
    exact ⟨bound_of_written hwritten hbound hn, hbound.finish.1 n hn⟩
  · exact Or.inr ⟨hacyclic, Or.inl hexhausted⟩

/-- A table takes over the id of the table that it has called and that is one of its results. -/
theorem finalize_outcome_shared :
    let ds : List Declaration :=
      [.switch ⟨"leaf", 0, false, 1, .const 1, [], some (.const 2), {}⟩,
        .switch ⟨"root", 0, false, 1, .var (Expr.procedureCall (.recordRef "leaf")),
          [⟨0, 3, some (.recordRef "leaf"), {}⟩], some (.const 7), {}⟩]
    ∃ rs c out c', Declaration.lowerAll ds (Context.create 0 none none) = .ok rs c ∧ c.registry.Exact ∧
      finalize rs c = .ok out c' ∧ out.map (·.named?.map (·.id)) = [some 0, some 0] ∧
      (∀ n d, c'.registry.get? n = some d → 0 ≤ d.id ∧ d.refCount = 0) ∧
      ∀ feature, (c'.registry.idPool feature).inUse = [] ∧ (c'.registry.idPool feature).free.Perm Pool.recordIds := by
  intro ds
  have hpasses : passes ds [1, 0] (fun out => out.map (·.named?.map (·.id)) = [some 0, some 0]) = true := by
    decide +kernel
  obtain ⟨rs, c, out, c', h, hexact, hok, hids⟩ := eq_ok_of_passes hpasses
  rcases finalize_outcome h hexact with ⟨-, _, _, _, herror⟩ |
    ⟨-, ⟨_, _, _, herror⟩ | ⟨out', c'', hok', -, hcounts, hpools⟩⟩
  · rw [hok] at herror
    cases herror
  · rw [hok] at herror
    cases herror
  · rw [hok] at hok'
    cases hok'
    exact ⟨rs, c, out, c', h, hexact, hok, of_decide_eq_true hids, hcounts, hpools⟩

/-! ## References of the output -/

theorem nodesOf_final {rs rs' : List Record} (h : Forall₂ (Final r) rs rs') : nodesOf rs' = nodesOf rs := by
  induction h with
  | nil => rfl
  | @cons R R' rs rs' hR _ ih =>
    show R'.named?.toList.map (·.node) ++ nodesOf rs' = R.named?.toList.map (·.node) ++ nodesOf rs
    rw [ih, hR.named]
    cases R.named? <;> rfl

theorem exists_of_mem_nodesOf {n : Nat} (h : n ∈ nodesOf rs) : ∃ before D between d, rs = before ++ D :: between ∧
    D.named? = some d ∧ d.node = n ∧ nodesOf rs = nodesOf before ++ n :: nodesOf between := by
  obtain ⟨D, hD, hn⟩ := mem_flatMap.mp h
  obtain ⟨d, hd, rfl⟩ := mem_map.mp hn
  obtain ⟨before, between, rfl⟩ := append_of_mem hD
  rw [Option.mem_toList] at hd
  refine ⟨before, D, between, d, rfl, hd, rfl, ?_⟩
  grind [nodesOf]

/-- A named record of the output is what the registry says about its definition. -/
def Describes (r : Registry) (d : NamedRecord) : Prop :=
  d.node < r.size ∧ d.name = r.nameOf d.node ∧ d.feature = (r.entry d.node).feature ∧ d.id = (r.entry d.node).id

theorem Finished.split {pre post : List Record} (h : Finished rs steps c (pre ++ R :: post) c') :
    ∃ pre₀ R₀ post₀, rs = pre₀ ++ R₀ :: post₀ ∧ Forall₂ (Final c'.registry) pre₀ pre ∧ Final c'.registry R₀ R := by
  have hrest := forall₂_drop_append _ _ _ h.final
  rw [forall₂_cons_right_iff] at hrest
  obtain ⟨R₀, post₀, hR, -, hdrop⟩ := hrest
  refine ⟨rs.take pre.length, R₀, post₀, ?_, forall₂_take_append _ _ _ h.final, hR⟩
  rw [← hdrop, take_append_drop]

theorem Finished.describes (h : Finished rs steps c out c') (hspelled : Spelled c.registry rs steps)
    (hD : D ∈ out) (hd : D.named? = some d) : Describes c'.registry d := by
  obtain ⟨pre, post, rfl⟩ := append_of_mem hD
  obtain ⟨pre₀, D₀, post₀, rfl, -, hfinal⟩ := h.split
  obtain ⟨targets, htied⟩ := hspelled.tied D₀ (by simp)
  rw [hfinal.named, Option.map_eq_some_iff] at hd
  obtain ⟨d, hd, rfl⟩ := hd
  obtain ⟨hlt, hname, hfeature⟩ := htied.named d hd
  have hlt' : d.node < c'.registry.size := h.bound.size ▸ hlt
  refine ⟨hlt', ?_, ?_, idAt_of_lt hlt'⟩
  · rw [hname, h.bound.nameOf_eq]
  · rw [hfeature, h.bound.feature]

theorem Kept.record {pre : List Record} {ref : String × Int} (h : Kept r (nodesOf pre) R)
    (hdescribes : ∀ D ∈ pre, ∀ d ∈ D.named?, Describes r d) (href : ref ∈ R.references) :
    ∃ before D between d, pre = before ++ D :: between ∧ D.named? = some d ∧ d.node < r.size ∧
      d.name = ref.1 ∧ R.feature? = some d.feature ∧
      ∀ M ∈ between, ∀ m ∈ M.named?, m.feature = d.feature → m.id ≠ d.id := by
  obtain ⟨t, ht, hname, hfeature, hmem, hother⟩ := h ref href
  obtain ⟨before, D, between, d, rfl, hd, rfl, hnodes⟩ := exists_of_mem_nodesOf hmem
  obtain ⟨-, hdname, hdfeature, hdid⟩ := hdescribes D (by simp) d hd
  refine ⟨before, D, between, d, rfl, hd, ht, hdname.trans hname, by rw [hfeature, hdfeature], ?_⟩
  intro M hM m hm hsame
  obtain ⟨-, -, hmfeature, hmid⟩ := hdescribes M (by simp [hM]) m hm
  rw [hdid, hmid]
  refine hother _ _ hnodes m.node (mem_flatMap.mpr ⟨M, hM, by simp [show M.named? = some m from hm]⟩) ?_
  rw [← hmfeature, ← hdfeature, hsame]

/-- **No reference is captured.** A reference of a record has the id of the record that it names.
That record comes before, and no record of its feature in between has its id. -/
theorem reference_not_captured (h : Declaration.lowerAll decls (Context.create limit strings sprites) = .ok rs c)
    (hexact : c.registry.Exact) (hok : finalize rs c = .ok out c') :
    out.map (fun R => R.references.map Prod.fst) = rs.map (fun R => R.references.map Prod.fst) ∧
    ∀ pre R post, out = pre ++ R :: post → ∀ ref ∈ R.references,
      ∃ before D between d, pre = before ++ D :: between ∧ D.named? = some d ∧ d.name = ref.1 ∧ d.id = ref.2 ∧
        R.feature? = some d.feature ∧ c'.registry.lookup? ref.1 = some d.node ∧
        c'.registry.idAt d.node = ref.2 ∧ 0 ≤ d.id ∧
        ∀ M ∈ between, ∀ m ∈ M.named?, m.feature = d.feature → m.id ≠ d.id := by
  obtain ⟨-, steps, hspelled, hwritten⟩ := lowerAll_written h
  have hfinished := finished_of_ok hexact hspelled hwritten hok
  have hbound := hfinished.bound
  refine ⟨?_, ?_⟩
  · rw [eq_comm, ← forall₂_eq_eq_eq, forall₂_map_left_iff, forall₂_map_right_iff]
    refine hfinished.final.imp fun R R' hR => ?_
    rw [hR.references, List.map_map]
    rfl
  rintro pre R post rfl ref href
  obtain ⟨pre₀, R₀, post₀, hrs, hpre, hR⟩ := hfinished.split
  rw [hR.references] at href
  obtain ⟨ref₀, href₀, rfl⟩ := List.mem_map.mp href
  have hkept := hfinished.kept pre₀ R₀ post₀ hrs
  rw [← nodesOf_final hpre] at hkept
  have hdescribes : ∀ D ∈ pre, ∀ d ∈ D.named?, Describes c'.registry d := fun D hD d hd =>
    hfinished.describes hspelled (List.mem_append_left _ hD) hd
  obtain ⟨before, D, between, d, rfl, hd, hlt, hname, hfeature, hother⟩ := hkept.record hdescribes href₀
  obtain ⟨-, hnode, -, hid⟩ := hdescribes D (by simp) d hd
  have hlookup : c'.registry.lookup? ref₀.1 = some d.node := by
    rw [← hname, hnode, lookup?_congr hbound.index hbound.nameOf_eq, hbound.nameOf_eq]
    exact hexact d.node (hbound.size ▸ hlt)
  have hat : c'.registry.idAt d.node = c'.registry.idOf ref₀.1 := by
    rw [idOf, hlookup]
    rfl
  refine ⟨before, D, between, d, rfl, hd, hname, ?_, hR.feature.trans hfeature, hlookup, hat, ?_, hother⟩
  · rw [hid, ← idAt_of_lt hlt, hat]
  · rw [hid]
    exact bound_of_written hwritten hbound hlt

/-- A table with a computed result. The id of the first table is used again before the references to the
second table and to the table of the result are bound. -/
theorem reference_not_captured_computed :
    let ds : List Declaration :=
      [.switch ⟨"leaf", 0, false, 1, .const 1, [], some (.const 2), {}⟩,
        .switch ⟨"base", 0, false, 1, .var (Expr.procedureCall (.recordRef "leaf")), [], some (.const 7), {}⟩,
        .switch ⟨"root", 0, false, 1, .const 1, [⟨0, 3, some (.recordRef "base"), {}⟩],
          some (.binary .mul (.var { num := 0x41 }) (.var { num := 0x42 })), {}⟩]
    ∃ rs c out c', Declaration.lowerAll ds (Context.create 0 none none) = .ok rs c ∧ c.registry.Exact ∧
      finalize rs c = .ok out c' ∧
      out.map (·.references) = [[], [("leaf", 0)], [], [("base", 0), ("root@1", 1)]] ∧
      ∀ pre R post, out = pre ++ R :: post → ∀ ref ∈ R.references,
        ∃ before D between d, pre = before ++ D :: between ∧ D.named? = some d ∧ d.name = ref.1 ∧
          d.id = ref.2 ∧ ∀ M ∈ between, ∀ m ∈ M.named?, m.feature = d.feature → m.id ≠ d.id := by
  intro ds
  have hpasses : passes ds [2, 3, 1, 0] (fun out =>
      out.map (·.references) = [[], [("leaf", 0)], [], [("base", 0), ("root@1", 1)]]) = true := by
    decide +kernel
  obtain ⟨rs, c, out, c', h, hexact, hok, hrefs⟩ := eq_ok_of_passes hpasses
  refine ⟨rs, c, out, c', h, hexact, hok, of_decide_eq_true hrefs, fun pre R post hsplit ref href => ?_⟩
  obtain ⟨before, D, between, d, hpre, hd, hname, hid, -, -, -, -, hother⟩ :=
    (reference_not_captured h hexact hok).2 pre R post hsplit ref href
  exact ⟨before, D, between, d, hpre, hd, hname, hid, hother⟩

end Grf.Lowering
