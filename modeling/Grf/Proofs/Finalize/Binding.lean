import Grf.Proofs.Lowering.Emits

/-! # Binding the records of a file

Binding fails for a lack of ids only, provided that the steps to do are in order (`mapM_bindRecord_spec`): a reference
is bound after its definition, which is bound once. Every reference gets the id that its definition has in the end, and
no record of the same feature in between has the same id (`Keeps`).
-/

namespace Grf

open List Record StreamItem

/-- The id of the definition with a name, negative if there is none. -/
def Registry.idOf (r : Registry) (name : String) : Int := ((r.lookup? name).map r.idAt).getD (-1)

/-! ## Records with ids -/

def StreamItem.withRefs (ids : String → Int) : StreamItem → StreamItem
  | .operand (.var v) =>
    match v.param with
    | some (.record name _) => .operand (.var { v with param := some (.record name (ids name)) })
    | _ => .operand (.var v)
  | item => item

def TableResult.withRefs (ids : String → Int) : TableResult → TableResult
  | .callback value => .callback value
  | .ref name _ => .ref name (ids name)

def Record.withRefs (ids : String → Int) (R : Record) : Record :=
  match R.body with
  | .decisionTable t => ⟨R.pos, .decisionTable { t with
      stream := t.stream.map (·.withRefs ids)
      ranges := t.ranges.map fun range => { range with result := range.result.withRefs ids }
      default := t.default.withRefs ids }⟩
  | .graphicsTable t => ⟨R.pos, .graphicsTable { t with
      cargo := t.cargo.map fun entry => (entry.1, { entry.2 with id := ids entry.2.name })
      default := { t.default with id := ids t.default.name } }⟩
  | _ => R

section WithRefs

variable {ids ids' : String → Int}

theorem StreamItem.reference?_withRefs (item : StreamItem) :
    (item.withRefs ids).reference? = item.reference?.map fun ref => (ref.1, ids ref.1) := by
  unfold withRefs
  split
  · grind [reference?]
  · rename_i h
    unfold reference?
    split
    · rename_i v
      exact absurd rfl (h v)
    · rfl

theorem TableResult.reference?_withRefs (result : TableResult) :
    (result.withRefs ids).reference? = result.reference?.map fun ref => (ref.1, ids ref.1) := by
  cases result <;> rfl

namespace Record

theorem references_withRefs (R : Record) :
    (R.withRefs ids).references = R.references.map fun ref => (ref.1, ids ref.1) := by
  obtain ⟨pos, body⟩ := R
  cases body with
  | decisionTable t =>
    show (t.stream.map _).filterMap _ ++ (t.ranges.map _).filterMap _ ++ _ = List.map _ (_ ++ _ ++ _)
    rw [filterMap_map, filterMap_map, map_append, map_append, map_filterMap, map_filterMap]
    refine congrArg₂ _ (congrArg₂ _ ?_ ?_) ?_
    · exact filterMap_congr fun item _ => item.reference?_withRefs
    · exact filterMap_congr fun range _ => range.result.reference?_withRefs
    · rw [t.default.reference?_withRefs]
      cases t.default.reference? <;> rfl
  | graphicsTable t =>
    show (t.cargo.map _).map _ ++ [_] = List.map _ (_ ++ [_])
    rw [map_append, map_map, map_map]
    rfl
  | _ => rfl

theorem named?_withRefs (R : Record) : (R.withRefs ids).named? = R.named? := by
  obtain ⟨pos, body⟩ := R
  cases body <;> rfl

theorem feature?_withRefs (R : Record) : (R.withRefs ids).feature? = R.feature? := by
  obtain ⟨pos, body⟩ := R
  cases body <;> rfl

end Record

theorem StreamItem.withRefs_congr {item : StreamItem}
    (h : ∀ ref ∈ item.reference?, ids ref.1 = ids' ref.1) : item.withRefs ids = item.withRefs ids' := by
  unfold withRefs
  split
  · split
    · simp_all [reference?]
    · rfl
  · rfl

theorem TableResult.withRefs_congr {result : TableResult}
    (h : ∀ ref ∈ result.reference?, ids ref.1 = ids' ref.1) : result.withRefs ids = result.withRefs ids' := by
  cases result with
  | callback => rfl
  | ref name id => exact congrArg _ (h (name, id) rfl)

theorem Record.withRefs_congr {R : Record} (h : ∀ ref ∈ R.references, ids ref.1 = ids' ref.1) :
    R.withRefs ids = R.withRefs ids' := by
  obtain ⟨pos, body⟩ := R
  cases body with
  | decisionTable t =>
    replace h : ∀ ref ∈ t.stream.filterMap (·.reference?) ++ t.ranges.filterMap (·.result.reference?)
      ++ t.default.reference?.toList, ids ref.1 = ids' ref.1 := h
    rw [forall_mem_append, forall_mem_append] at h
    obtain ⟨⟨hstream, hranges⟩, hdefault⟩ := h
    have hstream' : t.stream.map (·.withRefs ids) = t.stream.map (·.withRefs ids') :=
      map_congr_left fun item hitem => StreamItem.withRefs_congr fun ref href =>
        hstream ref (mem_filterMap.mpr ⟨item, hitem, href⟩)
    have hranges' : (t.ranges.map fun range => { range with result := range.result.withRefs ids }) =
        t.ranges.map fun range => { range with result := range.result.withRefs ids' } :=
      map_congr_left fun range hrange => by
        rw [TableResult.withRefs_congr fun ref href => hranges ref (mem_filterMap.mpr ⟨range, hrange, href⟩)]
    have hdefault' : t.default.withRefs ids = t.default.withRefs ids' :=
      TableResult.withRefs_congr fun ref href => hdefault ref (by simpa using href)
    simp only [withRefs, hstream', hranges', hdefault']
  | graphicsTable t =>
    replace h : ∀ ref ∈ t.cargo.map (fun entry => (entry.2.name, entry.2.id)) ++
      [(t.default.name, t.default.id)],
      ids ref.1 = ids' ref.1 := h
    rw [forall_mem_append, forall_mem_singleton, forall_mem_map] at h
    obtain ⟨hcargo, hdefault⟩ := h
    have hcargo' : (t.cargo.map fun entry => (entry.1, { entry.2 with id := ids entry.2.name })) =
        t.cargo.map fun entry => (entry.1, { entry.2 with id := ids' entry.2.name }) :=
      map_congr_left fun entry hentry => by rw [hcargo entry hentry]
    simp only [withRefs, hcargo', hdefault]
  | _ => rfl

end WithRefs

namespace Registry

variable {r r' r₀ : Registry} {n : Nat}

theorem idAt_of_lt (h : n < r.size) : r.idAt n = (r.entry n).id := by
  unfold idAt
  rw [get?_entry h]
  rfl

variable {done todo : List BindStep}

theorem Bound.idOf_nameOf (h : Bound r₀ done todo r) (hexact : r₀.Exact) (hn : n < r₀.size) :
    r.idOf (r₀.nameOf n) = (r.entry n).id := by
  unfold idOf
  rw [lookup?_congr h.index h.nameOf_eq, hexact n hn]
  exact idAt_of_lt (h.size ▸ hn)

theorem Bound.idOf_eq {done' todo' : List BindStep} (h : Bound r₀ done todo r)
    (h' : Bound r₀ done' todo' r') (hids : ∀ n, (r'.entry n).id = (r.entry n).id) : r'.idOf = r.idOf := by
  funext name
  unfold idOf
  rw [lookup?_congr h.index h.nameOf_eq, lookup?_congr h'.index h'.nameOf_eq]
  cases hlookup : r₀.lookup? name with
  | none => rfl
  | some n =>
    show r'.idAt n = r.idAt n
    by_cases hn : n < r₀.size
    · rw [idAt_of_lt (h'.size ▸ hn), idAt_of_lt (h.size ▸ hn), hids]
    · have hnone : ∀ {r : Registry}, ¬n < r.size → r.idAt n = -1 := by
        intro r hn
        unfold idAt get?
        rw [Array.getElem?_eq_none (Nat.not_lt.mp hn)]
        rfl
      rw [hnone (h'.size ▸ hn), hnone (h.size ▸ hn)]

end Registry

namespace Lowering

open Registry BindStep

variable {α β : Type} {c : Context} {r₀ : Registry} {pos : Position}

/-! ## Lowerings that fail for a lack of resources only -/

/-- The lowering `m` gives a result with the property `P`, or a resource is exhausted. -/
def OrExhausted (m : Lowering α) (c : Context) (P : α → Context → Prop) : Prop := (∃ a c', m c = .ok a c' ∧ P a c') ∨
    ∃ pos message c', m c = .error (.compile .resourceExhausted pos message) c'

namespace OrExhausted

variable {P : α → Context → Prop} {Q : β → Context → Prop} {m : Lowering α} {c' : Context} {f : α → Lowering β}

theorem ok {a : α} (h : m c = .ok a c') (hP : P a c') : OrExhausted m c P :=
  .inl ⟨a, c', h, hP⟩

theorem bind (hm : OrExhausted m c P) (hf : ∀ a c', P a c' → OrExhausted (f a) c' Q) : OrExhausted (m >>= f) c Q := by
  rcases hm with ⟨a, c', hok, hP⟩ | ⟨pos, message, c', herror⟩
  · unfold OrExhausted
    rw [bind_of_ok hok]
    exact hf a c' hP
  · exact .inr ⟨pos, message, c', bind_of_error herror⟩

theorem mono {P' : α → Context → Prop} (hm : OrExhausted m c P) (h : ∀ a c', P a c' → P' a c') :
    OrExhausted m c P' := by
  rcases hm with ⟨a, c', hok, hP⟩ | herror
  · exact .inl ⟨a, c', hok, h a c' hP⟩
  · exact .inr herror

theorem of_ok {a : α} (hm : OrExhausted m c P) (hok : m c = .ok a c') : P a c' := by
  rcases hm with ⟨_, _, hok', hP⟩ | ⟨_, _, _, herror⟩
  · rw [hok] at hok'
    cases hok'
    exact hP
  · rw [hok] at herror
    cases herror

theorem mapM {I : Context → Prop} {T : α → β → Prop} (as : List α)
    (hf : ∀ a c, I c → OrExhausted (f a) c fun b c' => T a b ∧ I c') (hc : I c) :
    OrExhausted (as.mapM f) c fun bs c' => Forall₂ T as bs ∧ I c' := by
  induction as generalizing c with
  | nil => exact .ok rfl ⟨.nil, hc⟩
  | cons a as ih =>
    rw [List.mapM_cons]
    refine (hf a c hc).bind fun b c' hb => (ih hb.2).bind fun bs c'' hbs => ?_
    exact .ok rfl ⟨.cons hb.1 hbs.1, hbs.2⟩

end OrExhausted

/-! ## References -/

/-- The lowering `m` binds references to `names` and puts their ids into its result. -/
def Uses (r₀ : Registry) (m : Lowering α) (names : List String) (result : (String → Int) → α) : Prop :=
  ∀ (c : Context) (done todo : List BindStep) (targets : List Nat), names = targets.map r₀.nameOf →
    (∀ t ∈ targets, t < r₀.size ∧ .bind t ∈ done) →
    r₀.Bound done (targets.map .use ++ todo) c.registry →
    ∃ c', m c = .ok (result c.registry.idOf) c' ∧ r₀.Bound (done ++ targets.map .use) todo c'.registry ∧
      c'.scratch = c.scratch ∧ ∀ n, (c'.registry.entry n).id = (c.registry.entry n).id

namespace Uses

variable {names names' : List String} {result : (String → Int) → α}

theorem pure (a : α) : Uses r₀ (pure a) [] fun _ => a := by
  intro c done todo targets hnames _ hbound
  obtain rfl := map_eq_nil_iff.mp hnames.symm
  exact ⟨c, rfl, by simpa using hbound, rfl, fun _ => rfl⟩

theorem bind {m : Lowering α} {f : α → Lowering β} {result' : α → (String → Int) → β}
    (hm : Uses r₀ m names result) (hf : ∀ a, Uses r₀ (f a) names' (result' a)) :
    Uses r₀ (m >>= f) (names ++ names') fun ids => result' (result ids) ids := by
  intro c done todo targets hnames htargets hbound
  obtain ⟨first, second, rfl, hfirst, hsecond⟩ := map_eq_append_iff.mp hnames.symm
  rw [forall_mem_append] at htargets
  rw [map_append, append_assoc] at hbound
  obtain ⟨d, hok, hbound', hscratch, hids⟩ := hm c done _ first hfirst.symm htargets.1 hbound
  obtain ⟨c', hok', hbound'', hscratch', hids'⟩ := hf (result c.registry.idOf) d _ todo second hsecond.symm
    (fun t ht => ⟨(htargets.2 t ht).1, mem_append_left _ (htargets.2 t ht).2⟩) hbound'
  rw [hbound.idOf_eq hbound' hids] at hok'
  refine ⟨c', bind_eq_ok.mpr ⟨_, d, hok, hok'⟩, ?_, hscratch'.trans hscratch, fun n => (hids' n).trans (hids n)⟩
  rwa [map_append, ← append_assoc]

theorem map {m : Lowering α} (hm : Uses r₀ m names result) (f : α → β) :
    Uses r₀ (do return f (← m)) names fun ids => f (result ids) := by
  have h : Uses r₀ (m >>= fun a => Pure.pure (f a)) (names ++ []) fun ids => f (result ids) :=
    hm.bind fun a => pure (f a)
  rwa [append_nil] at h

theorem mapM {f : α → Lowering β} {names : α → List String} {result : α → (String → Int) → β} (as : List α)
    (h : ∀ a ∈ as, Uses r₀ (f a) (names a) (result a)) :
    Uses r₀ (as.mapM f) (as.flatMap names) fun ids => as.map (result · ids) := by
  induction as with
  | nil => exact pure []
  | cons a as ih =>
    rw [List.mapM_cons, flatMap_cons]
    have htail := ih fun x hx => h x (mem_cons_of_mem _ hx)
    exact (h a (by simp)).bind fun b => htail.map (b :: ·)

end Uses

theorem bindRef_uses (hexact : r₀.Exact) (name : String) (pos : Position) :
    Uses r₀ (bindRef name pos) [name] fun ids => ids name := by
  intro c done todo targets hnames htargets hbound
  obtain ⟨t, ⟨rfl, rfl⟩⟩ : ∃ t, targets = [t] ∧ r₀.nameOf t = name := by
    obtain ⟨t, rest, rfl, ht, hrest⟩ := map_eq_cons_iff.mp hnames.symm
    exact ⟨t, by rw [map_eq_nil_iff.mp hrest], ht⟩
  obtain ⟨ht, hdone⟩ := htargets t (by simp)
  obtain ⟨r', hremove, hbound', hids⟩ := Bound.use hbound (hbound.size ▸ ht) hdone
  refine ⟨{ c with registry := r' }, ?_, hbound', rfl, hids⟩
  have hbind : c.registry.bindRef (r₀.nameOf t) pos = .ok (c.registry.idOf (r₀.nameOf t), r') := by
    unfold Registry.bindRef
    rw [hbound.find_nameOf hexact (hbound.size ▸ ht)]
    show (c.registry.removeRef t (c.registry.entry t) >>= fun r => .ok ((c.registry.entry t).id, r)) = _
    rw [hremove, hbound.idOf_nameOf hexact ht]
    rfl
  refine bind_eq_ok.mpr ⟨c, c, rfl, bind_eq_ok.mpr ⟨_, c, lift_eq_ok.mpr ⟨hbind, rfl⟩, ?_⟩⟩
  rfl

theorem bindItem_uses (hexact : r₀.Exact) (pos : Position) {item : StreamItem} (hcalls : item.CallsOnly) :
    Uses r₀ (bindItem pos item) (item.reference?.toList.map Prod.fst) item.withRefs := by
  match item with
  | .op operator => exact .pure _
  | .operand (.var v) =>
    by_cases hrecord : ∃ name id, v.param = some (.record name id)
    · obtain ⟨name, id, hparam⟩ := hrecord
      have hnum : v.num = VarRead.procedureNum := hcalls name id hparam
      have huses := (bindRef_uses hexact name pos).map fun id =>
        operand (.var { v with param := some (.record name id) })
      simpa [bindItem, reference?, StreamItem.withRefs, hnum, hparam] using huses
    · have hnone : ∀ name id, v.param ≠ some (.record name id) := fun name id h => hrecord ⟨name, id, h⟩
      have hbind : bindItem pos (.operand (.var v)) = Pure.pure (.operand (.var v)) := by
        simp [bindItem]
      have hwith : (operand (.var v)).withRefs = fun _ => .operand (.var v) := by
        simp only [StreamItem.withRefs]
      have hno : (operand (.var v)).reference? = none := by simp only [reference?]
      rw [hbind, hwith, hno]
      exact .pure _
  | .operand (.const _) | .operand (.param _) | .operand (.string ..) | .operand (.record ..)
  | .operand (.binary ..) | .operand (.not _) | .operand (.store _) | .operand (.load _) => exact .pure _

theorem bindResult_uses (hexact : r₀.Exact) (pos : Position) (result : TableResult) :
    Uses r₀ (bindResult pos result) (result.reference?.toList.map Prod.fst) result.withRefs := by
  cases result with
  | callback => exact .pure _
  | ref name id => exact (bindRef_uses hexact name pos).map fun id => TableResult.ref name id

theorem bind_orExhausted {n : Nat} {done todo : List BindStep}
    (hbound : r₀.Bound done (.bind n :: todo) c.registry) (hn : n < r₀.size) (hdone : .bind n ∉ done)
    (pos : Position) : OrExhausted (bind n pos) c fun _ c' => r₀.Bound (done ++ [.bind n]) todo c'.registry ∧
      c'.scratch = c.scratch ∧ ∀ m ≠ n, (c'.registry.entry m).id = (c.registry.entry m).id := by
  have hn' : n < c.registry.size := hbound.size ▸ hn
  refine .bind (P := fun d c' => c = d ∧ c = c') (.ok rfl ⟨rfl, rfl⟩) ?_
  rintro _ _ ⟨rfl, rfl⟩
  rcases Bound.bind hbound hn' hdone pos with ⟨message, herror⟩ | ⟨id, r', hok, hbound', -, hids⟩
  · refine .bind (P := fun _ _ => False) (.inr ⟨pos, message, c, ?_⟩) fun _ _ h => h.elim
    rw [herror]
    rfl
  refine .bind (P := fun x c' => x = (id, r') ∧ c = c') (.ok (lift_eq_ok.mpr ⟨hok, rfl⟩) ⟨rfl, rfl⟩) ?_
  rintro _ _ ⟨rfl, rfl⟩
  refine .bind (P := fun _ c' => c'.registry = r' ∧ c'.scratch = c.scratch) (.ok rfl ⟨rfl, rfl⟩) fun _ d hd => ?_
  -- what is noted in the log makes no difference
  have hend : ∀ c' : Context, c'.registry = r' ∧ c'.scratch = c.scratch →
      r₀.Bound (done ++ [.bind n]) todo c'.registry ∧ c'.scratch = c.scratch ∧
        ∀ m ≠ n, (c'.registry.entry m).id = (c.registry.entry m).id := by
    simp_all
  rw [get?_entry hn']
  dsimp only
  split
  · exact .ok rfl (hend _ hd)
  · exact .ok rfl (hend _ hd)

section Records

variable {R : Record} {rs : List Record} {targets : List Nat} {steps done todo : List BindStep}

def bindName (R : Record) : Lowering Unit :=
  match R.named? with
  | some d => do let _ ← bind d.node R.pos
  | none => Pure.pure ()

theorem bindRecord_eq (hexact : r₀.Exact) (hcalls : R.CallsOnly) :
    ∃ refs : Lowering Record, Uses r₀ refs (R.references.map Prod.fst) (fun ids => R.withRefs ids) ∧
      bindRecord R = (do let R' ← refs; bindName R; return R') := by
  obtain ⟨pos, body⟩ := R
  cases body with
  | decisionTable t =>
    have hstream := Uses.mapM t.stream fun item hitem => bindItem_uses hexact pos (hcalls item hitem)
    have hranges := Uses.mapM t.ranges fun range _ =>
      (bindResult_uses hexact pos range.result).map fun result => { range with result }
    have hdefault := bindResult_uses hexact pos t.default
    have hall := hstream.bind fun stream => hranges.bind fun ranges => hdefault.map fun default =>
      (⟨pos, .decisionTable { t with stream, ranges, default }⟩ : Record)
    have hnames : (references ⟨pos, .decisionTable t⟩).map Prod.fst =
        t.stream.flatMap (fun item => item.reference?.toList.map Prod.fst) ++
          (t.ranges.flatMap (fun range => range.result.reference?.toList.map Prod.fst) ++
            t.default.reference?.toList.map Prod.fst) := by
      show List.map _ (_ ++ _ ++ _) = _
      simp only [map_append, filterMap_eq_flatMap_toList, map_flatMap, append_assoc]
    refine ⟨_, hnames ▸ hall, ?_⟩
    simp only [bindRecord, bindName, named?, bind_assoc, pure_bind]
  | graphicsTable t =>
    have hcargo := Uses.mapM t.cargo fun entry _ =>
      (bindRef_uses hexact entry.2.name pos).map fun id => (entry.1, { entry.2 with id })
    have hall := hcargo.bind fun cargo => (bindRef_uses hexact t.default.name pos).map fun id =>
      (⟨pos, .graphicsTable { t with cargo, default := { t.default with id } }⟩ : Record)
    have hnames : (references ⟨pos, .graphicsTable t⟩).map Prod.fst =
        t.cargo.flatMap (fun entry => [entry.2.name]) ++ [t.default.name] := by
      show List.map _ (_ ++ [_]) = _
      rw [map_append, map_map, ← map_eq_flatMap]
      rfl
    refine ⟨_, hnames ▸ hall, ?_⟩
    simp only [bindRecord, bindName, named?, bind_assoc, pure_bind]
  | spriteGroup g => exact ⟨Pure.pure ⟨pos, .spriteGroup g⟩, .pure _, by simp [bindRecord, bindName, named?]⟩
  | _ => exact ⟨Pure.pure _, .pure _, rfl⟩

theorem bindRecord_spec (hexact : r₀.Exact) (htied : Tied r₀ R targets)
    (hbound : r₀.Bound done (R.bindSteps targets ++ todo) c.registry)
    (hordered : Ordered (fun n => .bind n ∈ done) (R.bindSteps targets)) :
    OrExhausted (bindRecord R) c fun R' c' => R' = R.withRefs c.registry.idOf ∧
      r₀.Bound (done ++ R.bindSteps targets) todo c'.registry ∧ c'.scratch = c.scratch ∧
      ∀ n, .bind n ∈ done → (c'.registry.entry n).id = (c.registry.entry n).id := by
  rw [bindSteps, ordered_append, ordered_uses, ordered_binds] at hordered
  obtain ⟨huses, -, hbinds⟩ := hordered
  rw [bindSteps, append_assoc] at hbound
  rw [bindSteps]
  have htargets : ∀ t ∈ targets, t < r₀.size ∧ .bind t ∈ done := fun t ht => ⟨htied.lt_size t ht, huses t ht⟩
  obtain ⟨refs, hrefs, heq⟩ := bindRecord_eq hexact htied.calls
  obtain ⟨d, hok, hbound', hscratch, hids⟩ := hrefs c done _ targets htied.names htargets hbound
  rw [heq]
  refine .bind (P := fun R' c' => R' = R.withRefs c.registry.idOf ∧ d = c') (.ok hok ⟨rfl, rfl⟩) ?_
  rintro _ _ ⟨rfl, rfl⟩
  unfold bindName
  cases hnamed : R.named? with
  | none =>
    rw [hnamed] at hbound'
    refine .ok rfl ⟨rfl, ?_, hscratch, fun n _ => hids n⟩
    simpa using hbound'
  | some own =>
    rw [hnamed] at hbound' hbinds
    have hfresh : .bind own.node ∉ done ++ targets.map .use := by
      intro hmem
      refine hbinds own.node (by simp) ?_
      exact (mem_append.mp hmem)
    have hbind := bind_orExhausted hbound' (htied.named own hnamed).1 hfresh R.pos
    have hname : OrExhausted (do let _ ← bind own.node R.pos) d fun _ c' =>
        r₀.Bound (done ++ targets.map .use ++ [.bind own.node]) todo c'.registry ∧
          c'.scratch = d.scratch ∧ ∀ m ≠ own.node, (c'.registry.entry m).id = (d.registry.entry m).id :=
      hbind.bind fun _ c' hc' => .ok rfl hc'
    refine hname.bind fun _ c' hc' => .ok rfl ⟨rfl, ?_, ?_, fun n hn => ?_⟩
    · rw [← append_assoc]
      exact hc'.1
    · exact hc'.2.1.trans hscratch
    · rw [hc'.2.2 n, hids]
      rintro rfl
      exact hfresh (mem_append_left _ hn)

/-- What a record refers to has been bound, and no definition of its feature that has been bound since has got its id. -/
def Kept (r : Registry) (bound : List Nat) (R : Record) : Prop :=
  ∀ ref ∈ R.references, ∃ t < r.size, r.nameOf t = ref.1 ∧ R.feature? = some (r.entry t).feature ∧ t ∈ bound ∧
    ∀ before between, bound = before ++ t :: between → ∀ m ∈ between,
      (r.entry m).feature = (r.entry t).feature → (r.entry m).id ≠ (r.entry t).id

def nodesOf (rs : List Record) : List Nat := rs.flatMap fun R => R.named?.toList.map (·.node)

theorem binds_bindSteps (R : Record) (targets : List Nat) :
    binds (R.bindSteps targets) = R.named?.toList.map (·.node) := by
  simp [binds, bindSteps, filterMap_append, filterMap_map]

/-- **Binding fails for a lack of ids only.** Each reference gets the id that its definition has in the
end. -/
theorem mapM_bindRecord_spec (hexact : r₀.Exact) (hspelled : Spelled r₀ rs steps)
    (hordered : Ordered (fun n => .bind n ∈ done) steps) (hbound : r₀.Bound done steps c.registry) :
    OrExhausted (rs.mapM bindRecord) c fun bound c' => bound = rs.map (·.withRefs c'.registry.idOf) ∧
      r₀.Bound (done ++ steps) [] c'.registry ∧ c'.scratch = c.scratch ∧
      (∀ n, .bind n ∈ done → (c'.registry.entry n).id = (c.registry.entry n).id) ∧
      ∀ pre R post, rs = pre ++ R :: post → Kept c'.registry (binds done ++ nodesOf pre) R := by
  induction hspelled generalizing c done with
  | nil => exact .ok rfl ⟨rfl, by simpa using hbound, rfl, fun _ _ => rfl, by simp⟩
  | @cons R targets rs steps htied hrest ih =>
    rw [ordered_append] at hordered
    rw [List.mapM_cons]
    refine (bindRecord_spec hexact htied hbound hordered.1).bind ?_
    rintro _ d ⟨rfl, hbound', hscratch, hids⟩
    have hordered' : Ordered (fun n => .bind n ∈ done ++ R.bindSteps targets) steps := by
      simpa only [mem_append] using hordered.2
    refine (ih hordered' hbound').bind ?_
    rintro _ c' ⟨rfl, hbound'', hscratch', hids', hkept⟩
    have hdone : ∀ n, .bind n ∈ done → (c'.registry.entry n).id = (c.registry.entry n).id := fun n hn =>
      (hids' n (mem_append_left _ hn)).trans (hids n hn)
    have huses : ∀ t ∈ targets, .bind t ∈ done := by
      grind [bindSteps, ordered_append, ordered_uses]
    have hrefs : ∀ ref ∈ R.references, ∃ t ∈ targets, r₀.nameOf t = ref.1 := by
      intro ref href
      have hmem : ref.1 ∈ targets.map r₀.nameOf := htied.names ▸ mem_map_of_mem href
      exact mem_map.mp hmem
    refine .ok rfl ⟨?_, ?_, hscratch'.trans hscratch, hdone, ?_⟩
    · -- the ids of the references have not changed since they were written
      refine congrArg (· :: _) (withRefs_congr fun ref href => ?_)
      grind [hbound.idOf_nameOf, htied.lt_size, hbound''.idOf_nameOf]
    · rwa [← append_assoc]
    · rintro (_ | ⟨R', pre⟩) R'' post heq
      · obtain ⟨rfl, rfl⟩ := List.cons.inj heq
        intro ref href
        obtain ⟨t, ht, hname⟩ := hrefs ref href
        have hlt := htied.lt_size t ht
        refine ⟨t, hbound''.size ▸ hlt, by rw [hbound''.nameOf_eq, hname], ?_, ?_, ?_⟩
        · rw [hbound''.feature, htied.feature t ht]
        · simpa [nodesOf] using mem_binds.mpr (huses t ht)
        · intro before between hsplit m hm hfeature
          rw [nodesOf, flatMap_nil, append_nil] at hsplit
          have hm' : .bind m ∈ done := mem_binds.mp (by simp [hsplit, hm])
          have hfresh := hbound.fresh
          rw [hsplit] at hfresh
          obtain ⟨-, hpair, -⟩ := pairwise_append.mp hfresh
          rw [hbound''.feature, hbound''.feature, ← hbound.feature, ← hbound.feature] at hfeature
          rw [hdone m hm', hdone t (huses t ht)]
          refine (pairwise_cons.mp hpair).1 m hm ?_ hfeature
          exact mem_append_left _ (mem_append_left _ (mem_map_of_mem ht))
      · obtain ⟨rfl, rfl⟩ := List.cons.inj heq
        have h := hkept pre R'' post rfl
        rw [binds_append, binds_bindSteps, append_assoc] at h
        exact h

end Records

end Lowering

end Grf
