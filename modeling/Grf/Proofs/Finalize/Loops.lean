import Grf.Proofs.Conditional.Resolution
import Grf.Proofs.Finalize.Outcome

/-! # References inside of loops

An id is free again behind the last reference to its definition in the order of the output, but loops are executed in
another order. `lowerAll_loops_designate` says what this means for a reference inside of a loop to a definition before
it. A definition of the loop takes the id only if no reference stands behind it, and if it does, it is what the
reference stands for from the second turn on.
-/

namespace Grf

open List Record

/-- The definition at a position of the output has the feature and the id of `d`. -/
def TakesIdOf (out : List Record) (e : Nat) (d : NamedRecord) : Prop :=
  ∃ E m, out[e]? = some E ∧ E.named? = some m ∧ m.feature = d.feature ∧ m.id = d.id

/-- The record at a position of the output refers to `d`. -/
def RefersTo (out : List Record) (k : Nat) (d : NamedRecord) : Prop :=
  ∃ R ref, out[k]? = some R ∧ ref ∈ R.references ∧ ref.1 = d.name

/-- What an id of a feature stands for when some records have been executed: the last definition that
has it. -/
def designated? (feature id : Int) (executed : List Record) : Option NamedRecord :=
  (executed.filterMap Record.named?).reverse.find? fun m => m.feature = feature ∧ m.id = id

namespace Lowering

open Registry BindStep

variable {decls : List Declaration} {limit : Int} {strings : Option StringTable}
  {sprites : Option SpriteRegistry} {rs out : List Record} {steps : List BindStep} {c c' : Context}
  {d d' : NamedRecord} {D D' : Record} {p q : Nat}

theorem binds_of_spelled {r : Registry} (h : Spelled r rs steps) : binds steps = nodesOf rs := by
  induction h with
  | nil => rfl
  | cons tied _ ih =>
    rw [binds_append, binds_bindSteps, ih]
    rfl

theorem position_eq_of_node (hnodup : (nodesOf out).Nodup) (hD : out[p]? = some D) (hd : D.named? = some d)
    (hD' : out[q]? = some D') (hd' : D'.named? = some d') (hnode : d.node = d'.node) : p = q := by
  have hapart := pairwise_iff_getElem.mp (nodup_flatMap.mp hnodup).2
  obtain ⟨hp, rfl⟩ := List.getElem?_eq_some_iff.mp hD
  obtain ⟨hq, rfl⟩ := List.getElem?_eq_some_iff.mp hD'
  have hmem : d.node ∈ (out[p]).named?.toList.map (·.node) := by simp [hd]
  have hmem' : d.node ∈ (out[q]).named?.toList.map (·.node) := by simp [hd', hnode]
  rcases Nat.lt_trichotomy p q with hlt | heq | hlt
  · exact (hapart p q hp hq hlt hmem hmem').elim
  · exact heq
  · exact (hapart q p hq hp hlt hmem' hmem).elim

/-- A file that has been finalized, and how it has been lowered. -/
structure Settled (rs : List Record) (steps : List BindStep) (c : Context) (out : List Record)
    (c' : Context) : Prop where
  exact : c.registry.Exact
  spelled : Spelled c.registry rs steps
  written : c.registry.Written steps [] []
  finished : Finished rs steps c out c'

namespace Settled

variable (h : Settled rs steps c out c')
include h

theorem describes (hD : out[p]? = some D) (hd : D.named? = some d) : Describes c'.registry d :=
  h.finished.describes h.spelled (mem_of_getElem? hD) hd

theorem position_eq (hD : out[p]? = some D) (hd : D.named? = some d)
    (hD' : out[q]? = some D') (hd' : D'.named? = some d') (hname : d.name = d'.name) : p = q := by
  have hbound := h.finished.bound
  have hnodup : (nodesOf out).Nodup := by
    have hbinds := h.written.binds
    rw [append_nil, binds_of_spelled h.spelled, ← nodesOf_final h.finished.final] at hbinds
    exact hbinds.nodup_iff.mpr nodup_range
  obtain ⟨hlt, hdname, -⟩ := h.describes hD hd
  obtain ⟨hlt', hdname', -⟩ := h.describes hD' hd'
  rw [hbound.nameOf_eq] at hdname hdname'
  have hfound := h.exact d.node (hbound.size ▸ hlt)
  have hfound' := h.exact d'.node (hbound.size ▸ hlt')
  rw [← hdname, hname] at hfound
  rw [← hdname'] at hfound'
  exact position_eq_of_node hnodup hD hd hD' hd' (Option.some.inj (hfound.symm.trans hfound'))

theorem reference {k : Nat} (hD : out[p]? = some D) (hd : D.named? = some d)
    (href : RefersTo out k d) : p < k ∧ ∀ e, p < e → e < k → ¬TakesIdOf out e d := by
  obtain ⟨R, ref, hR, href, hname⟩ := href
  obtain ⟨hk, hRk⟩ := List.getElem?_eq_some_iff.mp hR
  have hsplit : out = out.take k ++ R :: out.drop (k + 1) := by
    rw [← hRk, getElem_cons_drop, take_append_drop]
  have hfinished := h.finished
  rw [hsplit] at hfinished
  obtain ⟨pre₀, R₀, post₀, hrs, hpre, hfinal⟩ := hfinished.split
  have hkept := h.finished.kept pre₀ R₀ post₀ hrs
  rw [← nodesOf_final hpre] at hkept
  rw [hfinal.references] at href
  obtain ⟨ref₀, href₀, rfl⟩ := mem_map.mp href
  have hdescribes : ∀ D ∈ out.take k, ∀ d ∈ D.named?, Describes c'.registry d := fun D hD d hd =>
    h.finished.describes h.spelled (mem_of_mem_take hD) hd
  obtain ⟨before, D', between, d', htake, hd', -, hname', -, hother⟩ := hkept.record hdescribes href₀
  -- the record that binding has found is the one at `p`
  have hplace : ∀ e, e < k → out[e]? = (before ++ D' :: between)[e]? := fun e he => by
    rw [← htake, getElem?_take_of_lt he]
  have hlength : before.length < k := by
    have htaken := congrArg List.length htake
    simp only [length_take, length_append, length_cons] at htaken
    omega
  have hD' : out[before.length]? = some D' := by
    rw [hplace _ hlength, getElem?_append_right (Nat.le_refl _), Nat.sub_self]
    rfl
  obtain rfl : p = before.length := h.position_eq hD hd hD' hd' (hname.symm.trans hname'.symm)
  obtain rfl : D = D' := Option.some.inj (hD.symm.trans hD')
  obtain rfl : d = d' := Option.some.inj (hd.symm.trans hd')
  refine ⟨hlength, fun e hp hek htakes => ?_⟩
  obtain ⟨E, m, hE, hm, hfeature, hid⟩ := htakes
  have hmem : E ∈ between := by
    rw [hplace e hek, getElem?_append_right (Nat.le_of_lt hp), getElem?_cons] at hE
    rw [if_neg (by omega)] at hE
    exact mem_of_getElem? hE
  exact hother E hmem m hm hfeature hid

theorem reference_id {k : Nat} {R : Record} {ref : String × Int}
    (hD : out[p]? = some D) (hd : D.named? = some d) (hR : out[k]? = some R) (href : ref ∈ R.references)
    (hname : ref.1 = d.name) : ref.2 = d.id := by
  have hbound := h.finished.bound
  obtain ⟨hlt, hdname, -, hid⟩ := h.describes hD hd
  have hlookup : c'.registry.lookup? ref.1 = some d.node := by
    rw [hname, hdname, lookup?_congr hbound.index hbound.nameOf_eq, hbound.nameOf_eq]
    exact h.exact d.node (hbound.size ▸ hlt)
  have hmem : R ∈ out := mem_of_getElem? hR
  obtain ⟨pre, post, rfl⟩ := append_of_mem hmem
  obtain ⟨pre₀, R₀, post₀, -, -, hfinal⟩ := h.finished.split
  rw [hfinal.references] at href
  obtain ⟨ref₀, -, rfl⟩ := mem_map.mp href
  rw [hid, ← idAt_of_lt hlt, idOf, hlookup]
  rfl

end Settled

theorem designated?_eq_iff {first since : List Record} (hd : D.named? = some d)
    (hother : ∀ E ∈ since, E.named? ≠ some d) :
    designated? d.feature d.id (first ++ D :: since) = some d ↔
      ∀ E ∈ since, ∀ m, E.named? = some m → m.feature = d.feature → m.id ≠ d.id := by
  have hnames : ((first ++ D :: since).filterMap named?).reverse =
      (since.filterMap named?).reverse ++ d :: (first.filterMap named?).reverse := by
    grind
  unfold designated?
  rw [hnames, find?_append]
  constructor
  · intro hfind E hE m hm hfeature hid
    cases hlast : (since.filterMap named?).reverse.find? fun m => m.feature = d.feature ∧ m.id = d.id with
    | none =>
      have hmem : m ∈ (since.filterMap named?).reverse := mem_reverse.mpr (mem_filterMap.mpr ⟨E, hE, hm⟩)
      grind
    | some last =>
      rw [hlast] at hfind
      obtain rfl := Option.some.inj hfind
      obtain ⟨E', hE', hlast'⟩ := mem_filterMap.mp (mem_reverse.mp (mem_of_find?_eq_some hlast))
      exact hother E' hE' hlast'
  · intro hnone
    have hfind : ((since.filterMap named?).reverse.find? fun m =>
        m.feature = d.feature ∧ m.id = d.id) = none := by
      refine find?_eq_none.mpr fun m hm => ?_
      obtain ⟨E, hE, hEm⟩ := mem_filterMap.mp (mem_reverse.mp hm)
      have hid := hnone E hE m hEm
      simpa using hid
    rw [hfind, find?_cons_of_pos (by simp)]
    rfl

/-! ## Loops -/

/-- A reference at position `k` to the definition `d` at position `p`, inside of the loop whose label is
at position `i` and whose jump is at position `j`. -/
structure LoopReference (out : List Record) (i j p k : Nat) (d : NamedRecord) : Prop where
  /-- What takes the id inside of the loop stands behind all references. -/
  last : ∀ e, i < e → e < j → TakesIdOf out e d → ∀ l, RefersTo out l d → l ≤ e
  /-- Whatever has been executed since the definition, the id stands for it unless something behind the reference takes
  it. -/
  designates : ∀ before since, (∀ q ∈ since, p < q) →
    (designated? d.feature d.id ((before ++ p :: since).filterMap (out[·]?)) = some d ↔
      ∀ e ∈ since, k ≤ e → ¬TakesIdOf out e d)
  /-- A reference behind the loop keeps the id in the loop. -/
  kept : (∃ l, j < l ∧ RefersTo out l d) → ∀ e, i < e → e < j → ¬TakesIdOf out e d

theorem Settled.loopReference (h : Settled rs steps c out c') {i j k : Nat} (hD : out[p]? = some D)
    (hd : D.named? = some d) (hp : p < i) (href : RefersTo out k d) : LoopReference out i j p k d := by
  have hlast : ∀ e, i < e → e < j → TakesIdOf out e d → ∀ l, RefersTo out l d → l ≤ e := by
    intro e hie _ htakes l hl
    by_contra hlt
    exact (h.reference hD hd hl).2 e (by omega) (by omega) htakes
  refine ⟨hlast, fun before since hsince => ?_, ?_⟩
  · have hexecuted : (before ++ p :: since).filterMap (out[·]?) =
        before.filterMap (out[·]?) ++ D :: since.filterMap (out[·]?) := by
      rw [filterMap_append, filterMap_cons_some hD]
    rw [hexecuted, designated?_eq_iff hd]
    · constructor
      · rintro hnone e he - ⟨E, m, hE, hm, hfeature, hid⟩
        exact hnone E (mem_filterMap.mpr ⟨e, he, hE⟩) m hm hfeature hid
      · intro hnone E hE m hm hfeature hid
        obtain ⟨e, he, hE⟩ := mem_filterMap.mp hE
        have htakes : TakesIdOf out e d := ⟨E, m, hE, hm, hfeature, hid⟩
        rcases Nat.lt_or_ge e k with hek | hke
        · exact (h.reference hD hd href).2 e (hsince e he) hek htakes
        · exact hnone e he hke htakes
    · intro E hE hm
      obtain ⟨e, he, hE⟩ := mem_filterMap.mp hE
      have heq := h.position_eq hD hd hE hm rfl
      have hpe := hsince e he
      omega
  grind

theorem exists_positions {s : Scaffold Record} (hfits : s.Fits) {jump label : Record × Nat}
    (h : (jump, label) ∈ (s.number 0).loops) : ∃ i j : Nat, i < j ∧
      (s.number 0).elements[i]? = some label ∧ (s.number 0).elements[j]? = some jump := by
  have hpair := (Scaffold.pairsIn_elements (Scaffold.fits_number hfits 0)).2 _ h
  obtain ⟨first, second, helements, hlabel, hjump⟩ := cons_sublist_iff.mp hpair
  obtain ⟨i, hi⟩ := mem_iff_getElem?.mp hlabel
  obtain ⟨j, hj⟩ := mem_iff_getElem?.mp (singleton_sublist.mp hjump)
  have hlt : i < first.length := (List.getElem?_eq_some_iff.mp hi).1
  refine ⟨i, first.length + j, by omega, ?_, ?_⟩
  · rw [helements, getElem?_append_left hlt, hi]
  simp_all [getElem?_append_right]

/-- **References inside of loops.** A record inside of a loop refers to a definition before the loop by its
id. A definition of the loop has this id only if it stands behind all references, so the id is kept for the
loop if there is a reference behind it. If a definition of the loop has it, the reference stands for that
definition in later turns. -/
theorem lowerAll_loops_designate (h : Declaration.lowerAll decls (Context.create limit strings sprites) = .ok rs c)
    (hexact : c.registry.Exact) (hok : finalize rs c = .ok out c') :
    ∃ s, BuildsAll decls (Context.create limit strings sprites) s c ∧
      (s.number 0).elements.map Prod.fst = rs ∧ out.length = rs.length ∧
      ∀ jump label, (jump, label) ∈ (s.number 0).loops → ∃ i j : Nat, i < j ∧
        (s.number 0).elements[i]? = some label ∧ (s.number 0).elements[j]? = some jump ∧
        ∀ p k D d R, p < i → i < k → k < j → out[p]? = some D → D.named? = some d → out[k]? = some R →
          ∀ ref ∈ R.references, ref.1 = d.name → ref.2 = d.id ∧ LoopReference out i j p k d := by
  obtain ⟨-, steps, hspelled, hwritten⟩ := lowerAll_written h
  have hsettled : Settled rs steps c out c' := ⟨hexact, hspelled, hwritten, finished_of_ok hexact hspelled hwritten hok⟩
  have hrange := Context.create_inRange limit strings sprites
  obtain ⟨s, hs, rfl, -⟩ := lowerAll_builds decls hrange h
  refine ⟨s, hs, s.elements_number 0, hsettled.finished.final.length_eq.symm, fun jump label hloop => ?_⟩
  obtain ⟨i, j, hij, hi, hj⟩ := exists_positions (shaped_of_laid (hs.sound ⟨hrange, rfl, rfl⟩).1.laid).fits hloop
  refine ⟨i, j, hij, hi, hj, fun p k D d R hp _ _ hD hd hR ref href hname => ?_⟩
  exact ⟨hsettled.reference_id hD hd hR href hname, hsettled.loopReference hD hd hp ⟨R, ref, hR, href, hname⟩⟩

/-- The second table of the loop takes the id of the table before the loop. The reference to that table is
right in the first turn and stands for the table of the loop in the second one. -/
theorem lowerAll_loops_designate_retaken :
    let ds : List Declaration :=
      [.switch ⟨"outer", 0, false, 1, .const 1, [], some (.const 2), {}⟩,
        .loop (.paramAt 1) [.graphics ⟨0, [5], false, [], "outer", {}⟩,
            .switch ⟨"inner", 0, false, 1, .const 1, [], some (.const 3), {}⟩,
            .graphics ⟨0, [6], false, [], "inner", {}⟩] {}]
    ∃ rs c out c' D d, Declaration.lowerAll ds (Context.create 0 none none) = .ok rs c ∧ c.registry.Exact ∧
      finalize rs c = .ok out c' ∧
      out.map (·.references) = [[], [], [], [("outer", 0)], [], [("inner", 0)], []] ∧
      out[0]? = some D ∧ D.named? = some d ∧ d.name = "outer" ∧ TakesIdOf out 4 d ∧
      LoopReference out 1 6 0 3 d ∧
      designated? d.feature d.id ([0, 1, 2].filterMap (out[·]?)) = some d ∧
      designated? d.feature d.id ([0, 1, 2, 3, 4, 5, 6, 1, 2].filterMap (out[·]?)) ≠ some d := by
  intro ds
  have hpasses : passes ds [1, 0] (fun out =>
      out.map (·.references) = [[], [], [], [("outer", 0)], [], [("inner", 0)], []] ∧
      out.map (·.named?.map fun d => (d.name, d.feature, d.id)) =
        [some ("outer", 0, 0), none, none, none, some ("inner", 0, 0), none, none]) = true := by
    decide +kernel
  obtain ⟨rs, c, out, c', h, hexact, hok, htest⟩ := eq_ok_of_passes hpasses
  obtain ⟨hrefs, hnamed⟩ := of_decide_eq_true htest
  have hlabels : succeeds (Declaration.lowerAll ds) (Context.create 0 none none) (fun rs _ =>
      rs.map (·.label?) = [none, some 128, none, none, none, none, none] ∧
      rs.map (·.jump? 0) = [none, none, some 4, none, none, none, some 128]) = true := by
    decide +kernel
  obtain ⟨rs', d', h', htest'⟩ := eq_ok_of_succeeds hlabels
  obtain ⟨rfl, rfl⟩ : rs = rs' ∧ c = d' := by
    rw [h] at h'
    cases h'
    exact ⟨rfl, rfl⟩
  obtain ⟨hlabel, hjump⟩ := of_decide_eq_true htest'
  obtain ⟨s, hs, helements, -, hloops⟩ := lowerAll_loops_designate h hexact hok
  obtain ⟨label, pos, n, m, hmem⟩ : ∃ label pos n m,
      ((Record.jumpTo label pos, n), (Record.ofLabel label pos, m)) ∈ (s.number 0).loops := by
    change BuildsAll [_, .loop (.paramAt 1) _ {}] _ s _ at hs
    cases hs with
    | cons _ hrest =>
      cases hrest with
      | cons hloop _ =>
        cases hloop with
        | simple hd => exact hd.elim
        | never _ hcond => cases hcond
        | forever _ hcond => cases hcond
        | loop => exact ⟨_, _, _, _, List.mem_append_right _ (List.mem_append_left _ List.mem_cons_self)⟩
  obtain ⟨i, j, -, hi, hj, hinside⟩ := hloops _ _ hmem
  -- the label and the jump of the loop are the only records with the number of the label
  have hlabelled : (rs.map (·.label?))[i]? = some (some label) := by
    rw [← helements, List.getElem?_map, List.getElem?_map, hi]
    rfl
  have hjumps : (rs.map (·.jump? 0))[j]? = some (Record.jump? 0 (.jumpTo label pos)) := by
    rw [← helements, List.getElem?_map, List.getElem?_map, hj]
    rfl
  rw [hlabel] at hlabelled
  rw [hjump] at hjumps
  obtain ⟨rfl, rfl⟩ : i = 1 ∧ label = 128 := by
    clear * - hlabelled
    rcases i with _ | _ | _ | _ | _ | _ | _ | i <;> simp_all
  obtain rfl : j = 6 := by
    clear * - hjumps
    rcases j with _ | _ | _ | _ | _ | _ | _ | j <;> simp_all [Record.jump?, Record.jumpTo]
  have hdefinition : ∀ (e : Nat) (x : String × Int × Int),
      (out.map (·.named?.map fun d => (d.name, d.feature, d.id)))[e]? = some (some x) →
      ∃ E m, out[e]? = some E ∧ E.named? = some m ∧ (m.name, m.feature, m.id) = x := by
    intro e x hx
    rw [List.getElem?_map, Option.map_eq_some_iff] at hx
    obtain ⟨E, hE, hx⟩ := hx
    obtain ⟨m, hm, hx⟩ := Option.map_eq_some_iff.mp hx
    exact ⟨E, m, hE, hm, hx⟩
  rw [hnamed] at hdefinition
  obtain ⟨D, d, hD, hd, hview⟩ := hdefinition 0 _ rfl
  obtain ⟨E, m, hE, hm, hview'⟩ := hdefinition 4 _ rfl
  obtain ⟨hname, hfeature, hid⟩ : d.name = "outer" ∧ d.feature = 0 ∧ d.id = 0 := by simpa using hview
  obtain ⟨-, hfeature', hid'⟩ : m.name = "inner" ∧ m.feature = 0 ∧ m.id = 0 := by simpa using hview'
  have htakes : TakesIdOf out 4 d := ⟨E, m, hE, hm, hfeature'.trans hfeature.symm, hid'.trans hid.symm⟩
  obtain ⟨R, hR, hreferences⟩ : ∃ R, out[3]? = some R ∧ R.references = [("outer", 0)] := by
    have hthird := congrArg (·[3]?) hrefs
    rw [List.getElem?_map] at hthird
    exact Option.map_eq_some_iff.mp hthird
  obtain ⟨-, hloop⟩ := hinside 0 3 D d R (by omega) (by omega) (by omega) hD hd hR ("outer", 0)
    (by rw [hreferences]; exact List.mem_singleton_self _) hname.symm
  refine ⟨rs, c, out, c', D, d, h, hexact, hok, hrefs, hD, hd, hname, htakes, hloop, ?_, ?_⟩
  · exact (hloop.designates [] [1, 2] (by simp)).mpr (by simp)
  · intro hsecond
    exact (hloop.designates [] [1, 2, 3, 4, 5, 6, 1, 2] (by simp)).mp hsecond 4 (by simp) (by simp) htakes

end Lowering

end Grf
