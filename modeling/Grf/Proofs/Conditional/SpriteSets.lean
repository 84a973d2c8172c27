import Grf.Proofs.Lowering.SpriteSets

/-! # Sprite sets on the paths through declarations

A sprite group writes the numbers of its sets in the sprite table that is written last before it, which need not be the
one executed last before it. `lowerAll_set_numbers` says what follows for paths: the numbers mean the sets that were
named exactly if the table executed last has the same numbers for them.
-/

namespace Grf.Lowering

open List Declaration

variable {c c' : Context} {rs : List Record} {d t : Declaration} {before ds : List Declaration}
  {i : Nat} {sets : List SpriteSet} {feature : Int}

/-! ## Numbers on paths -/

/-- The sprite groups that are written for a declaration, if `before` are the declarations before it. -/
structure WrittenFor (before : List Declaration) (d : Declaration) (part : List GroupRecord) : Prop where
  group : ∀ g, d = .spriteGroup g → ∃ written sets, part = [written] ∧ written.name = g.name ∧
    written.feature = g.feature ∧ lastTable? g.feature before = some sets ∧ Numbers sets g written
  none : (∀ g, d ≠ .spriteGroup g) → part = []

theorem lower_writtenFor (hd : d.IsSimple) (hshows : Shows c.spriteSets before)
    (h : d.lower c = .ok rs c') : WrittenFor before d (groups rs) where
  group := by
    rintro g rfl
    exact lower_numbers hshows h
  none hgroup := lower_groups_nil hd hgroup c rs c' h

theorem Runs.writtenFor {steps : List Stage} (h : Runs c steps c')
    (hshows : Shows c.spriteSets before) {s : Stage} (hi : steps[i]? = some s) :
    WrittenFor (before ++ (steps.map Stage.decl).take i) s.decl (groups s.records) := by
  induction h generalizing before i with
  | nil => simp at hi
  | @cons c c' first steps h hfirst hrest ih =>
    have hsame : first.before.spriteSets = c.spriteSets := h _ (.spriteSets (by simp))
    rw [← hsame] at hshows
    cases i with
    | zero =>
      obtain rfl : first = s := by simpa using hi
      simpa using lower_writtenFor hfirst.simple hshows hfirst.lower
    | succ i => simpa using ih (lower_shows hfirst.simple hshows hfirst.lower) (by simpa using hi)

theorem groups_of_pads {rs' : List Record} (h : Pads Record.IsGlue rs rs') : groups rs' = groups rs := by
  rw [← groups_attached, attached_of_pads h, groups_attached]

theorem groups_flatMap (steps : List Stage) :
    groups (steps.flatMap Stage.records) = (steps.map fun s => groups s.records).flatten := by
  induction steps with
  | nil => rfl
  | cons s steps ih => simp_all

theorem shows_nil : Shows [] [] := fun _ _ => rfl

/-- The numbers that are written for a sprite group mean its sets, if `pre` has been executed before it:
they are those of the sprite table executed last. -/
def MeansSets (g : SpriteGroup) (written : GroupRecord) (pre : List (Declaration × Nat)) : Prop :=
  ∃ sets, lastTable? g.feature (pre.map Prod.fst) = some sets ∧ Numbers sets g written

theorem numbers_iff {g : SpriteGroup} {written : GroupRecord} {sets' : List SpriteSet}
    (h : Numbers sets g written) : Numbers sets' g written ↔
      ∀ name ∈ g.loaded ++ g.loading, setNumber? sets' name = setNumber? sets name := by
  constructor
  · intro h'
    rw [forall_mem_append]
    exact ⟨map_inj_left.mp (h'.loaded.symm.trans h.loaded), map_inj_left.mp (h'.loading.symm.trans h.loading)⟩
  · intro hsame
    rw [forall_mem_append] at hsame
    exact ⟨h.loaded.trans (map_inj_left.mpr fun name hname => (hsame.1 name hname).symm),
      h.loading.trans (map_inj_left.mpr fun name hname => (hsame.2 name hname).symm)⟩

theorem lastTable?_of_split {first rest : List Declaration} (ht : t.tableOf? feature = some sets)
    (hrest : ∀ d ∈ rest, d.tableOf? feature = none) : lastTable? feature (first ++ t :: rest) = some sets := by
  simp_all [lastTable?]

theorem getElem?_of_path {p : List (Declaration × Nat)} (h : (flowAll ds).Path 0 p)
    (hmem : (d, i) ∈ p) : (flowAll ds).leaves[i]? = some d := by
  have hleaf := h.mem_leaves (d, i) hmem
  rwa [mem_zipIdx_iff_getElem?] at hleaf

theorem lastTable?_of_loopless {pre post : List (Declaration × Nat)} {j : Nat}
    (h : (flowAll ds).Path 0 (pre ++ (d, i) :: post))
    (hloopless : (flowAll ds).Loopless) (ht : t.tableOf? feature = some sets)
    (hbetween : ∀ k a, j < k → k < i → (flowAll ds).leaves[k]? = some a →
      a.tableOf? feature = none) (hmem : (t, j) ∈ pre) : lastTable? feature (pre.map Prod.fst) = some sets := by
  have hordered := h.pairwise_lt hloopless
  obtain ⟨first, rest, rfl⟩ := append_of_mem hmem
  rw [map_append, map_cons]
  refine lastTable?_of_split ht fun a ha => ?_
  obtain ⟨x, hx, rfl⟩ := mem_map.mp ha
  have hj : j < x.2 := by
    rw [append_assoc, cons_append, pairwise_append, pairwise_cons] at hordered
    exact hordered.2.1.1 x (mem_append_left _ hx)
  have hi : x.2 < i := (pairwise_append.mp hordered).2.2 x (by simp [hx]) (d, i) (by simp)
  exact hbetween x.2 x.1 hj hi (getElem?_of_path h (by simp [hx]))

/-- **The numbers of sprite sets on paths.** The sprite groups of the records are those of the leaves, in
their order. For every path, a group that is executed has the numbers of its sets in the table of its
feature that is written last before it, and they mean its sets exactly if the table executed last has the
same numbers for them. They do on all paths if the tables of the feature stand outside of conditionals and
loops, and without loops on those that execute the table written last before the group. -/
theorem lowerAll_set_numbers {ds : List Declaration} {limit : Int} {strings : Option StringTable}
    {sprites : Option SpriteRegistry}
    (h : Declaration.lowerAll ds (Context.create limit strings sprites) = .ok rs c') :
    ∃ parts : List (List GroupRecord), groups rs = parts.flatten ∧
      parts.length = (Declaration.flowAll ds).leaves.length ∧
      ∀ pre d i post, (Declaration.flowAll ds).Path 0 (pre ++ (d, i) :: post) →
        ((∀ g, d ≠ .spriteGroup g) → parts[i]? = some []) ∧
        ∀ g, d = .spriteGroup g → ∃ written sets, parts[i]? = some [written] ∧
          written.name = g.name ∧ written.feature = g.feature ∧
          lastTable? g.feature ((Declaration.flowAll ds).leaves.take i) = some sets ∧
          Numbers sets g written ∧
          (MeansSets g written pre ↔ ∃ sets', lastTable? g.feature (pre.map Prod.fst) = some sets' ∧
            ∀ name ∈ g.loaded ++ g.loading, setNumber? sets' name = setNumber? sets name) ∧
          ((∀ d ∈ ds, d.IsSimple ∨ ∀ a ∈ d.flow.leaves, a.tableOf? g.feature = none) → MeansSets g written pre) ∧
          ((Declaration.flowAll ds).Loopless → ∀ t j, t.tableOf? g.feature = some sets →
            (∀ k a, j < k → k < i → (Declaration.flowAll ds).leaves[k]? = some a →
              a.tableOf? g.feature = none) → (t, j) ∈ pre → MeansSets g written pre) := by
  obtain ⟨_, -, hassembled⟩ := lowerAll_builds ds (Context.create_inRange limit strings sprites) h
  obtain ⟨steps, hleaves, hruns, -, hpads⟩ := hassembled.runs
  refine ⟨steps.map fun s => groups s.records, (groups_of_pads hpads).trans (groups_flatMap steps), ?_,
    fun pre d i post hpath => ?_⟩
  · rw [← hleaves, List.length_map, List.length_map]
  have hd := getElem?_of_path hpath (d := d) (i := i) (by simp)
  rw [← hleaves, List.getElem?_map] at hd
  obtain ⟨step, hstep, rfl⟩ := Option.map_eq_some_iff.mp hd
  have hmade := hruns.writtenFor shows_nil hstep
  rw [hleaves, List.nil_append] at hmade
  have hpart : (steps.map fun s => groups s.records)[i]? = some (groups step.records) := by
    rw [List.getElem?_map, hstep, Option.map_some]
  refine ⟨fun hgroup => by rw [hpart, hmade.none hgroup], fun g hg => ?_⟩
  obtain ⟨written, sets, hwritten, hname, hfeature, htable, hnumbers⟩ := hmade.group g hg
  rw [hwritten] at hpart
  refine ⟨written, sets, hpart, hname, hfeature, htable, hnumbers, ?_, fun houtside => ?_, ?_⟩
  · exact exists_congr fun sets' => and_congr_right fun _ => numbers_iff hnumbers
  · refine ⟨sets, ?_, hnumbers⟩
    rw [← htable]
    unfold lastTable?
    rw [Declaration.filterMap_fst_of_path hpath houtside, Nat.sub_zero]
  · intro hloopless t j ht hbetween hmem
    exact ⟨sets, lastTable?_of_loopless hpath hloopless ht hbetween hmem, hnumbers⟩

/-- The table in the first branch numbers the sets the other way round, and the group in the second branch
writes the number of that table. On the only path to the group, it is the number of the other set. -/
theorem lowerAll_set_numbers_branch :
    let set (name : String) : SpriteSet := { name, sprites := ["s"] }
    let outer : Declaration := .spriteSets 0 [set "a", set "b"] {}
    let inner : Declaration := .spriteSets 0 [set "b", set "a"] {}
    let g : SpriteGroup := { name := "g", feature := 0, loaded := ["a"], loading := [] }
    let ds : List Declaration :=
      [outer, .conditional [⟨some (.paramAt 1), [inner], {}⟩, ⟨none, [.spriteGroup g], {}⟩] {}]
    let sprites : SpriteRegistry := { sprites := #[{ name := "s", num := 1, file := "s.png", pos := {} }] }
    ∃ rs c' written, Declaration.lowerAll ds (.create 0 none (some sprites)) = .ok rs c' ∧
      groups rs = [written] ∧ written.loaded = [1] ∧
      (Declaration.flowAll ds).Path 0 [(outer, 0), (inner, 1)] ∧
      (Declaration.flowAll ds).Path 0 [(outer, 0), (.spriteGroup g, 2)] ∧
      ¬MeansSets g written [(outer, 0)] := by
  intro set outer inner g ds sprites
  have hok : succeeds (Declaration.lowerAll ds) (.create 0 none (some sprites))
      (fun rs _ => (groups rs).map (·.loaded) = [[1]]) = true := by
    decide +kernel
  obtain ⟨rs, c', h, hloaded⟩ := eq_ok_of_succeeds hok
  have htaken : (Declaration.flowAll ds).Path 0 [(outer, 0), (inner, 1)] := .append (p := [(outer, 0)]) (.leaf outer 0)
      (.append (p := [(inner, 1)]) (.first (.append (.leaf inner 1) (.done 2))) (.done 3))
  have hskipped : (Declaration.flowAll ds).Path 0 [(outer, 0), (.spriteGroup g, 2)] :=
    .append (p := [(outer, 0)]) (.leaf outer 0)
      (.append (p := [(Declaration.spriteGroup g, 2)]) (.second (.append (.leaf _ 2) (.done 3))) (.done 3))
  obtain ⟨parts, hparts, -, hpaths⟩ := lowerAll_set_numbers h
  obtain ⟨written, sets, hwritten, -, -, htable, -, hmeans, -⟩ := (hpaths [(outer, 0)] _ 2 [] hskipped).2 g rfl
  obtain ⟨only, hgroups, hone⟩ := List.map_eq_singleton_iff.mp (of_decide_eq_true hloaded)
  obtain rfl : written = only := by
    have hmem : written ∈ groups rs := by
      rw [hparts]
      exact List.mem_flatten.mpr ⟨[written], List.mem_of_getElem? hwritten, by simp⟩
    simpa [hgroups] using hmem
  refine ⟨rs, c', written, h, hgroups, hone, htaken, hskipped, fun hm => ?_⟩
  obtain ⟨executed, hexecuted, hsame⟩ := hmeans.mp hm
  obtain rfl : [set "b", set "a"] = sets := Option.some.inj htable
  obtain rfl : [set "a", set "b"] = executed := Option.some.inj hexecuted
  exact absurd (hsame "a" (by simp [g])) (by decide)

end Grf.Lowering
