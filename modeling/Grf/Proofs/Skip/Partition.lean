import Grf.Proofs.Skip.Runs

/-! # The runs of a guarded list are as few as possible

A guarded list is cut into runs from its start on, each as long as it can be. However else a list is cut into parts that
can be left out as a whole, there are no fewer of them (`SkipRun.length_split_le`): where one of the parts ends, at least
as many records are behind the same number of runs.
-/

namespace Grf

open List

/-- Records that can be left out as a whole: action 7 can skip all of them, action 9 can, or none of them
has to be skipped. -/
def Uniform (rs : List Record) : Prop :=
  (∀ r ∈ rs, r.kind.capabilities.byAction7 = true) ∨ (∀ r ∈ rs, r.kind.capabilities.byAction9 = true) ∨
    ∀ r ∈ rs, r.kind.capabilities.needsSkip = false

theorem Uniform.subset {rs rs' : List Record} (h : Uniform rs) (hsub : rs' ⊆ rs) : Uniform rs' :=
  h.imp (fun h r hr => h r (hsub hr)) (.imp (fun h r hr => h r (hsub hr)) fun h r hr => h r (hsub hr))

theorem Wrap.Fits.uniform {limit : Nat} {test : SkipCondition} {pos : Position} {pool : Pool}
    {rs : List Record} {w : Wrap Record} (h : w.Fits limit test pos pool rs) : Uniform rs := by
  have hchosen : ∀ {action : SkipAction}, action.Chosen rs → Uniform rs := by
    rintro (_ | _) ⟨haction, -⟩
    · exact .inl (all_eq_true.mp haction)
    · exact .inr (.inl (all_eq_true.mp haction))
  cases h with
  | alone hnone => exact .inr (.inr fun r hr => by simpa using all_eq_true.mp hnone r hr)
  | counted _ _ haction => exact hchosen haction.2
  | labelled _ _ _ haction => exact hchosen haction.2

theorem wrapAll_flatten {groups : List (List Record)} {ws : List (Wrap Record)}
    (h : Forall₂ (fun group w => w.length = group.length) groups ws) :
    wrapAll ws groups.flatten = (List.zipWith Wrap.apply ws groups).flatten := by
  induction h with
  | nil => rfl
  | cons hw _ ih => rw [flatten_cons, wrapAll_cons hw, ih, zipWith_cons_cons, flatten_cons]

namespace SkipRun

variable {run : SkipRun} {r : Record}

theorem extend?_eq_none (hrun : run.Valid) : run.extend? r = none ↔ ¬Uniform (run.records ++ [r]) := by
  have hways : run.ways.inter (.ofKind r.kind) = .ofAll (run.records ++ [r]) := by
    rw [ofAll_append, hrun.ways]
  unfold extend?
  simp only [hways, Uniform]
  split <;> simp_all [SkipWays.isEmpty, SkipWays.ofAll]

theorem splitFrom_reaches (rs : List Record) (hrun : run.Valid) : ∃ first tail, splitFrom run rs = first :: split tail ∧
      ∀ part rest, rs = part ++ rest → Uniform (run.records ++ part) → tail <:+ rest := by
  induction rs generalizing run with
  | nil =>
    refine ⟨run, [], rfl, fun part rest h _ => ?_⟩
    exact nil_suffix
  | cons r rs ih =>
    unfold splitFrom
    cases hext : run.extend? r with
    | none =>
      refine ⟨run, r :: rs, rfl, fun part rest h hpart => ?_⟩
      cases part with
      | nil => exact h ▸ suffix_rfl
      | cons r' part =>
        obtain ⟨rfl, -⟩ := List.cons.inj h
        exact absurd (hpart.subset (by simp)) ((extend?_eq_none hrun).mp hext)
    | some longer =>
      obtain ⟨hvalid, hrecords⟩ := extend?_valid hext hrun
      obtain ⟨first, tail, hsplit, htail⟩ := ih hvalid
      refine ⟨first, tail, hsplit, fun part rest h hpart => ?_⟩
      cases part with
      | nil =>
        have hlonger : Uniform (run.records ++ [r]) := by
          grind [extend?_eq_none]
        have h : r :: rs = rest := h
        exact h ▸ (htail [] rs rfl (by simpa [hrecords] using hlonger)).trans (suffix_cons r rs)
      | cons r' part =>
        obtain ⟨rfl, rfl⟩ := List.cons.inj h
        exact htail part rest rfl (by simpa [hrecords] using hpart)

/-- **No cut of a list into parts that can be left out has fewer parts than there are runs**, nor has one
of a longer list that ends with it. -/
theorem length_split_le {parts : List (List Record)} (h : ∀ part ∈ parts, Uniform part) {rs : List Record}
    (hrs : rs <:+ parts.flatten) : (split rs).length ≤ parts.length := by
  induction parts generalizing rs with
  | nil =>
    obtain rfl := suffix_nil.mp hrs
    exact Nat.le_refl 0
  | cons part parts ih =>
    obtain ⟨hpart, hparts⟩ := forall_mem_cons.mp h
    obtain ⟨before, hbefore⟩ := hrs
    rcases append_eq_append_iff.mp hbefore with ⟨inside, hinside, hflat⟩ | ⟨inside, -, hflat⟩
    · cases inside with
      | nil => exact (ih hparts (hflat ▸ suffix_rfl)).trans (Nat.le_succ _)
      | cons r inside =>
        -- the list starts within the first part
        obtain ⟨first, tail, hsplit, htail⟩ := splitFrom_reaches (inside ++ parts.flatten) (single_valid r)
        have huniform : Uniform ([r] ++ inside) := hpart.subset (by simp [hinside])
        have hle := ih hparts (htail inside _ rfl huniform)
        rw [hflat]
        show (splitFrom (single r) (inside ++ parts.flatten)).length ≤ _
        rw [hsplit]
        exact Nat.succ_le_succ hle
    · exact (ih hparts ⟨inside, hflat.symm⟩).trans (Nat.le_succ _)

end SkipRun

namespace Lowering

variable {c c' : Context} {test : SkipCondition} {pos : Position} {xs ys : List Record}

/-- **A guard cuts a list into the fewest runs and puts skips around them.** The groups are the list, and
what is put around each of them leaves it out as a whole when `test` is true. A label is handed out for
one group alone. -/
theorem skipRuns_partition (h : skipRuns xs test pos c = .ok ys c') :
    ∃ (groups : List (List Record)) (ws : List (Wrap Record)),
      groups.flatten = xs ∧ ys = (List.zipWith Wrap.apply ws groups).flatten ∧
      Forall₂ (fun group w => Uniform group ∧ w.Fits c.maxInlineSkip test pos c.shortLabels group) groups ws ∧
      (wrapLabels ws).Nodup ∧ (∀ n ∈ wrapLabels ws, n ∈ c'.shortLabels.inUse) ∧
      ∀ parts : List (List Record), parts.flatten = xs → (∀ part ∈ parts, Uniform part) →
        groups.length ≤ parts.length := by
  obtain ⟨ws, hws, hys, hnodup, pool, htook, rfl⟩ := skipRuns_fits h
  have hflat : ((SkipRun.split xs).map (·.records)).flatten = xs := SkipRun.split_records xs
  have hfits : Forall₂ (fun group w => Uniform group ∧
      w.Fits c.maxInlineSkip test pos c.shortLabels group) ((SkipRun.split xs).map (·.records)) ws :=
    forall₂_map_left_iff.mpr (hws.imp fun _ _ h => ⟨h.2.uniform, h.2⟩)
  refine ⟨_, ws, hflat, ?_, hfits, hnodup, fun n hn => (htook.inUse n).mpr (.inl hn), ?_⟩
  · rw [hys, ← wrapAll_flatten (hfits.imp fun _ _ h => h.2.length), hflat]
  · intro parts hparts huniform
    rw [List.length_map]
    exact SkipRun.length_split_le huniform (hparts ▸ List.suffix_rfl)

/-- A list for which three runs are needed: an assignment and a deactivation, which action 9 cannot skip,
byte patches and the assignment they are for, which action 7 cannot skip, and a deactivation again. -/
def mixedBody : List Record :=
  let assignment : Record := .constantAssignment 1 5 {}
  let deactivation : Record := ⟨{}, .deactivation []⟩
  [assignment, deactivation, ⟨{}, .bytePatchTable [⟨2, 1, 1⟩]⟩, assignment, deactivation]

theorem skipRuns_partition_mixed :
    ∃ ys c', skipRuns mixedBody .always {} (enterConditional (.create 1 none none)) = .ok ys c' ∧
      labels ys = [0x10, 0x11] ∧ ∃ groups : List (List Record), groups.flatten = mixedBody ∧
        ∀ parts : List (List Record), parts.flatten = mixedBody → (∀ part ∈ parts, Uniform part) →
          groups.length ≤ parts.length := by
  have hok : succeeds (skipRuns mixedBody .always {}) (enterConditional (.create 1 none none))
      (fun ys _ => decide (labels ys = [0x10, 0x11])) = true := by decide +kernel
  obtain ⟨ys, c', h, hlabels⟩ := eq_ok_of_succeeds hok
  obtain ⟨groups, ws, hflat, -, -, -, -, hfewest⟩ := skipRuns_partition h
  exact ⟨ys, c', h, of_decide_eq_true hlabels, groups, hflat, hfewest⟩

end Lowering

end Grf
