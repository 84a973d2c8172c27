import Grf.Proofs.Skip.Guard

/-! # When a guard has no effect

A guard around records without skips and labels has no effect exactly if its test is false before each of their runs
(`Guard.Formed.run_eq_iff`): a run is executed or left out as a whole, and if one is left out, fewer records are
executed in the end. The last of the records may be the jump back of a loop. That it has been reached shows in the mode
of the engine, which is then seeking a label, and is counted like a record that is executed.
-/

namespace Grf

open List Engine SkipRun

/-! ## Records without branches -/

/-- Records without skips and labels, except for a jump as the last one. -/
inductive Unbranched (limit : Nat) : List Record → Prop
  | nil : Unbranched limit []
  | jump (label : Int) (pos : Position) (h : limit < label) : Unbranched limit [.jumpTo label pos]
  | cons {r : Record} {rest : List Record} (hr : ¬r.IsControl) (h : Unbranched limit rest) :
      Unbranched limit (r :: rest)

namespace Unbranched

variable {limit : Nat} {xs ys : List Record}

theorem of_not_isControl (h : ∀ r ∈ xs, ¬r.IsControl) : Unbranched limit xs := by
  induction xs with
  | nil => exact .nil
  | cons r xs ih => exact .cons (h r (by simp)) (ih fun x hx => h x (by simp [hx]))

theorem append (h : ∀ r ∈ xs, ¬r.IsControl) (h' : Unbranched limit ys) : Unbranched limit (xs ++ ys) := by
  induction xs with
  | nil => exact h'
  | cons r xs ih => exact .cons (h r (by simp)) (ih fun x hx => h x (by simp [hx]))

theorem not_jumpTarget (h : Unbranched limit xs) : ∀ r ∈ xs, ∀ label, r.body ≠ .jumpTarget label := by
  induction h with
  | nil => simp
  | jump label pos _ => simp [Record.jumpTo]
  | @cons r rest hr _ ih => grind [Record.IsControl]

theorem of_append (h : Unbranched limit (xs ++ ys)) : Unbranched limit ys ∧ (ys ≠ [] → ∀ r ∈ xs, ¬r.IsControl) := by
  induction xs with
  | nil => exact ⟨h, by simp⟩
  | cons r xs ih =>
    have hcons : ∀ {zs : List Record}, Unbranched limit (r :: zs) → zs = [] ∨ ¬r.IsControl ∧ Unbranched limit zs := by
      intro zs h
      cases h with
      | jump => exact .inl rfl
      | cons hr h => exact .inr ⟨hr, h⟩
    rcases hcons h with hnil | ⟨hr, hrest⟩
    · obtain ⟨rfl, rfl⟩ := append_eq_nil_iff.mp hnil
      exact ⟨.nil, fun hne => absurd rfl hne⟩
    simp_all

end Unbranched

variable {runs : List SkipRun} {test : SkipCondition} {g : Guard Record}

theorem SkipRun.eq_nil_of_records (hvalid : ∀ run ∈ runs, run.Valid)
    (h : runs.flatMap (·.records) = []) : runs = [] := by
  cases runs with
  | nil => rfl
  | cons run runs => exact absurd (append_eq_nil_iff.mp h).1 (hvalid run (by simp)).nonempty

/-! ## Counting what is executed -/

/-- The number of records executed, and of the jump that has been made. -/
def Engine.progress (e : Engine) : Nat := e.log.length + if e.mode = .running then 0 else 1

theorem Engine.log_length_executeAll (e : Engine) (rs : List Record) :
    (e.executeAll rs).log.length = e.log.length + rs.length := by
  induction rs generalizing e with
  | nil => rfl
  | cons r rs ih =>
    obtain ⟨x, hx⟩ := e.execute_log r
    grind [executeAll_cons]

variable {limit : Nat} {e : Engine} {xs : List Record}

theorem Unbranched.progress_run (h : Unbranched limit xs) (he : e.mode = .running) :
    (e.run limit xs).Settled ∧ (e.run limit xs).progress = e.log.length + xs.length := by
  induction h generalizing e with
  | nil => exact ⟨.inl he, by simp [progress, he]⟩
  | jump label pos hlabel =>
    have hstep : e.run limit [.jumpTo label pos] = { e with pending := [], mode := .seeking label } := by
      simp_all [Mode.skipping, step, Record.jumpTo, SkipCondition.holds_always]
    rw [hstep]
    exact ⟨.inr ⟨label, rfl⟩, by simp [progress]⟩
  | @cons r rest hr _ ih =>
    obtain ⟨x, hx⟩ := e.execute_log r
    grind [run_cons, step_of_not_isControl, e.execute_mode]

theorem wrapAll_progress {taken : Int → Prop}
    {ws : List (Wrap Record)} (hws : Forall₂ (Wrap.Covers limit test taken) runs ws)
    (hvalid : ∀ run ∈ runs, run.Valid) (hcomplete : ∀ run ∈ runs, Complete run.records)
    (hmentions : ∀ run ∈ runs, ∀ r ∈ run.records, ∀ n, r.Mentions limit n → taken n) (he : e.Ready)
    (hxs : Unbranched limit (runs.flatMap (·.records))) :
    (e.run limit (wrapAll ws (runs.flatMap (·.records)))).progress ≤ e.log.length + (runs.flatMap (·.records)).length ∧
      ((e.run limit (wrapAll ws (runs.flatMap (·.records)))).progress =
        e.log.length + (runs.flatMap (·.records)).length → StaysOpen limit test runs e) := by
  induction hws generalizing e with
  | nil => exact ⟨by simp [wrapAll, progress, he.mode], fun _ => trivial⟩
  | @cons run w runs ws hw hws ih =>
    rw [forall_mem_cons] at hvalid hcomplete hmentions
    rw [flatMap_cons] at hxs
    obtain ⟨hrest, hrun⟩ := hxs.of_append
    have ih := fun {d : Engine} (hd : d.Ready) => @ih d hvalid.2 hcomplete.2 hmentions.2 hd hrest
    have hnonempty : 0 < run.records.length := length_pos_iff.mpr hvalid.1.nonempty
    have hnone : run.ways.none = false := by
      by_contra hnone
      obtain ⟨r, hr⟩ := exists_mem_of_ne_nil _ hvalid.1.nonempty
      obtain ⟨label, hbody⟩ := hvalid.1.jumpTargets (by simpa using hnone) r hr
      exact hxs.not_jumpTarget r (mem_append_left _ hr) label hbody
    rw [flatMap_cons, wrapAll_cons hw.length, run_append, length_append]
    cases htest : test.holds e.params with
    | true =>
      -- the run is left out, and cannot be made up for by what comes after it
      rw [hw.run_skipped hvalid.1 hmentions.1 he htest]
      grind
    | false =>
      have hpass : e.Passes test := .inl ⟨he.mode, htest⟩
      have htaken : (e.run limit run.records).Settled →
          e.run limit (w.apply run.records) = e.run limit run.records := hw.run_taken hcomplete.1 hmentions.1 he.pending
          (fun n hn => by rw [he.mode] at hn; cases hn) (fun _ => hpass)
      have hopen : ∀ {rest : List SkipRun}, StaysOpen limit test rest (e.run limit run.records) →
          StaysOpen limit test (run :: rest) e := fun h => ⟨by simpa [hnone] using hpass, h⟩
      by_cases hlast : runs.flatMap (·.records) = []
      · -- the last run, with the jump if there is one
        obtain rfl := eq_nil_of_records hvalid.2 hlast
        cases hws
        rw [flatMap_nil, append_nil] at hxs
        obtain ⟨hsettled, hprogress⟩ := hxs.progress_run he.mode
        rw [htaken hsettled]
        exact ⟨hprogress.le, fun _ => hopen trivial⟩
      · -- the run is executed
        have hexec : e.run limit run.records = e.executeAll run.records := run_eq_executeAll (hrun hlast) he.mode
        have hready : (e.run limit run.records).Ready := ⟨by rw [hexec]; exact (e.executeAll_mode _).trans he.mode,
            hcomplete.1.run_pending he.pending⟩
        rw [htaken (.inl hready.mode)]
        obtain ⟨hle, heq⟩ := ih hready
        have hlength : (e.run limit run.records).log.length = e.log.length + run.records.length := by
          rw [hexec, e.log_length_executeAll]
        exact ⟨by omega, fun h => hopen (heq (by omega))⟩

/-- **A guard has no effect exactly if it stays open.** -/
theorem Guard.Formed.run_eq_iff (h : g.Formed limit xs) (hxs : Unbranched limit xs)
    (he : e.Ready) : e.run limit (g.around xs) = e.run limit xs ↔ g.Stays limit xs e := by
  obtain ⟨hsettled, hprogress⟩ := hxs.progress_run he.mode
  constructor
  · intro hrun
    have hall := (wrapAll_progress h.covers split_valid (split_complete h.complete)
      mentioned_of_split he (by rwa [split_records])).2
    rw [split_records] at hall
    exact hall ((congrArg progress hrun).trans hprogress)
  · exact fun hstays => h.run_taken he hstays hsettled

theorem staysOpen_of_unchanged
    (hvalid : ∀ run ∈ runs, run.Valid) (hxs : Unbranched limit (runs.flatMap (·.records))) (he : e.mode = .running)
    (htest : test.holds e.params = false) (hkept : ∀ ys, ys <+: runs.flatMap (·.records) →
      (e.run limit ys).params test.param = e.params test.param) : StaysOpen limit test runs e := by
  induction runs generalizing e with
  | nil => trivial
  | cons run runs ih =>
    rw [forall_mem_cons] at hvalid
    obtain ⟨hrest, hrun⟩ := hxs.of_append
    have hpass : e.Passes test := .inl ⟨he, htest⟩
    refine ⟨?_, ?_⟩
    · split
      · exact hpass.settled
      · exact hpass
    · have hfirst := hkept run.records (prefix_append _ _)
      by_cases hlast : runs.flatMap (·.records) = []
      · obtain rfl := eq_nil_of_records hvalid.2 hlast
        trivial
      · refine ih hvalid.2 hrest ?_ ?_ fun ys hys => ?_
        · rw [run_eq_executeAll (hrun hlast) he]
          exact (e.executeAll_mode _).trans he
        · rw [SkipCondition.holds_congr hfirst, htest]
        · rw [← run_append, hfirst]
          exact hkept _ ((prefix_append_right_inj _).mpr hys)

/-- **A guard stays open if the parameter that it tests keeps its value.** -/
theorem Guard.stays_of_unchanged (hxs : Unbranched limit xs) (he : e.mode = .running)
    (htest : g.test.holds e.params = false)
    (hkept : ∀ ys, ys <+: xs → (e.run limit ys).params g.test.param = e.params g.test.param) : g.Stays limit xs e := by
  refine staysOpen_of_unchanged split_valid ?_ he htest ?_
  · rwa [split_records]
  · rwa [split_records]

end Grf
