import Grf.Proofs.Skip.Block

/-! # Passing a guarded list

A `Guard` is a test together with what is inserted into the list that it guards. If the test is true where the engine
reaches the guard, the guarded list has no effect (`Guard.run_skipped`). If it is false there, the skip of the first run
does nothing, but every later run has a skip of its own, which tests again. The list is executed as if it were not
guarded if the test is still false at the start of each run (`Guard.run_taken`). This is `Guard.Stays`.

Where a list holds skips itself, a run may also start while a label is sought. It may not start while records are being
dropped, since its skip is then dropped in place of a record.
-/

namespace Grf

open List Engine SkipRun

variable {runs : List SkipRun} {ws : List (Wrap Record)}

/-! ## Records that are passed over -/

variable {pos : Position} {action : SkipAction} {test : SkipCondition} {target : Int}
  {taken : Int → Prop} {e : Engine} {r : Record} {limit : Nat} {rs xs : List Record} {g : Guard Record}

namespace Engine

variable {limit : Nat} {e : Engine} {rs : List Record} {r : Record} {label n : Int}

/-- An engine that executes records, with nothing to patch. -/
structure Ready (e : Engine) : Prop where
  mode : e.mode = .running
  pending : e.pending = []

theorem Ready.eta (h : e.Ready) : { e with pending := [], mode := .running } = e := by
  obtain ⟨params, pending, mode, log⟩ := e
  obtain ⟨rfl, rfl⟩ := h
  rfl

theorem run_dropping {more : Nat} (h : e.mode = .dropping more) (hlength : rs.length = more + 1) :
    e.run limit rs = { e with mode := .running } := by
  induction rs generalizing e more with
  | nil => simp at hlength
  | cons r rs ih =>
    cases more with
    | zero =>
      obtain rfl : rs = [] := by simpa using hlength
      simp [step, h]
    | succ more =>
      have hstep : e.step limit r = { e with mode := .dropping more } := by simp [step, h]
      simp_all

theorem step_seeking (h : e.mode = .seeking label) (hr : r.body ≠ .jumpTarget label) : e.step limit r = e := by
  unfold step
  rw [h]
  cases hb : r.body with
  | jumpTarget found =>
    have hne : found ≠ label := by
      rintro rfl
      exact hr hb
    simp [hne]
  | _ => rfl

theorem run_seeking (h : e.mode = .seeking label) (hrs : ∀ r ∈ rs, r.body ≠ .jumpTarget label) :
    e.run limit rs = e := by
  induction rs with
  | nil => rfl
  | cons r rs ih => simp_all [step_seeking]

theorem Ready.step_label (h : e.Ready) (label : Int) (pos : Position) : e.step limit (.ofLabel label pos) = e := by
  have hstep : e.step limit (.ofLabel label pos) = { e with pending := [] } := by
    simp [step, h.mode, Record.ofLabel]
  rw [hstep, ← h.pending]

theorem Ready.step_skip (h : e.Ready) (htest : test.holds e.params = true) :
    e.step limit ⟨pos, .skip action test target⟩ = { e with mode := .skipping limit target } := by
  have hstep : e.step limit ⟨pos, .skip action test target⟩ =
      { e with pending := [], mode := .skipping limit target } := by
    simp [step, h.mode, htest]
  rw [hstep, ← h.pending]

theorem step_mode_seeking (h : (e.step limit r).mode = .seeking n) : r.Mentions limit n ∨ e.mode = .seeking n := by
  unfold step at h
  split at h
  · rename_i hmode hbody
    refine .inl ?_
    unfold Record.Mentions
    rw [hbody]
    split at h
    · unfold Mode.skipping at h
      split at h
      · split at h <;> cases h
      · cases h
        exact ⟨rfl, by omega⟩
    · cases h
  · exact .inr h
  · rw [execute_mode] at h
    exact .inr h
  · cases h
  · cases h
  · split at h
    · cases h
    · exact .inr h
  · exact .inr h

theorem run_mode_seeking (hrs : ∀ r ∈ rs, ∀ n, r.Mentions limit n → taken n)
    (he : ∀ n, e.mode = .seeking n → taken n) (h : (e.run limit rs).mode = .seeking n) : taken n := by
  induction rs generalizing e with
  | nil => exact he n h
  | cons r rs ih =>
    refine ih (fun x hx => hrs x (by simp [hx])) (fun n hn => ?_) h
    rcases step_mode_seeking hn with hr | hmode
    · exact hrs r (by simp) n hr
    · exact he n hmode

end Engine

/-! ## Patches are made before the next run -/

theorem Engine.execute_pending (hr : ¬r.IsPatch) : (e.execute r).pending = [] := by
  unfold execute
  cases hb : r.body with
  | bytePatchTable patches => exact absurd ⟨patches, hb⟩ hr
  | _ => rfl

/-- A step over a record that is no table of patches leaves none pending. If nothing is executed, none
may have been pending before. -/
theorem Engine.step_pending (hr : ¬r.IsPatch)
    (h : e.pending = [] ∨ e.mode = .running) : (e.step limit r).pending = [] := by
  cases hmode : e.mode with
  | running =>
    have hexec := e.execute_pending hr
    unfold step
    rw [hmode]
    cases r.body <;> first | rfl | exact hexec
  | dropping more =>
    have hpending : e.pending = [] := h.resolve_right (by simp [hmode])
    cases more <;> simpa [step, hmode] using hpending
  | seeking label =>
    have hpending : e.pending = [] := h.resolve_right (by simp [hmode])
    unfold step
    rw [hmode]
    cases r.body with
    | jumpTarget found =>
      dsimp only
      split <;> exact hpending
    | _ => exact hpending

theorem Engine.step_patch {p : Record} (hp : p.IsPatch)
    (h : e.pending = []) : (e.step limit p).pending = [] ∨ (e.step limit p).mode = .running := by
  obtain ⟨patches, hp⟩ := hp
  unfold step
  rw [hp]
  cases hmode : e.mode with
  | running => exact .inr ((e.execute_mode p).trans hmode)
  | dropping more => cases more <;> exact .inl h
  | seeking label => exact .inl h

theorem Complete.run_pending (h : Complete rs) (hpending : e.pending = []) : (e.run limit rs).pending = [] := by
  induction h generalizing e with
  | nil => exact hpending
  | cons hr _ ih => exact ih (step_pending hr (.inl hpending))
  | patched hp hr _ _ ih => exact ih (step_pending hr (step_patch hp hpending))

/-! ## Guards -/

def Mentioned (limit : Nat) (rs : List Record) (n : Int) : Prop := ∃ r ∈ rs, r.Mentions limit n

theorem mentioned_of_split : ∀ run ∈ split xs, ∀ r ∈ run.records, ∀ n, r.Mentions limit n → Mentioned limit xs n := by
  intro run hrun r hr n hn
  refine ⟨r, ?_, hn⟩
  grind [split_records]

/-- Whether the skip of a run does nothing: the test is false, or a label is being sought. -/
def Engine.Passes (e : Engine) (test : SkipCondition) : Prop :=
  e.mode = .running ∧ test.holds e.params = false ∨ ∃ label, e.mode = .seeking label

def Engine.Settled (e : Engine) : Prop := e.mode = .running ∨ ∃ label, e.mode = .seeking label

/-- Whether the skip of each run does nothing when the runs are executed one after the other. A run that
need not be skipped has no skip, but must not be reached while records are being dropped. -/
def StaysOpen (limit : Nat) (test : SkipCondition) : List SkipRun → Engine → Prop
  | [], _ => True
  | run :: rest, e =>
    (if run.ways.none then e.Settled else e.Passes test) ∧
      StaysOpen limit test rest (e.run limit run.records)

namespace Guard

variable {limit : Nat} {g : Guard Record} {xs : List Record} {e : Engine}

/-- Whether the test stays false until the last run of a list starts. -/
def Stays (g : Guard Record) (limit : Nat) (xs : List Record) (e : Engine) : Prop :=
  StaysOpen limit g.test (SkipRun.split xs) e

/-- A guard has a wrap for each run of the list, with labels that the list does not mention. -/
structure Formed (g : Guard Record) (limit : Nat) (xs : List Record) : Prop where
  complete : Complete xs
  covers : Forall₂ (Wrap.Covers limit g.test (Mentioned limit xs)) (SkipRun.split xs) g.wraps

end Guard

section Skipped

variable {limit : Nat} {e : Engine} {test : SkipCondition} {taken : Int → Prop} {run : SkipRun} {w : Wrap Record}

theorem SkipRun.Valid.jumpTargets (h : run.Valid) (hnone : run.ways.none = true) :
    ∀ r ∈ run.records, ∃ label, r.body = .jumpTarget label := by
  intro r hr
  have hall : run.records.all (!·.kind.capabilities.needsSkip) = true := by
    have hways := congrArg SkipWays.none h.ways
    rwa [hnone, eq_comm] at hways
  have hneeds : r.kind.capabilities.needsSkip = false := by
    simpa using all_eq_true.mp hall r hr
  unfold Record.kind at hneeds
  cases hb : r.body <;> rw [hb] at hneeds <;> first | exact ⟨_, rfl⟩ | cases hneeds

theorem Engine.Ready.run_jumpTargets (h : e.Ready)
    (hrs : ∀ r ∈ rs, ∃ label, r.body = .jumpTarget label) : e.run limit rs = e := by
  induction rs with
  | nil => rfl
  | cons r rs ih =>
    obtain ⟨pos, body⟩ := r
    obtain ⟨label, rfl⟩ : ∃ label, body = .jumpTarget label := hrs ⟨pos, body⟩ (by simp)
    rw [run_cons, show e.step limit ⟨pos, .jumpTarget label⟩ = e from h.step_label label pos]
    exact ih fun x hx => hrs x (by simp [hx])

theorem Wrap.Covers.run_skipped (hw : w.Covers limit test taken run) (hvalid : run.Valid)
    (hmentions : ∀ r ∈ run.records, ∀ n, r.Mentions limit n → taken n) (he : e.Ready)
    (htest : test.holds e.params = true) : e.run limit (w.apply run.records) = e := by
  have hback : { e with mode := .running } = e := by
    rw [← he.mode]
  cases hw with
  | alone hnone => simp_all [Wrap.apply, he.run_jumpTargets, hvalid.jumpTargets]
  | counted pos action _ _ hlength =>
    obtain ⟨more, hmore⟩ : ∃ more, run.records.length = more + 1 :=
      Nat.exists_eq_succ_of_ne_zero (by simpa using hvalid.nonempty)
    have hskip : Mode.skipping limit run.records.length = .dropping more := by
      have hle : (run.records.length : Int) ≤ limit := by omega
      rw [Mode.skipping, if_pos hle, hmore]
      rfl
    rw [Wrap.apply, Option.toList_none, append_nil]
    show (e.step limit _).run limit run.records = e
    rw [he.step_skip htest, hskip, run_dropping rfl hmore]
    exact hback
  | labelled pos action label _ _ _ hfresh =>
    obtain ⟨hlabel, hfresh⟩ := hfresh
    have hskip : Mode.skipping limit label = .seeking label := by
      rw [Mode.skipping, if_neg (by omega)]
    have hpass : ∀ r ∈ run.records, r.body ≠ .jumpTarget label := by
      intro r hr hbody
      exact hfresh (hmentions r hr label (by rw [Record.Mentions, hbody]))
    show (e.step limit _).run limit (run.records ++ [.ofLabel label pos]) = e
    rw [he.step_skip htest, hskip, run_append, run_seeking rfl hpass]
    show (if label = label then _ else _) = e
    rw [if_pos rfl]
    exact hback

theorem wrapAll_run_skipped (hws : Forall₂ (Wrap.Covers limit test taken) runs ws) (hvalid : ∀ run ∈ runs, run.Valid)
    (hmentions : ∀ run ∈ runs, ∀ r ∈ run.records, ∀ n, r.Mentions limit n → taken n) (he : e.Ready)
    (htest : test.holds e.params = true) : e.run limit (wrapAll ws (runs.flatMap (·.records))) = e := by
  induction hws with
  | nil => rfl
  | @cons run w runs ws hw _ ih =>
    rw [forall_mem_cons] at hvalid hmentions
    rw [flatMap_cons, wrapAll_cons hw.length, run_append, hw.run_skipped hvalid.1 hmentions.1 he htest]
    exact ih hvalid.2 hmentions.2

/-- **A guard whose test is true leaves its list out.** -/
theorem Guard.Formed.run_skipped (h : g.Formed limit xs) (he : e.Ready)
    (htest : g.test.holds e.params = true) : e.run limit (g.around xs) = e := by
  have hrun := wrapAll_run_skipped h.covers split_valid mentioned_of_split he htest
  rwa [split_records] at hrun

end Skipped

section Taken

variable {limit : Nat} {e : Engine} {test : SkipCondition} {taken : Int → Prop} {run : SkipRun} {w : Wrap Record}

theorem Engine.Passes.settled (h : e.Passes test) : e.Settled := h.imp_left And.left

theorem StaysOpen.settled (h : StaysOpen limit test (run :: runs) e) : e.Settled := by
  have hrun := h.1
  split at hrun
  · exact hrun
  · exact hrun.settled

theorem StaysOpen.passes (h : StaysOpen limit test (run :: runs) e) (hnone : run.ways.none = false) :
    e.Passes test := by
  have hrun := h.1
  rwa [hnone, if_neg (by simp)] at hrun

theorem Engine.Passes.step_skip (h : e.Passes test) (hpending : e.pending = []) :
    e.step limit ⟨pos, .skip action test target⟩ = e := by
  rcases h with ⟨hmode, htest⟩ | ⟨label, hmode⟩
  · have hstep : e.step limit ⟨pos, .skip action test target⟩ = { e with pending := [], mode := .running } := by
      simp [step, hmode, htest]
    rw [hstep]
    exact Ready.eta ⟨hmode, hpending⟩
  · exact step_seeking hmode (by simp)

theorem Engine.Settled.step_label {label : Int} (h : e.Settled)
    (hpending : e.pending = []) (hne : e.mode ≠ .seeking label) : e.step limit (.ofLabel label pos) = e := by
  rcases h with hmode | ⟨sought, hmode⟩
  · exact Ready.step_label ⟨hmode, hpending⟩ label pos
  · refine step_seeking hmode ?_
    rintro hbody
    obtain rfl : label = sought := by simpa [Record.ofLabel] using hbody
    exact hne hmode

theorem Wrap.Covers.run_taken (hw : w.Covers limit test taken run) (hcomplete : Complete run.records)
    (hmentions : ∀ r ∈ run.records, ∀ n, r.Mentions limit n → taken n) (hpending : e.pending = [])
    (hseek : ∀ n, e.mode = .seeking n → taken n) (hpass : run.ways.none = false → e.Passes test)
    (hsettled : (e.run limit run.records).Settled) : e.run limit (w.apply run.records) = e.run limit run.records := by
  cases hw with
  | alone _ => rw [Wrap.apply, Option.toList_none, append_nil, nil_append]
  | counted pos action _ hnone _ =>
    rw [Wrap.apply, Option.toList_none, append_nil]
    show (e.step limit _).run limit run.records = _
    rw [(hpass hnone).step_skip hpending]
  | labelled pos action label _ hnone _ hfresh =>
    show (e.step limit _).run limit (run.records ++ [.ofLabel label pos]) = _
    rw [(hpass hnone).step_skip hpending, run_append]
    refine hsettled.step_label (hcomplete.run_pending hpending) fun hmode => hfresh.2 ?_
    exact run_mode_seeking hmentions hseek hmode

theorem wrapAll_run_taken (hws : Forall₂ (Wrap.Covers limit test taken) runs ws)
    (hcomplete : ∀ run ∈ runs, Complete run.records)
    (hmentions : ∀ run ∈ runs, ∀ r ∈ run.records, ∀ n, r.Mentions limit n → taken n)
    (hpending : e.pending = []) (hseek : ∀ n, e.mode = .seeking n → taken n) (hopen : StaysOpen limit test runs e)
    (hsettled : (e.run limit (runs.flatMap (·.records))).Settled) :
    e.run limit (wrapAll ws (runs.flatMap (·.records))) = e.run limit (runs.flatMap (·.records)) := by
  induction hws generalizing e with
  | nil => rfl
  | @cons run w runs ws hw _ ih =>
    rw [forall_mem_cons] at hcomplete hmentions
    have hpass := hopen.passes
    replace hopen := hopen.2
    rw [flatMap_cons, run_append] at hsettled
    -- the next run, or the end of the list, is reached without records being dropped
    have hnext : (e.run limit run.records).Settled := by
      cases runs with
      | nil => exact hsettled
      | cons next runs => exact hopen.settled
    rw [flatMap_cons, wrapAll_cons hw.length, run_append, run_append,
      hw.run_taken hcomplete.1 hmentions.1 hpending hseek hpass hnext]
    refine ih hcomplete.2 hmentions.2 ?_ ?_ hopen hsettled
    · exact hcomplete.1.run_pending hpending
    · exact fun n hn => run_mode_seeking hmentions.1 hseek hn

/-- **A guard whose test stays false has no effect**, if no records are being dropped at its end. -/
theorem Guard.Formed.run_taken (h : g.Formed limit xs) (he : e.Ready)
    (hstays : g.Stays limit xs e) (hsettled : (e.run limit xs).Settled) :
    e.run limit (g.around xs) = e.run limit xs := by
  have hseek : ∀ n, e.mode = .seeking n → Mentioned limit xs n := by
    intro n hn
    rw [he.mode] at hn
    cases hn
  have hrun := wrapAll_run_taken h.covers (split_complete h.complete) mentioned_of_split
    he.pending hseek hstays (by rwa [split_records])
  rwa [split_records] at hrun

end Taken

/-! ## Guards that are made -/

theorem Wrap.Covers.complete {run : SkipRun}
    {w : Wrap Record} (hw : w.Covers limit test taken run) (h : Complete run.records) :
    Complete (w.apply run.records) := by
  cases hw with
  | alone _ => simpa [Wrap.apply] using h
  | counted pos action _ _ _ => simpa [Wrap.apply] using h.cons (by simp [Record.IsPatch])
  | labelled pos action label _ _ _ _ =>
    have hlabel : Complete [.ofLabel label pos] := .cons (by simp [Record.IsPatch, Record.ofLabel]) .nil
    simpa [Wrap.apply] using (h.append hlabel).cons (by simp [Record.IsPatch])

theorem Guard.Formed.complete_around (h : g.Formed limit xs) : Complete (g.around xs) := by
  have hall : ∀ {runs : List SkipRun} {ws : List (Wrap Record)},
      Forall₂ (Wrap.Covers limit g.test (Mentioned limit xs)) runs ws →
      (∀ run ∈ runs, Complete run.records) → Complete (wrapAll ws (runs.flatMap (·.records))) := by
    intro runs ws hws hruns
    induction hws with
    | nil => exact .nil
    | @cons run w runs ws hw _ ih =>
      rw [forall_mem_cons] at hruns
      rw [flatMap_cons, wrapAll_cons hw.length]
      exact (hw.complete hruns.1).append (ih hruns.2)
  have hcomplete := hall h.covers (split_complete h.complete)
  rwa [split_records] at hcomplete

namespace Lowering

variable {c c' : Context} {test : SkipCondition} {xs ys : List Record} {limit : Nat}

/-- Records that can be guarded in the state `c`: no patches are left over, and the labels they mention
are taken. -/
structure Guardable (c : Context) (limit : Nat) (rs : List Record) : Prop where
  complete : Complete rs
  mentions : ∀ r ∈ rs, ∀ n, r.Mentions limit n → Taken c n

theorem Guardable.nil : Guardable c limit [] := ⟨.nil, fun _ hr => nomatch hr⟩

theorem Guardable.append (h : Guardable c limit xs) (h' : Guardable c limit ys) : Guardable c limit (xs ++ ys) :=
  ⟨h.complete.append h'.complete, forall_mem_append.mpr ⟨h.mentions, h'.mentions⟩⟩

theorem Guardable.of_extends (h : Guardable c limit xs) (hext : c.Extends c') : Guardable c' limit xs :=
  ⟨h.complete, fun r hr n hn => (h.mentions r hr n hn).of_extends hext⟩

theorem Guardable.of_straight {targets : Int → Prop} {computed : Prop}
    (h : Straight targets computed xs) : Guardable c limit xs := by
  refine ⟨.of_straight h, fun r hr n hn => ?_⟩
  have hcontrol := h.not_isControl r hr
  unfold Record.IsControl at hcontrol
  unfold Record.Mentions at hn
  cases hb : r.body <;> rw [hb] at hcontrol hn <;> first | exact hn.elim | exact absurd trivial hcontrol

/-- **A list is guarded by a guard.** -/
theorem Guards.guard {ws : List (Wrap Record)} (h : Guards c test xs ws c') (hxs : Guardable c c.maxInlineSkip xs) :
    Guardable c' c.maxInlineSkip (wrapAll ws xs) ∧ Guard.Formed ⟨test, ws⟩ c.maxInlineSkip xs := by
  have hformed : Guard.Formed ⟨test, ws⟩ c.maxInlineSkip xs := by
    refine ⟨hxs.complete, h.covers.imp fun run w hw => hw.mono ?_⟩
    rintro n ⟨r, hr, hn⟩
    exact hxs.mentions r hr n hn
  refine ⟨⟨hformed.complete_around, fun r hr n hn => ?_⟩, hformed⟩
  rcases mem_wrapAll hr with hr | ⟨w, hw, hr⟩
  · exact (hxs.mentions r hr n hn).of_extends h.ext
  · exact h.mentions hw hr hn

end Lowering

end Grf
