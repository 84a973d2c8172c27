import Grf.Proofs.Engine.Straight
import Grf.Proofs.Lowering.Frames

/-! # The runs of a guarded list

A list of records that is skipped under a condition is split into runs, and a skip is put before each run that needs
one. `SkipRun.split` loses and reorders nothing (`split_records`), the ways of a run are those of all its records
(`split_ways`), and a table of byte patches is not separated from the record it patches (`split_complete`). A `Wrap`
says what goes before and after one run, and `wrapAll` inserts the wraps of all runs.
-/

namespace Grf

open List SkipWays Record

/-! ## Splitting -/

def SkipWays.ofAll (rs : List Record) : SkipWays :=
  ⟨rs.all (·.kind.capabilities.byAction7), rs.all (·.kind.capabilities.byAction9),
    rs.all (!·.kind.capabilities.needsSkip)⟩

variable {run longer : SkipRun} {r : Record} {rs : List Record}

namespace SkipRun

theorem ofAll_single (r : Record) : ofAll [r] = .ofKind r.kind := by
  simp [ofAll, ofKind]

theorem ofAll_append (rs : List Record) (r : Record) : ofAll (rs ++ [r]) = (ofAll rs).inter (.ofKind r.kind) := by
  simp [ofAll, ofKind, inter]

/-- A run is what it should be: not empty, and with the ways of all its records. -/
structure Valid (run : SkipRun) : Prop where
  nonempty : run.records ≠ []
  ways : run.ways = .ofAll run.records

theorem single_valid (r : Record) : (single r).Valid := ⟨by simp [single], (ofAll_single r).symm⟩

theorem extend?_valid (h : run.extend? r = some longer)
    (hrun : run.Valid) : longer.Valid ∧ longer.records = run.records ++ [r] := by
  unfold extend? at h
  dsimp only at h
  split at h
  · cases h
  · obtain rfl := Option.some.inj h
    refine ⟨⟨by simp, ?_⟩, rfl⟩
    rw [ofAll_append, hrun.ways]

theorem splitFrom_spec (rs : List Record) (hrun : run.Valid) :
    (splitFrom run rs).flatMap (·.records) = run.records ++ rs ∧ ∀ r ∈ splitFrom run rs, r.Valid := by
  induction rs generalizing run with
  | nil => simp [splitFrom, hrun]
  | cons r rs ih =>
    unfold splitFrom
    cases hext : run.extend? r with
    | some longer =>
      obtain ⟨hvalid, hrecords⟩ := extend?_valid hext hrun
      grind
    | none =>
      obtain ⟨hflat, hall⟩ := ih (single_valid r)
      refine ⟨?_, forall_mem_cons.mpr ⟨hrun, hall⟩⟩
      rw [flatMap_cons, hflat]
      rfl

theorem split_records (rs : List Record) : (split rs).flatMap (·.records) = rs := by
  cases rs with
  | nil => rfl
  | cons r rs => exact (splitFrom_spec rs (single_valid r)).1

theorem split_valid : ∀ run ∈ split rs, run.Valid := by
  cases rs with
  | nil => simp [split]
  | cons r rs => exact (splitFrom_spec rs (single_valid r)).2

end SkipRun

/-! ## Patches stay with their records -/

def Record.IsPatch (r : Record) : Prop := ∃ patches, r.body = .bytePatchTable patches

theorem Record.IsPatch.kind_eq (h : r.IsPatch) : r.kind = .bytePatchTable := by
  obtain ⟨patches, h⟩ := h
  simp [kind, h]

/-- Every table of byte patches is followed by a record that action 9 can skip with it. -/
inductive Complete : List Record → Prop
  | nil : Complete []
  | cons {r : Record} {rest : List Record} (hr : ¬r.IsPatch) (h : Complete rest) : Complete (r :: rest)
  | patched {p r : Record} {rest : List Record} (hp : p.IsPatch) (hr : ¬r.IsPatch)
      (hskip : r.kind.capabilities.byAction9 = true) (h : Complete rest) : Complete (p :: r :: rest)

namespace Complete

theorem append {rs' : List Record} (h : Complete rs) (h' : Complete rs') : Complete (rs ++ rs') := by
  induction h with
  | nil => exact h'
  | cons hr _ ih => exact .cons hr ih
  | patched hp hr hskip _ ih => exact .patched hp hr hskip ih

theorem of_straight {targets : Int → Prop} {computed : Prop} (h : Straight targets computed rs) : Complete rs := by
  have plain : ∀ {r : Record}, r.IsPlain → ¬r.IsPatch := by
    rintro r hr ⟨patches, hp⟩
    rw [Record.IsPlain, hp] at hr
    exact hr
  induction h with
  | nil => exact .nil
  | plain hr _ ih => exact .cons (plain hr) ih
  | assign _ _ ih => exact .cons (by simp [Record.IsPatch]) ih
  | patched hr hskip _ ih => exact .patched ⟨_, rfl⟩ (plain hr) hskip ih
  | patchedAssign _ _ ih => exact .patched ⟨_, rfl⟩ (by simp [Record.IsPatch]) rfl ih

end Complete

namespace SkipRun

theorem extend?_of_action9 (hrun : run.ways.action9 = true)
    (hr : r.kind.capabilities.byAction9 = true) : ∃ longer, run.extend? r = some longer := by
  simp [extend?, inter, ofKind, SkipWays.isEmpty, hrun, hr]

theorem action9_of_extend?_patch {p : Record} (hp : p.IsPatch)
    (h : run.extend? p = some longer) : longer.ways.action9 = true := by
  unfold extend? at h
  rw [hp.kind_eq] at h
  dsimp only at h
  split at h
  · cases h
  · rename_i hways
    obtain rfl := Option.some.inj h
    simpa [inter, ofKind, SkipWays.isEmpty, Kind.capabilities] using hways

theorem single_action9 {p : Record} (hp : p.IsPatch) : (single p).ways.action9 = true := by
  show (ofKind p.kind).action9 = true
  rw [hp.kind_eq]
  rfl

theorem splitFrom_complete (hvalid : run.Valid)
    (hrun : Complete run.records) (h : Complete rs) : ∀ r ∈ splitFrom run rs, Complete r.records := by
  induction h generalizing run with
  | nil => simpa [splitFrom] using hrun
  | @cons r rest hr _ ih =>
    unfold splitFrom
    cases hext : run.extend? r with
    | some longer =>
      obtain ⟨hvalid', hrecords⟩ := extend?_valid hext hvalid
      exact ih hvalid' (hrecords ▸ hrun.append (.cons hr .nil))
    | none => exact forall_mem_cons.mpr ⟨hrun, ih (single_valid r) (.cons hr .nil)⟩
  | @patched p r rest hp hr hskip _ ih =>
    have hpair : Complete [p, r] := .patched hp hr hskip .nil
    unfold splitFrom
    cases hext : run.extend? p with
    | some longer =>
      obtain ⟨hvalid', hrecords⟩ := extend?_valid hext hvalid
      obtain ⟨both, hboth⟩ := extend?_of_action9 (action9_of_extend?_patch hp hext) hskip
      obtain ⟨hvalid'', hrecords'⟩ := extend?_valid hboth hvalid'
      grind [splitFrom, hrun.append]
    | none =>
      obtain ⟨both, hboth⟩ := extend?_of_action9 (single_action9 hp) hskip
      obtain ⟨hvalid', hrecords⟩ := extend?_valid hboth (single_valid p)
      rw [splitFrom, hboth]
      refine forall_mem_cons.mpr ⟨hrun, ih hvalid' ?_⟩
      rw [hrecords]
      exact hpair

/-- **No split separates byte patches from their record.** -/
theorem split_complete (h : Complete rs) : ∀ run ∈ split rs, Complete run.records := by
  cases h with
  | nil => simp [split]
  | @cons r rest hr h => exact splitFrom_complete (single_valid r) (.cons hr .nil) h
  | @patched p r rest hp hr hskip h =>
    obtain ⟨both, hboth⟩ := extend?_of_action9 (single_action9 hp) hskip
    obtain ⟨hvalid, hrecords⟩ := extend?_valid hboth (single_valid p)
    show ∀ run ∈ splitFrom (single p) (r :: rest), _
    rw [splitFrom, hboth]
    exact splitFrom_complete hvalid (hrecords ▸ .patched hp hr hskip .nil) h

end SkipRun

/-! ## What is inserted -/

/-- What is put around the next `length` elements of a list: a skip before them and a label after. -/
structure Wrap (α : Type) where
  length : Nat
  skip : Option α
  label : Option α

variable {α : Type}

def Wrap.apply (w : Wrap α) (run : List α) : List α := w.skip.toList ++ run ++ w.label.toList

def Wrap.inserted (w : Wrap α) : List α := w.skip.toList ++ w.label.toList

def wrapAll : List (Wrap α) → List α → List α
  | [], _ => []
  | w :: ws, xs => w.apply (xs.take w.length) ++ wrapAll ws (xs.drop w.length)

theorem wrapAll_cons {w : Wrap α} {run : List α} (h : w.length = run.length) (ws : List (Wrap α))
    (rest : List α) : wrapAll (w :: ws) (run ++ rest) = w.apply run ++ wrapAll ws rest := by
  rw [wrapAll, h, take_left, drop_left]

theorem mem_wrapAll {ws : List (Wrap α)} {xs : List α} {x : α} (h : x ∈ wrapAll ws xs) :
    x ∈ xs ∨ ∃ w ∈ ws, x ∈ w.inserted := by
  induction ws generalizing xs with
  | nil => cases h
  | cons w ws ih =>
    simp only [wrapAll, Wrap.apply, mem_append] at h
    rcases h with ((hskip | hrun) | hlabel) | hrest
    · exact .inr ⟨w, by simp, mem_append.mpr (.inl hskip)⟩
    · exact .inl (mem_of_mem_take hrun)
    · exact .inr ⟨w, by simp, mem_append.mpr (.inr hlabel)⟩
    grind

def Record.label? (r : Record) : Option Int :=
  match r.body with
  | .jumpTarget label => some label
  | _ => none

def labels (rs : List Record) : List Int := rs.filterMap Record.label?

@[simp] theorem labels_append (rs rs' : List Record) : labels (rs ++ rs') = labels rs ++ labels rs' := filterMap_append

def wrapLabels (ws : List (Wrap Record)) : List Int := ws.flatMap fun w => labels w.label.toList

/-- A number that a record mentions as a label: the target of a skip that is no count, or the label of a
marker. -/
def Record.Mentions (limit : Nat) (r : Record) (n : Int) : Prop :=
  match r.body with
  | .skip _ _ target => target = n ∧ (limit : Int) < n
  | .jumpTarget label => label = n
  | _ => False

def SkipWays.Allows (ways : SkipWays) : SkipAction → Prop
  | .action7 => ways.action7 = true
  | .action9 => ways.action9 = true

/-- The action that skips some records: one that can skip all of them, and action 7 if that can. -/
def SkipAction.Chosen (rs : List Record) (action : SkipAction) : Prop :=
  (ofAll rs).Allows action ∧ (action = .action9 → ¬(ofAll rs).Allows .action7)

/-- What is put around `n` records, if they are to be left out when `test` is true: nothing if they may
stay (`free`), a skip that counts them, or a skip to a `fresh` label behind them. -/
inductive Wrap.Around (limit : Nat) (test : SkipCondition) (chosen : Position → SkipAction → Prop)
    (fresh : Int → Prop) (free : Bool) (n : Nat) : Wrap Record → Prop
  | alone (hnone : free = true) : Around limit test chosen fresh free n ⟨n, none, none⟩
  | counted (pos : Position) (action : SkipAction) (haction : chosen pos action)
      (hnone : free = false) (hlength : n ≤ limit) :
      Around limit test chosen fresh free n ⟨n, some ⟨pos, .skip action test n⟩, none⟩
  | labelled (pos : Position) (action : SkipAction) (label : Int) (haction : chosen pos action)
      (hnone : free = false) (hlength : limit < n) (hfresh : fresh label) :
      Around limit test chosen fresh free n ⟨n, some ⟨pos, .skip action test label⟩, some (.ofLabel label pos)⟩

namespace Wrap

section Around

variable {limit n : Nat} {test : SkipCondition} {chosen chosen' : Position → SkipAction → Prop}
  {fresh fresh' : Int → Prop} {free : Bool} {w : Wrap Record}

theorem Around.length (h : w.Around limit test chosen fresh free n) : w.length = n := by
  cases h <;> rfl

theorem Around.imp (h : w.Around limit test chosen fresh free n)
    (hchosen : ∀ pos action, chosen pos action → chosen' pos action)
    (hfresh : ∀ label, fresh label → fresh' label) : w.Around limit test chosen' fresh' free n := by
  cases h with
  | alone hnone => exact .alone hnone
  | counted pos action haction hnone hlength => exact .counted pos action (hchosen _ _ haction) hnone hlength
  | labelled pos action label haction hnone hlength hlabel =>
    exact .labelled pos action label (hchosen _ _ haction) hnone hlength (hfresh label hlabel)

end Around

variable {limit : Nat} {test : SkipCondition} {pos : Position} {pool pool' : Pool} {rs : List Record}
  {taken taken' : Int → Prop} {run : SkipRun} {w : Wrap Record}

/-- What is put around the records of one run at `pos`, with a label which the pool still has. -/
def Fits (limit : Nat) (test : SkipCondition) (pos : Position) (pool : Pool) (rs : List Record)
    (w : Wrap Record) : Prop :=
  w.Around limit test (fun p action => p = pos ∧ action.Chosen rs)
    (fun label => label ∈ pool.free ∧ label ∉ pool.inUse) (ofAll rs).none rs.length

theorem Fits.nodup_labels (h : w.Fits limit test pos pool rs) : (labels w.label.toList).Nodup := by
  cases h <;> simp [labels, label?, ofLabel]

theorem Fits.of_took {ids : List Int} (h : w.Fits limit test pos pool' rs) (htook : pool.Took ids pool') :
    w.Fits limit test pos pool rs :=
  h.imp (fun _ _ h => h) fun label hlabel =>
    ⟨htook.free label hlabel.1, fun hin => hlabel.2 ((htook.inUse label).mpr (.inr hin))⟩

/-- The wraps of a run, which leave it out if `test` is true, with a label that is not `taken`. -/
def Covers (limit : Nat) (test : SkipCondition) (taken : Int → Prop) (run : SkipRun) (w : Wrap Record) : Prop :=
  w.Around limit test (fun _ => run.ways.Allows) (fun label => limit < label ∧ ¬taken label)
    run.ways.none run.records.length

theorem Covers.mono (h : Covers limit test taken run w) (hsub : ∀ n, taken' n → taken n) :
    Covers limit test taken' run w :=
  h.imp (fun _ _ h => h) fun label hlabel => ⟨hlabel.1, fun h => hlabel.2 (hsub label h)⟩

end Wrap

section Covers

variable {limit : Nat} {test : SkipCondition} {taken : Int → Prop} {runs : List SkipRun} {ws : List (Wrap Record)}

theorem exists_covers (h : Forall₂ (Wrap.Covers limit test taken) runs ws) :
    ∀ w ∈ ws, ∃ run, Wrap.Covers limit test taken run w := by
  induction h with
  | nil => simp
  | cons hw _ ih => exact forall_mem_cons.mpr ⟨⟨_, hw⟩, ih⟩

theorem not_taken_of_mem_wrapLabels (h : Forall₂ (Wrap.Covers limit test taken) runs ws) :
    ∀ n ∈ wrapLabels ws, ¬taken n ∧ (limit : Int) < n := by
  intro n hn
  obtain ⟨w, hw, hn⟩ := mem_flatMap.mp hn
  obtain ⟨run, hcovers⟩ := exists_covers h w hw
  cases hcovers with
  | alone => simp [labels] at hn
  | counted => simp [labels] at hn
  | labelled pos action label _ _ _ hlabel =>
    obtain rfl : n = label := by simpa [labels, label?, ofLabel] using hn
    exact hlabel.symm

end Covers

namespace Lowering

variable {c c' d : Context} {test : SkipCondition} {pos : Position} {xs ys part : List Record} {run : SkipRun}
  {runs : List SkipRun} {w : Wrap Record} {ws : List (Wrap Record)}

/-- The labels that stand for something around the records that are being made. -/
def Taken (c : Context) (n : Int) : Prop := n ∈ c.shortLabels.inUse ∨ 0x80 ≤ n

theorem Taken.of_extends (h : c.Extends c') {n : Int} (hn : Taken c n) : Taken c' n := by
  obtain ⟨ids, hids⟩ := h.shortLabels
  exact hn.imp_left fun h => (hids.inUse n).mpr (.inr h)

theorem covers_of_fits (hc : c.InRange) (hrun : run.Valid)
    (h : w.Fits c.maxInlineSkip test pos c.shortLabels run.records) :
    w.Covers c.maxInlineSkip test (Taken c) run := by
  unfold Wrap.Covers
  rw [hrun.ways]
  refine h.imp (fun _ _ haction => haction.2.1) fun label hlabel => ?_
  obtain ⟨h0, h1⟩ := hc.shortLabels label hlabel.1
  have hlimit : c.maxInlineSkip < 0x10 := hc.limit
  exact ⟨by omega, not_or.mpr ⟨hlabel.2, by omega⟩⟩

/-- **What is put around a run.** -/
theorem lowerSkipRun_fits (hrun : run.Valid) (h : lowerSkipRun run test pos c = .ok part c') :
    ∃ w : Wrap Record, w.Fits c.maxInlineSkip test pos c.shortLabels run.records ∧ part = w.apply run.records ∧
      ∃ pool, c.shortLabels.Took (labels w.label.toList) pool ∧ c' = { c with shortLabels := pool } := by
  unfold lowerSkipRun at h
  rw [hrun.ways] at h
  by_cases hneeds : (ofAll run.records).none = true
  · rw [if_pos hneeds] at h
    obtain ⟨rfl, rfl⟩ := pure_eq_ok.mp h
    exact ⟨_, .alone hneeds, by simp [Wrap.apply], _, .refl _, rfl⟩
  · rw [if_neg hneeds] at h
    rw [Bool.not_eq_true] at hneeds
    obtain ⟨action, haction, h⟩ : ∃ action : SkipAction, action.Chosen run.records ∧ (do
        let skip (target : Int) : Record := ⟨pos, .skip action test target⟩
        if run.records.length ≤ (← get).maxInlineSkip then
          return skip run.records.length :: run.records
        let label ← popShortLabel pos
        return skip label :: run.records ++ [.ofLabel label pos] : Lowering (List Record)) c =
          .ok part c' := by
      split_ifs at h with h7 h9
      · exact ⟨.action7, ⟨h7, by simp⟩, h⟩
      · exact ⟨.action9, ⟨h9, fun _ => h7⟩, h⟩
      · simp [bind_eq_ok] at h
    replace h := get_bind_eq_ok.mp h
    by_cases hlength : run.records.length ≤ c.maxInlineSkip
    · rw [if_pos hlength] at h
      obtain ⟨rfl, rfl⟩ := pure_eq_ok.mp h
      exact ⟨_, .counted pos action ⟨rfl, haction⟩ hneeds hlength, by simp [Wrap.apply], _, .refl _, rfl⟩
    · rw [if_neg hlength] at h
      obtain ⟨label, hpop, rfl⟩ := bind_pure_eq_ok.mp h
      obtain ⟨⟨_, pool⟩, hpool, ⟨⟩⟩ := lift_bind_eq_ok.mp hpop
      have htook := (Pool.pop_lent hpool).toTook
      exact ⟨_, .labelled pos action label ⟨rfl, haction⟩ hneeds (by omega)
        ⟨htook.wasFree label (by simp), htook.fresh label (by simp)⟩, by simp [Wrap.apply], pool, htook, rfl⟩

theorem lowerSkipRuns_fits {parts : List (List Record)} (hruns : ∀ run ∈ runs, run.Valid)
    (h : runs.mapM (fun run => lowerSkipRun run test pos) c = .ok parts c') :
    ∃ ws : List (Wrap Record),
      Forall₂ (fun run w => run.Valid ∧ w.Fits c.maxInlineSkip test pos c.shortLabels run.records) runs ws ∧
      parts.flatten = wrapAll ws (runs.flatMap (·.records)) ∧ (wrapLabels ws).Nodup ∧
      ∃ pool, c.shortLabels.Took (wrapLabels ws) pool ∧ c' = { c with shortLabels := pool } := by
  induction runs generalizing c parts with
  | nil =>
    obtain ⟨rfl, rfl⟩ := pure_eq_ok.mp h
    exact ⟨[], .nil, rfl, nodup_nil, _, .refl _, rfl⟩
  | cons run runs ih =>
    obtain ⟨part, d, rest, hpart, hrest, rfl⟩ := mapM_cons_eq_ok.mp h
    obtain ⟨hrun, hruns⟩ := forall_mem_cons.mp hruns
    obtain ⟨w, hw, rfl, pool, htook, rfl⟩ := lowerSkipRun_fits hrun hpart
    obtain ⟨ws, hws, hflat, hnodup, pool', htook', rfl⟩ := ih hruns hrest
    refine ⟨w :: ws, .cons ⟨hrun, hw⟩ (hws.imp fun _ _ h => ⟨h.1, h.2.of_took htook⟩), ?_, ?_, pool',
      htook.trans htook', rfl⟩
    · rw [flatten_cons, hflat, flatMap_cons, wrapAll_cons hw.length]
    · refine nodup_append.mpr ⟨hw.nodup_labels, hnodup, ?_⟩
      -- the label of this run has been taken when those of the others are
      rintro n hn n' hn' rfl
      exact htook'.fresh n hn' ((htook.inUse n).mpr (.inl hn))

/-- The wraps `ws` are put around the runs of `xs` if `test` is to leave them out. All labels are taken
for them, and nothing else. -/
structure Guards (c : Context) (test : SkipCondition) (xs : List Record) (ws : List (Wrap Record))
    (c' : Context) : Prop where
  ext : c.Extends c'
  covers : Forall₂ (Wrap.Covers c.maxInlineSkip test (Taken c)) (SkipRun.split xs) ws
  nodup : (wrapLabels ws).Nodup
  taken : ∀ n ∈ wrapLabels ws, n ∈ c'.shortLabels.inUse
  temps : c'.tempParams = c.tempParams
  longLabels : c'.longLabels = c.longLabels

theorem Guards.mentions (h : Guards c test xs ws c') (hw : w ∈ ws) (hr : r ∈ w.inserted) {n : Int}
    (hn : r.Mentions c.maxInlineSkip n) : Taken c' n := by
  refine .inl (h.taken n (mem_flatMap.mpr ⟨w, hw, ?_⟩))
  obtain ⟨run, hcovers⟩ := exists_covers h.covers w hw
  cases hcovers with
  | alone => simp [Wrap.inserted] at hr
  | counted pos action _ _ hlength =>
    obtain rfl : r = ⟨pos, .skip action test run.records.length⟩ := by simpa [Wrap.inserted] using hr
    -- a count is no label
    obtain ⟨rfl, hlt⟩ := hn
    omega
  | labelled pos action label =>
    have hr' : r = ⟨pos, .skip action test label⟩ ∨ r = .ofLabel label pos := by
      simpa [Wrap.inserted] using hr
    have hlabel : label = n := by
      rcases hr' with rfl | rfl
      · exact hn.1
      · exact hn
    simp [labels, label?, ofLabel, hlabel]

theorem skipRuns_fits (h : skipRuns xs test pos c = .ok ys c') :
    ∃ ws : List (Wrap Record), Forall₂ (fun run w => run.Valid ∧
        w.Fits c.maxInlineSkip test pos c.shortLabels run.records) (SkipRun.split xs) ws ∧
      ys = wrapAll ws xs ∧ (wrapLabels ws).Nodup ∧
      ∃ pool, c.shortLabels.Took (wrapLabels ws) pool ∧ c' = { c with shortLabels := pool } := by
  obtain ⟨parts, hparts, rfl⟩ := bind_pure_eq_ok.mp h
  obtain ⟨ws, hws, hflat, hrest⟩ := lowerSkipRuns_fits SkipRun.split_valid hparts
  exact ⟨ws, hws, by rw [hflat, SkipRun.split_records], hrest⟩

/-- **The wraps that are put into a guarded list.** -/
theorem skipRuns_guards (hc : c.InRange) (h : skipRuns xs test pos c = .ok ys c') :
    ∃ ws, Guards c test xs ws c' ∧ ys = wrapAll ws xs := by
  obtain ⟨ws, hws, rfl, hnodup, pool, htook, rfl⟩ := skipRuns_fits h
  refine ⟨ws, ?_, rfl⟩
  exact {
    ext := { Context.Extends.refl c with shortLabels := ⟨_, htook⟩ }
    covers := hws.imp fun run w hw => covers_of_fits hc hw.1 hw.2
    nodup := hnodup
    taken := fun n hn => (htook.inUse n).mpr (.inl hn)
    temps := rfl
    longLabels := rfl }

end Lowering

end Grf
