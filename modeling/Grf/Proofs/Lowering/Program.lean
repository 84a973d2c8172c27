import Grf.Compilation
import Grf.Proofs.Lowering.Clear
import Grf.Proofs.Lowering.Plan
import Grf.Proofs.Lowering.Strings
import Grf.Proofs.Table.Machine

/-! # The steps that lowerings are made of

`Program effects m P` says that the lowering `m` is made of a few kinds of steps: it reads the state, takes ids from the
pools, resolves strings, adds to what has been defined, and opens frames that it closes again. `effects` names the steps
that not every lowering may take, and `P` is what holds of the temporary parameters that `m` takes and of its result.
Declarations of every kind are lowered by such programs (`lower_program`).

Whatever each step keeps is shown by one induction on `Program`, failures included (`Program.lasting`). A lowering makes
one assignment to each temporary parameter that it takes (`Spends`).
-/

namespace Grf

open List Declaration

/-- What only some lowerings do. -/
inductive Effect
  /-- Taking a label. Labels are given back when the outermost conditional is closed, so they can only be
  taken inside of one. -/
  | labels
  /-- Changing the names by which the sprite sets of a feature are found. -/
  | spriteSets
  /-- Having to do with named records: defining them, referring to them, or reserving their registers. -/
  | definitions
  /-- Lowering other declarations, in frames of their own. -/
  | frames

/-- A change of the state in which pools and strings have no part. -/
structure Context.Tame (effects : Set Effect) (f : Context → Context) : Prop where
  tempParams : ∀ c, (f c).tempParams = c.tempParams
  shortLabels : ∀ c, (f c).shortLabels = c.shortLabels
  longLabels : ∀ c, (f c).longLabels = c.longLabels
  depth : ∀ c, (f c).depth = c.depth
  limit : ∀ c, (f c).maxInlineSkip = c.maxInlineSkip
  strings : ∀ c, (f c).strings = c.strings
  spriteSets : .spriteSets ∉ effects → ∀ c, (f c).spriteSets = c.spriteSets
  registry : .definitions ∉ effects → ∀ c, (f c).registry = c.registry
  scratch : .definitions ∉ effects → ∀ c, (f c).scratch = c.scratch

variable {effects : Set Effect} {rs : List Record} {t : Int} {pos : Position}

theorem Context.Tame.of_labels {f : Context → Context} (h : Tame (insert .labels effects) f) : Tame effects f :=
  { h with
    spriteSets := fun hnot => h.spriteSets (by simpa using hnot)
    registry := fun hnot => h.registry (by simpa using hnot)
    scratch := fun hnot => h.scratch (by simpa using hnot) }

theorem Context.Tame.unless {p : Context → Bool} {f : Context → Context}
    (hf : Tame effects f) : Tame effects fun c => if p c then c else f c := by
  have hkept : ∀ {β : Type} (g : Context → β), (∀ c, g (f c) = g c) → ∀ c, g (if p c then c else f c) = g c := by
    grind
  constructor
  case spriteSets => exact fun h => hkept _ (hf.spriteSets h)
  case registry => exact fun h => hkept _ (hf.registry h)
  case scratch => exact fun h => hkept _ (hf.scratch h)
  all_goals refine hkept _ ?_
  · exact hf.tempParams
  · exact hf.shortLabels
  · exact hf.longLabels
  · exact hf.depth
  · exact hf.limit
  · exact hf.strings

theorem Context.tame_registry (h : .definitions ∈ effects) (registry : Registry) :
    Tame effects fun c => { c with registry } := by
  constructor
  case registry => exact fun hnot => absurd h hnot
  all_goals intros; rfl

namespace Declaration

def IsSimple : Declaration → Prop
  | conditional .. | loop .. => False
  | _ => True

def HasNames : Declaration → Prop
  | switch .. | spriteGroup .. | graphics .. => True
  | _ => False

/-- Whether a declaration is no assignment to one of the parameters `held` by its number. -/
def Spares (held : Int → Prop) : Declaration → Prop
  | assign target _ _ => ∀ n, target.fold = .const n → ¬held n
  | _ => True

theorem Spares.mono {held held' : Int → Prop} {d : Declaration} (h : d.Spares held)
    (hsub : ∀ t, held' t → held t) : d.Spares held' := by
  cases d with
  | assign target value pos => exact fun n hn hheld => h n hn (hsub n hheld)
  | _ => trivial

theorem spares_false (d : Declaration) : d.Spares fun _ => False := by
  cases d with
  | assign target value pos => exact fun _ _ h => h
  | _ => trivial

end Declaration

/-! ## Assignments to temporary parameters -/

def temporaries (rs : List Record) : List Int := (targets rs).filter fun t => decide (IsTemporary t)

theorem mem_temporaries : t ∈ temporaries rs ↔ IsTemporary t ∧ ∃ r ∈ rs, r.target? = some t := by
  simp [temporaries, targets, and_comm]

@[simp] theorem temporaries_append (rs rs' : List Record) :
    temporaries (rs ++ rs') = temporaries rs ++ temporaries rs' := by
  simp [temporaries]

theorem temporaries_perm {ts own : List Int} (h : (targets rs).Perm (ts ++ own)) (hts : ∀ t ∈ ts, IsTemporary t)
    (hown : ∀ t ∈ own, ¬IsTemporary t) : (temporaries rs).Perm ts := by
  have hfilter : (ts ++ own).filter (fun t => decide (IsTemporary t)) = ts := by
    rw [filter_append, filter_eq_self.mpr (by simpa using hts), filter_eq_nil_iff.mpr (by simpa using hown), append_nil]
  exact hfilter ▸ h.filter _

namespace Lowering

/-- The state that a lowering leaves, whether it succeeds or fails. -/
def endState {α : Type} (m : Lowering α) (c : Context) : Context :=
  match m c with
  | .ok _ d => d
  | .error _ d => d

/-- The lowering `m` is made of the steps below, and `effects` are those it may have. The temporary
parameters that it takes, in their order, and its result have the property `P`. -/
inductive Program : Set Effect → {α : Type} → Lowering α → (List Int → α → Prop) → Prop
  | pure {effects : Set Effect} {α : Type} {P : List Int → α → Prop} {a : α} (h : P [] a) :
      Program effects (Pure.pure a) P
  | throw {effects : Set Effect} {α : Type} {P : List Int → α → Prop} (e : Failure) :
      Program effects (MonadExcept.throw e : Lowering α) P
  | bind {effects : Set Effect} {α β : Type} {m : Lowering α} {f : α → Lowering β}
      {P : List Int → α → Prop} {Q : List Int → β → Prop} (hm : Program effects m P)
      (hf : ∀ ts a, Program effects (f a) fun ts' b => P ts a → Q (ts ++ ts') b) :
      Program effects (m >>= f) Q
  | mono {effects : Set Effect} {α : Type} {m : Lowering α} {P Q : List Int → α → Prop}
      (h : Program effects m P) (hQ : ∀ ts a, P ts a → Q ts a) : Program effects m Q
  | look {effects : Set Effect} {α : Type} {f : Context → Lowering α} {P : List Int → α → Prop}
      (hf : ∀ c, Program effects (f c) P) : Program effects (get >>= f) P
  | update {effects : Set Effect} {f : Context → Context} (hf : Context.Tame effects f) :
      Program effects (modify f : Lowering PUnit) fun ts _ => ts = []
  | popTemp {effects : Set Effect} (pos : Position) : Program effects (popTemp pos) fun ts t => ts = [t]
  | popShortLabel {effects : Set Effect} (pos : Position) (h : .labels ∈ effects) :
      Program effects (popShortLabel pos) fun ts _ => ts = []
  | popLongLabel {effects : Set Effect} (pos : Position) (h : .labels ∈ effects) :
      Program effects (popLongLabel pos) fun ts _ => ts = []
  /-- Resolves a string, and then uses its id and its wordings. -/
  | resolving {effects : Set Effect} {α : Type} {f : Int → Except Failure (List Wording) → Lowering α}
      {P : List Int → α → Prop} (name : String) (pos : Position)
      (hf : ∀ id texts, Program effects (f id texts) P) :
      Program effects (stringTable name pos >>= fun table => lift (table.resolve name pos) >>= fun x =>
        modify (fun c => { c with strings := some x.2 }) >>= fun _ => f x.1 (x.2.wordings name pos)) P
  | withTemps {effects : Set Effect} {α : Type} {m : Lowering α} {P : List Int → α → Prop}
      (h : Program effects m P) (hframes : .frames ∈ effects) :
      Program effects (withTemps m) fun ts _ => ts = []
  | conditional {effects : Set Effect} {α : Type} {m : Lowering α} {P : List Int → α → Prop}
      (h : Program (insert .labels effects) m P) (hframes : .frames ∈ effects) :
      Program effects (bracket enterConditional exitConditional m) fun ts _ => ts = []

abbrev Idle {α : Type} (effects : Set Effect) (m : Lowering α) : Prop := Program effects m fun ts _ => ts = []

/-- The lowering `m` takes the temporary parameters that its records assign to, each for one
assignment. -/
abbrev Spends {α : Type} (effects : Set Effect) (m : Lowering α) (records : α → List Record) : Prop :=
  Program effects m fun ts a => (targets (records a)).Perm ts

variable {α β : Type} {effects : Set Effect} {P : List Int → α → Prop} {Q : List Int → β → Prop}
  {pos : Position} {feature : Int} {a : α} {f : α → Lowering β} {name text : String} {cond : Expr} {sets : List SpriteSet} {s : Switch}
  {test : SkipCondition} {b : KeptBranch} {branches : List Branch} {body : Lowering (List Record)}

section EndState

variable {m : Lowering α} {c d : Context}

theorem endState_of_ok (h : m c = .ok a d) : endState m c = d := by simp [endState, h]

theorem endState_of_error {e : Failure} (h : m c = .error e d) : endState m c = d := by
  simp [endState, h]

theorem endState_bind_of_ok (h : m c = .ok a d) : endState (m >>= f) c = endState (f a) d := by
  rw [endState, bind_of_ok h, endState]

theorem endState_bind_of_error {e : Failure} (h : m c = .error e d) :
    endState (m >>= f) c = d := endState_of_error (bind_of_error h)

theorem get_bind_apply {f : Context → Lowering α} (c : Context) : (get >>= f) c = f c c := rfl

theorem stringTable_bind_of_none (h : c.strings = none) (f : StringTable → Lowering α) :
    ∃ e, (stringTable name pos >>= f) c = .error e c := by
  unfold stringTable
  rw [bind_assoc, get_bind_apply, h]
  exact ⟨_, rfl⟩

theorem stringTable_bind_of_some {table : StringTable} (h : c.strings = some table)
    (f : StringTable → Lowering α) : (stringTable name pos >>= f) c = f table c := by
  unfold stringTable
  rw [bind_assoc, get_bind_apply, h]
  rfl

end EndState

/-- A relation between states that holds however programs end. Pools have no part in it. -/
structure Lasting (effects : Set Effect) (R : Context → Context → Prop) : Prop where
  refl : ∀ c, R c c
  trans : ∀ {c d e}, R c d → R d e → R c e
  update : ∀ {f}, Context.Tame effects f → ∀ c, R c (f c)
  pools : ∀ (c : Context) temps short long depth, R c
    { c with tempParams := temps, shortLabels := short, longLabels := long, depth := depth }
  resolve : ∀ {c : Context} {table table' : StringTable} {name : String} {pos : Position} {id : Int},
    c.strings = some table → table.resolve name pos = .ok (id, table') → R c { c with strings := some table' }

namespace Lasting

variable {R : Context → Context → Prop} {m : Lowering α}

theorem bind (hR : Lasting effects R) {f : α → Lowering β} {c : Context} (hm : R c (endState m c))
    (hf : ∀ a d, R d (endState (f a) d)) : R c (endState (m >>= f) c) := by
  cases hr : m c with
  | ok a d =>
    rw [endState_of_ok hr] at hm
    rw [endState_bind_of_ok hr]
    exact hR.trans hm (hf a d)
  | error e d =>
    rw [endState_of_error hr] at hm
    rwa [endState_bind_of_error hr]

theorem bracket (hR : Lasting effects R) {enter : Context → Context}
    {exit : Context → Except Fault Context} {c : Context} (henter : R c (enter c))
    (hexit : ∀ d e, exit d = .ok e → R d e) (hm : R (enter c) (endState m (enter c))) :
    R c (endState (bracket enter exit m) c) := by
  have hboth := hR.trans henter hm
  unfold endState Lowering.bracket at *
  cases hm : m (enter c) with
  | ok _ d | error _ d =>
    simp only [hm] at hboth ⊢
    cases hd : exit d with
    | ok e => exact hR.trans hboth (hexit d e hd)
    | error e => exact hboth

theorem of_labels (hR : Lasting effects R) : Lasting (insert .labels effects) R :=
  { hR with update := fun hf => hR.update hf.of_labels }

end Lasting

namespace Program

variable {kind : ErrorKind} {message : String} {condition : Bool} {as : List α} {m : Lowering α}

theorem plain (h : Program effects m P) : Program effects m fun _ _ => True := h.mono fun _ _ _ => trivial

theorem andThen (hm : Program effects m P) (hf : ∀ a, Program effects (f a) fun _ _ => True) :
    Program effects (m >>= f) fun _ _ => True :=
  hm.bind fun _ a => (hf a).mono fun _ _ _ _ => trivial

theorem after (hm : Idle effects m) (hf : ∀ a, Program effects (f a) Q) : Program effects (m >>= f) Q := by
  refine hm.bind fun ts a => (hf a).mono fun ts' b hb hts => ?_
  subst hts
  exact hb

theorem fail : Program effects (Lowering.fail kind pos message) P := .throw _

theorem passed :
    Program effects (Lowering.failIf condition kind pos message) fun ts _ => ts = [] ∧ condition = false := by
  unfold Lowering.failIf
  split
  · exact .fail
  · exact .pure ⟨rfl, by simp_all⟩

theorem failIf : Idle effects (Lowering.failIf condition kind pos message) := passed.mono fun _ _ h => h.1

theorem lift (x : Except Failure α) : Idle effects (Lowering.lift x) := by
  cases x with
  | ok a => exact .pure rfl
  | error e => exact .throw e

theorem check {f : Unit → Lowering β} (hf : ∀ u, Program effects (f u) Q) :
    Program effects (Lowering.failIf condition kind pos message >>= f) Q :=
  .after .failIf hf

theorem idle_mapM (h : ∀ a ∈ as, Idle effects (f a)) : Idle effects (as.mapM f) := by
  induction as with
  | nil => exact .pure rfl
  | cons a as ih =>
    rw [List.mapM_cons]
    exact .after (h a (by simp)) fun _ => .after (ih fun x hx => h x (by simp [hx])) fun _ => .pure rfl

theorem idle_forM {f : α → Lowering PUnit} (h : ∀ a ∈ as, Idle effects (f a)) : Idle effects (as.forM f) := by
  induction as with
  | nil => exact .pure rfl
  | cons a as ih => exact .after (h a (by simp)) fun _ => ih fun x hx => h x (by simp [hx])

theorem mapM {records : β → List Record} (h : ∀ a ∈ as, Spends effects (f a) records) :
    Spends effects (as.mapM f) (·.flatMap records) := by
  induction as with
  | nil => exact .pure .nil
  | cons a as ih =>
    rw [List.mapM_cons]
    refine (h a (by simp)).bind fun ts b => (ih fun x hx => h x (by simp [hx])).bind fun ts' bs => .pure ?_
    grind [targets_append]

theorem mapM_records {f : α → Lowering Record} (h : ∀ a ∈ as, Spends effects (f a) fun r => [r]) :
    Spends effects (as.mapM f) fun rs => rs := by
  refine (mapM h).mono fun ts rs hrs => ?_
  simpa using hrs

theorem yield {records : α → List Record} {g : α → β} {records' : β → List Record}
    (hm : Spends effects m records) (hg : ∀ a, targets (records' (g a)) = targets (records a)) :
    Spends effects (m >>= fun a => Pure.pure (g a)) records' := by
  refine hm.bind fun ts a => .pure fun ha => ?_
  rw [hg, append_nil]
  exact ha

end Program

theorem exitConditional_pools {d e : Context} (h : exitConditional d = .ok e) : ∃ temps short long depth,
      e = { d with tempParams := temps, shortLabels := short, longLabels := long, depth := depth } := by
  obtain ⟨temps, -, h⟩ := except_bind_eq_ok h
  dsimp only at h
  split at h
  · cases h
    exact ⟨_, _, _, _, rfl⟩
  · obtain ⟨long, -, h⟩ := except_bind_eq_ok h
    obtain ⟨short, -, ⟨⟩⟩ := except_bind_eq_ok h
    exact ⟨_, _, _, _, rfl⟩

namespace Lasting

variable {R : Context → Context → Prop} {d e : Context}

theorem enterConditional (hR : Lasting effects R) (c : Context) : R c (enterConditional c) := by
  grind [Lowering.enterConditional, hR.pools]

theorem exitConditional (hR : Lasting effects R) (h : exitConditional d = .ok e) : R d e := by
  obtain ⟨temps, short, long, depth, rfl⟩ := exitConditional_pools h
  exact hR.pools d temps short long depth

theorem restoreTemps (hR : Lasting effects R) (h : restoreTemps d = .ok e) : R d e := by
  obtain ⟨temps, -, ⟨⟩⟩ := except_bind_eq_ok h
  exact hR.pools d temps _ _ _

theorem kept {γ : Type} {g : Context → γ} (hupdate : ∀ {f}, Context.Tame effects f → ∀ c, g (f c) = g c)
    (hother : ∀ (c : Context) temps short long depth strings, g { c with
      tempParams := temps, shortLabels := short, longLabels := long, depth := depth,
      strings := strings } = g c) : Lasting effects fun c d => g d = g c where
  refl _ := rfl
  trans h h' := h'.trans h
  update := hupdate
  pools c temps short long depth := hother c temps short long depth c.strings
  resolve {c} {_ table'} _ _ _ _ _ := hother c c.tempParams c.shortLabels c.longLabels c.depth (some table')

theorem registry (h : .definitions ∉ effects) : Lasting effects fun c d => d.registry = c.registry :=
  .kept (fun hf => hf.registry h) fun _ _ _ _ _ _ => rfl

theorem scratch (h : .definitions ∉ effects) : Lasting effects fun c d => d.scratch = c.scratch :=
  .kept (fun hf => hf.scratch h) fun _ _ _ _ _ _ => rfl

theorem spriteSets (h : .spriteSets ∉ effects) : Lasting effects fun c d => d.spriteSets = c.spriteSets :=
  .kept (fun hf => hf.spriteSets h) fun _ _ _ _ _ _ => rfl

end Lasting

theorem texts_lasting (effects : Set Effect) : Lasting effects fun c d =>
    ∀ name id, c.textId? name = some id → d.textId? name = some id where
  refl _ _ _ h := h
  trans h h' name id hid := h' name id (h name id hid)
  update hf c name id hid := by
    rw [Context.textId?, hf.strings]
    exact hid
  pools _ _ _ _ _ _ _ h := h
  resolve hs hresolve name id hid := by
    rw [Context.textId?, hs] at hid
    exact (resolve_lookup hresolve).2 name id hid

theorem endState_lift_bind {x : Except Failure α} {f : α → Lowering β} {c : Context} {S : Context → Prop} (hc : S c)
    (h : ∀ a, x = .ok a → S (endState (f a) c)) : S (endState (Lowering.lift x >>= f) c) := by
  cases x with
  | error e => exact hc
  | ok a => exact h a rfl

/-- **What lasts holds of every program**, whether it succeeds or fails. -/
theorem Program.lasting {m : Lowering α} {R : Context → Context → Prop} (h : Program effects m P)
    (hR : Lasting effects R) (c : Context) : R c (endState m c) := by
  induction h generalizing c with
  | pure h => exact hR.refl c
  | throw e => exact hR.refl c
  | bind hm hf ihm ihf => exact hR.bind (ihm hR c) fun a d => ihf [] a hR d
  | mono h hQ ih => exact ih hR c
  | look hf ih => exact ih c hR c
  | update hf => exact hR.update hf c
  | popTemp | popShortLabel | popLongLabel => exact endState_lift_bind (hR.refl c) fun _ _ => hR.pools c _ _ _ _
  | resolving name pos hf ih =>
    cases hs : c.strings with
    | none =>
      obtain ⟨e, he⟩ := stringTable_bind_of_none hs _
      rw [endState_of_error he]
      exact hR.refl c
    | some table =>
      rw [endState, stringTable_bind_of_some hs, ← endState]
      cases hx : table.resolve name pos with
      | error e => exact hR.refl c
      | ok x => exact hR.trans (hR.resolve hs hx) (ih x.1 _ hR _)
  | withTemps h hframes ih => exact hR.bracket (hR.pools c _ _ _ _) (fun d e => hR.restoreTemps) (ih hR _)
  | conditional h hframes ih =>
    exact hR.bracket (hR.enterConditional c) (fun d e => hR.exitConditional) (ih hR.of_labels _)

theorem Program.kept {γ : Type} {g : Context → γ} {m : Lowering α} {c d : Context}
    (h : Program effects m P) (hg : Lasting effects fun c d => g d = g c) (hok : m c = .ok a d) : g d = g c := by
  have hend := h.lasting hg c
  rwa [endState_of_ok hok] at hend

/-- The state `d` is `c` as far as lasting things go: nothing has been defined, and no sprite set has a name. -/
def Steady (c d : Context) : Prop := ∀ R, Lasting ({.labels} : Set Effect) R → R c d

theorem Steady.refl (c : Context) : Steady c c := fun _ hR => hR.refl c

theorem Steady.trans {c d e : Context} (h : Steady c d) (h' : Steady d e) : Steady c e :=
  fun R hR => hR.trans (h R hR) (h' R hR)

theorem Program.steady {m : Lowering α} {c d : Context} (h : Program {.labels} m P)
    (hok : m c = .ok a d) : Steady c d := fun _ hR => endState_of_ok hok ▸ h.lasting hR c

/-! ## Steps that many lowerings share -/

theorem log_program {level : LogLevel} {message : String} {fields : List (String × LogValue)} :
    Idle effects (log level message fields) := by
  refine .update ?_
  constructor <;> intros <;> rfl

theorem generateName_program {base : String} : Idle effects (generateName base) := by
  refine .after (.update ?_) fun _ => .look fun _ => .pure rfl
  constructor <;> intros <;> rfl

theorem define_program (hdefs : .definitions ∈ effects) : Idle effects (define name feature pos) :=
  .look fun _ => .after (.lift _) fun _ => .after (.update (Context.tame_registry hdefs _)) fun _ => .pure rfl

theorem addRef_program {source : Option Nat} (hdefs : .definitions ∈ effects) :
    Idle effects (addRef source name feature pos) :=
  .look fun _ => .after (.lift _) fun _ => .update (Context.tame_registry hdefs _)

/-! ## Assignments and conditions -/

/-- The lowering `f` makes an assignment to the parameter it is given, and takes what the records before
it assign to. -/
def AssignsTo (effects : Set Effect) (f : Int → Lowering Assigned) : Prop :=
  ∀ target, Program effects (f target) fun ts a => a.assignment.target = target ∧ (targets a.before).Perm ts

theorem targets_records (a : Assigned) (pos : Position) :
    targets (a.records pos) = targets a.before ++ [a.assignment.target] := by
  rw [Assigned.records, targets_append, targets_withPatches]
  rfl

theorem holding_program {e : Expr} {f : Int → Lowering Assigned} (hf : AssignsTo effects f) :
    Spends effects (holding e pos f) Prod.fst := by
  unfold holding
  split
  · exact .check fun _ => .pure .nil
  · refine (Program.popTemp pos).bind fun ts t => (hf t).bind fun ts' a => .pure fun ha ht => ?_
    subst ht
    -- the parameter is taken before those of the operands, and assigned to after them
    grind [targets_records]

/-- **An assignment takes what is assigned to before it.** -/
theorem program_assembly (effects : Set Effect) (pos : Position) :
    Assembly pos (fun _ => AssignsTo effects) (fun _ m => Spends effects m Prod.fst)
      fun _ _ m => Spends effects m Prod.fst where
  fail _ := .fail
  const _ _ := .pure ⟨rfl, .nil⟩
  read _ _ := .check fun _ => .pure ⟨rfl, .nil⟩
  computedRead _ hm _ := by
    refine hm.bind fun ts x => .pure fun hx => ⟨rfl, ?_⟩
    rw [append_nil]
    exact hx
  combined _ hfirst hsecond _ := by
    refine hfirst.bind fun ts x => (hsecond _).bind fun ts' y => .pure fun hy hx => ⟨rfl, ?_⟩
    rw [targets_append, append_nil]
    exact hx.append hy
  hold := holding_program
  data _ := .pure .nil
  noSource := .fail
  held _ hm := .yield hm fun _ => rfl

theorem assign_program (pos : Position) (e : Expr) : AssignsTo effects (assign pos e) :=
  (program_assembly effects pos).assign e

theorem operandParam_program {e : Expr} : Spends effects (operandParam e pos) Prod.fst :=
  holding_program (assign_program pos e.fold)

theorem lowerAssignment_program {target value : Expr} : Program effects (lowerAssignment target value pos) fun ts rs =>
      ∃ n, (targets rs).Perm (ts ++ [n]) ∧ ((∀ n, target.fold = .const n → ¬IsTemporary n) → ¬IsTemporary n) := by
  by_cases hconst : ∃ num, target.fold = .const num
  · obtain ⟨num, hnum⟩ := hconst
    unfold lowerAssignment
    rw [hnum]
    refine .check fun _ => (assign_program pos _ num).bind fun ts a => .pure fun ha =>
      ⟨num, ?_, fun hspares => hspares num rfl⟩
    rw [targets_records, ha.1, append_nil]
    exact ha.2.append_right _
  · rw [lowerAssignment_computed hconst]
    refine operandParam_program.bind fun ts x => (assign_program pos _ 0).bind fun ts' a => .pure ?_
    intro ha hx
    refine ⟨0, ?_, fun _ => by decide⟩
    rw [targets_append, targets_records, ha.1, append_nil, append_assoc]
    exact hx.append (ha.2.append_right _)

theorem lowerCondition_eq (cond : Expr) (pos : Position) : ∃ condition message size code value, (size = 1 ∨ size = 4) ∧
      lowerCondition cond pos = (failIf condition .outOfRange pos message >>= fun _ =>
        testOf (testedOperand cond) size code value pos) := by
  have plain : ∀ {e code value}, testOf e 4 code value pos =
      (failIf false .outOfRange pos "" >>= fun _ => testOf e 4 code value pos) := rfl
  unfold lowerCondition testedOperand
  cases cond.fold with
  | binary op left right =>
    dsimp only
    by_cases hbit : op = .hasBit ∨ op = .notHasBit
    · rw [if_pos hbit, if_pos hbit]
      cases right with
      | const bit => exact ⟨_, _, 1, _, _, .inl rfl, rfl⟩
      | _ => exact ⟨_, _, 4, _, _, .inr rfl, plain⟩
    · rw [if_neg hbit, if_neg hbit]
      cases Comparison.ofBinary? op left right <;> exact ⟨_, _, 4, _, _, .inr rfl, plain⟩
  | _ => exact ⟨_, _, 4, _, _, .inr rfl, plain⟩

theorem lowerCondition_program : Spends effects (lowerCondition cond pos) Prod.fst := by
  obtain ⟨condition, message, size, code, value, -, heq⟩ := lowerCondition_eq cond pos
  rw [heq]
  exact .check fun _ => .yield operandParam_program fun _ => rfl

/-! ## Properties and messages -/

theorem stringDefinition_program {lang id : Int} :
    Spends effects (stringDefinition feature lang id text pos) fun r => [r] := by
  refine .check fun _ => ?_
  split
  · exact .fail
  · exact .pure .nil

def stringRecords (feature : Int) (pos : Position) (id : Int) (texts : Except Failure (List Wording)) :
    Lowering (Int × List Record) :=
  get >>= fun c => if c.definedStrings.contains (feature, id) then Pure.pure (id, [])
    else lift texts >>= fun texts =>
      texts.mapM (fun t => stringDefinition feature t.lang id t.text pos) >>= fun records =>
        modify (fun c => if c.inConditional then c
          else { c with definedStrings := (feature, id) :: c.definedStrings }) >>= fun _ => Pure.pure (id, records)

theorem resolveString_eq (name : String) : resolveString feature name pos = (stringTable name pos >>= fun table =>
      lift (table.resolve name pos) >>= fun x => modify (fun c => { c with strings := some x.2 }) >>=
        fun _ => stringRecords feature pos x.1 (x.2.wordings name pos)) := by
  refine bind_congr fun table => bind_congr fun x => ?_
  rfl

theorem resolveString_program : Spends effects (resolveString feature name pos) Prod.snd := by
  rw [resolveString_eq]
  refine .resolving name pos fun id texts => .look fun c => ?_
  split
  · exact .pure .nil
  · refine .after (.lift _) fun _ => (Program.mapM_records fun _ _ => stringDefinition_program).bind fun ts rs => ?_
    refine .after (.update (Context.Tame.unless ?_)) fun _ => .pure fun hrs => ?_
    · constructor <;> intros <;> rfl
    · rwa [append_nil]

theorem lowerProperty_program {prop : Property} :
    Spends effects (lowerProperty feature prop pos) fun p => p.definitions ++ p.computations := by
  refine .check fun _ => .check fun _ => ?_
  cases prop.value with
  | constant value => exact .check fun _ => .pure .nil
  | computed value =>
    dsimp only
    split
    · exact .check fun _ => .pure .nil
    · exact .yield operandParam_program fun _ => rfl
  | string name =>
    refine .check fun _ => .yield resolveString_program fun x => ?_
    rw [append_nil]
  | array items => exact .check fun _ => .after (.idle_forM fun _ _ => .failIf) fun _ => .pure .nil
  | missing => exact .fail

theorem lowerProperties_program {id : Int} {props : List Property} :
    Spends effects (lowerProperties feature id props pos) fun rs => rs := by
  unfold lowerProperties
  split
  · exact .pure .nil
  · refine .check fun _ => .check fun _ => .check fun _ => ?_
    refine (Program.mapM fun prop _ => lowerProperty_program).bind fun ts lowered => .pure fun hlowered => ?_
    have htable : ∀ entries, targets [(⟨pos, .propertyTable feature id entries⟩ : Record)] = [] := fun _ => rfl
    rw [targets_append, targets_withPatches, htable, append_nil, append_nil]
    -- all definitions come before the first computation
    exact ((flatMap_append_perm lowered _ _).filterMap _).trans hlowered

def checkText (pos : Position) (what text : String) : Lowering Unit :=
  match EngineText.size (Text.bytesOf text) true false with
  | .ok _ => return ()
  | .error e => fail .typeMismatch pos (what ++ e.message)

def messageChecks (m : Message) : Lowering Unit := do
  failIf (m.severity < 0 || 3 < m.severity) .outOfRange m.pos ("invalid severity " ++ Text.decimal m.severity)
  failIf (2 < m.params.length) .outOfRange m.pos "an error message has at most 2 parameters"
  failIf (!m.params.isEmpty && m.data.isNone) .typeMismatch m.pos
    "the parameters of an error message require a data string"
  m.data.elim (return ()) (checkText (m.pos.sub "data") "invalid data string: ")

def messageRecord (m : Message) (params : List Int) (lang msgId : Int) (custom : String) : Record :=
  ⟨m.pos, .errorMessage { severity := m.severity, lang, msgId, custom, data := m.data, params }⟩

/-- The records of a message, when its parameters have been computed. -/
def messageRecords (m : Message) (params : List Int) : Lowering (List Record) := m.custom.elim
    (failIf (m.msgId < 0 || 0x06 < m.msgId) .outOfRange m.pos
      ("builtin message id 0x" ++ Text.hex 0 m.msgId ++ " is out of range [0, 0x6]") >>= fun _ =>
        return [messageRecord m params 0x7F m.msgId ""])
    fun name => stringTable name m.pos >>= fun table => lift (table.wordings name m.pos) >>= fun wordings =>
      failIf wordings.isEmpty .unknownIdentifier m.pos ("string " ++ name ++ " has no translation") >>=
        fun _ => wordings.mapM fun t =>
          failIf (t.lang < 0 || 0x7F < t.lang) .outOfRange m.pos
            ("language id 0x" ++ Text.hex 0 t.lang ++ " is out of range [0x00, 0x7F]") >>= fun _ =>
              checkText m.pos ("invalid text for language 0x" ++ Text.hex 2 t.lang ++ ": ") t.text >>=
                fun _ => return messageRecord m params t.lang MessageRecord.customId t.text

theorem lowerMessage_eq (m : Message) : lowerMessage m = (messageChecks m >>= fun _ =>
    (m.params.zipIdx.mapM fun x => operandParam x.1 (m.pos.sub ("params[" ++ toString x.2 ++ "]"))) >>=
      fun params => messageRecords m (params.map (·.2)) >>= fun records =>
        return params.flatMap (·.1) ++ records) := by
  unfold lowerMessage messageChecks
  conv_rhs => simp only [bind_assoc]
  refine bind_congr fun _ => bind_congr fun _ => bind_congr fun _ => ?_
  extract_lets rest
  have hrest : ∀ u, rest u = ((m.params.zipIdx.mapM fun x =>
      operandParam x.1 (m.pos.sub ("params[" ++ toString x.2 ++ "]"))) >>= fun params =>
        messageRecords m (params.map (·.2)) >>= fun records =>
          return params.flatMap (·.1) ++ records) := by
    intro u
    refine bind_congr fun params => ?_
    unfold messageRecords
    cases m.custom with
    | none =>
      simp only [Option.elim, bind_assoc, pure_bind]
      rfl
    | some name =>
      conv_rhs => simp only [Option.elim, bind_assoc]
      refine bind_congr fun table => bind_congr fun wordings => bind_congr fun _ => ?_
      refine congrArg (· >>= _) (congrArg (wordings.mapM ·) (funext fun t => bind_congr fun _ => ?_))
      unfold checkText
      cases EngineText.size (Text.bytesOf t.text) true false <;> rfl
  cases m.data with
  | none => exact hrest ()
  | some data =>
    dsimp only [Option.elim, checkText]
    cases EngineText.size (Text.bytesOf data) true false with
    | ok n => exact hrest ()
    | error e => rfl

theorem checkText_program {what : String} : Idle effects (checkText pos what text) := by
  unfold checkText
  cases EngineText.size (Text.bytesOf text) true false with
  | ok _ => exact .pure rfl
  | error _ => exact .fail

theorem messageChecks_program {m : Message} : Idle effects (messageChecks m) := by
  refine .check fun _ => .check fun _ => .check fun _ => ?_
  cases m.data with
  | none => exact .pure rfl
  | some data => exact checkText_program

theorem lowerMessage_program {m : Message} : Spends effects (lowerMessage m) id := by
  have hrecords : ∀ params, Spends effects (messageRecords m params) fun rs => rs := by
    intro params
    unfold messageRecords
    cases m.custom with
    | none => exact .check fun _ => .pure .nil
    | some name =>
      have htable : Idle effects (stringTable name m.pos) := by
        refine .look fun c => ?_
        cases c.strings with
        | none => exact .fail
        | some table => exact .pure rfl
      exact .after htable fun _ => .after (.lift _) fun _ => .check fun _ =>
        .mapM_records fun t _ => .check fun _ => .after checkText_program fun _ => .pure .nil
  rw [lowerMessage_eq]
  refine .after messageChecks_program fun _ => (Program.mapM fun x _ => operandParam_program).bind fun ts params => ?_
  refine (hrecords _).bind fun ts' records => .pure fun hrecords hparams => ?_
  grind [targets_append]

/-! ## Sprites, groups and graphics -/

theorem realSprite_program : Spends effects (realSprite name pos) fun r => [r] := by
  refine .look fun c => ?_
  cases c.sprites with
  | none => exact .fail
  | some sprites =>
    refine .after (.lift _) fun x => .after (.update ?_) fun _ => .pure .nil
    constructor <;> intros <;> rfl

theorem realSprites_program {names : List String} : Spends effects (realSprites names pos) fun rs => rs :=
  .mapM_records fun _ _ => realSprite_program

theorem lowerSets_program {count i : Nat} {names : List (String × Nat)} :
    Spends effects (lowerSets count pos names i sets) Prod.fst := by
  induction sets generalizing names i with
  | nil => exact .pure .nil
  | cons set sets ih =>
    refine .check fun _ => .check fun _ => realSprites_program.bind fun ts sprites => ih.bind fun ts' others => ?_
    refine .pure fun hothers hsprites => ?_
    rw [targets_append, append_nil]
    exact hsprites.append hothers

theorem lowerSpriteSets_program (h : .spriteSets ∈ effects) :
    Spends effects (lowerSpriteSets feature sets pos) fun rs => rs := by
  refine .check fun _ => .check fun _ => .check fun _ => .check fun _ => ?_
  refine lowerSets_program.bind fun ts x => .after (.update ?_) fun _ => .pure fun hx => ?_
  · constructor
    case spriteSets => exact fun hnot => absurd h hnot
    all_goals intros; rfl
  · rw [append_nil]
    exact hx

theorem spriteSetNumber_program : Idle effects (spriteSetNumber feature name pos) := by
  refine .look fun c => ?_
  cases c.spriteSets.lookup feature with
  | none => exact .fail
  | some sets =>
    dsimp only
    cases sets.lookup name with
    | none => exact .fail
    | some num => exact .pure rfl

theorem lowerSpriteGroup_program {g : SpriteGroup} (hdefs : .definitions ∈ effects) :
    Spends effects (lowerSpriteGroup g) fun rs => rs :=
  .check fun _ => .check fun _ => .check fun _ =>
    .after (.idle_mapM fun _ _ => spriteSetNumber_program) fun _ =>
      .after (.idle_mapM fun _ _ => spriteSetNumber_program) fun _ =>
        .after (define_program hdefs) fun _ => .pure .nil

theorem lowerReplace_program {blocks : List ReplaceBlock} : Spends effects (lowerReplace blocks pos) fun rs => rs := by
  refine .check fun _ => .yield (.mapM fun x _ => ?_) fun _ => rfl
  exact .check fun _ => .check fun _ => .yield realSprites_program fun _ => rfl

theorem lowerGraphics_program {g : Graphics} (hdefs : .definitions ∈ effects) :
    Spends effects (lowerGraphics g) fun rs => rs :=
  .check fun _ => .check fun _ => .after (.idle_forM fun _ _ => .failIf) fun _ => .check fun _ =>
    .after (.idle_mapM fun _ _ => .check fun _ => .after (addRef_program hdefs) fun _ => .pure rfl) fun _ =>
      .after (addRef_program hdefs) fun _ => .pure .nil

theorem lowerDeactivate_program {ids : List String} : Spends effects (lowerDeactivate ids pos) fun rs => rs := by
  refine .after (.idle_mapM fun _ _ => .lift _) fun ids => ?_
  unfold deactivation
  split
  · exact .bind (P := fun _ _ => False) (.throw _) fun _ _ => .pure False.elim
  · exact .pure .nil

/-! ## Decision tables -/

theorem checkVar_program {v : VarRead Expr} : Idle effects (checkVar v pos) := by
  refine .check fun _ => .check fun _ => .idle_forM fun field _ => ?_
  unfold checkVarField
  split
  case h_3 => exact .failIf
  case h_4 | h_5 => exact .fail
  all_goals exact .pure rfl

theorem lowerOperands_computed {node slot : Nat} {num shift width : Int} {arg : Expr} {mask add div mod : Option Expr}
    (himm : arg.isImmediate = false) :
    lowerOperands node feature width pos (.var ⟨num, some arg, shift, mask, add, div, mod⟩) slot = (do
      checkVar ⟨num, some arg, shift, mask, add, div, mod⟩ pos
      failIf (num < 0x60 || 0x7F < num) .typeMismatch pos
        ("variable 0x" ++ Text.hex 2 num ++ " does not take a parameter")
      let (stream, records) ← lowerOperands node feature width pos arg slot
      return (stream ++ .ofOp .val2 ++ .ofOperand (.var (Table.indirect
        ⟨num, some arg, shift, mask, add, div, mod⟩)) width, records)) := by
  cases arg with
  | const => cases himm
  | param number => cases number <;> first | rfl | cases himm
  | _ => rfl

theorem lowerOperands_program {node slot : Nat} {width : Int} {e : Expr} (hdefs : .definitions ∈ effects) :
    Spends effects (lowerOperands node feature width pos e slot) Prod.snd := by
  induction e using Expr.byParts generalizing slot with
  | const | store | load => exact .pure .nil
  | param number => exact .yield operandParam_program fun _ => rfl
  | string name id => exact .yield resolveString_program fun _ => rfl
  | record name id => exact .after (addRef_program hdefs) fun _ => .pure .nil
  | not operand => exact .fail
  | bare num shift mask add div mod => exact .after checkVar_program fun _ => .pure .nil
  | var num arg shift mask add div mod ih =>
    cases himm : arg.isImmediate with
    | true =>
      unfold Expr.isImmediate at himm
      split at himm
      · exact .after checkVar_program fun _ => .check fun _ => .pure .nil
      · exact .after checkVar_program fun _ => .check fun _ => .pure .nil
      · cases himm
    | false =>
      rw [lowerOperands_computed himm]
      exact .after checkVar_program fun _ => .check fun _ => .yield ih fun _ => rfl
  | binary op left right ihl ihr =>
    simp only [lowerOperands]
    split
    on_goal 1 => refine .after .fail fun _ => ?_
    all_goals
      refine ihr.bind fun ts x => ?_
      split
      all_goals
        refine ihl.bind fun ts' y => .pure fun hy hx => ?_
        rw [targets_append, append_nil]
        exact hx.append hy

theorem lowerTableHead_program (hdefs : .definitions ∈ effects) : Spends effects (lowerTableHead s) TableHead.before :=
  .check fun _ => .check fun _ => .after (define_program hdefs) fun _ => .after log_program fun _ =>
    .yield (.check fun _ => lowerOperands_program hdefs) fun _ => rfl

theorem targets_tableRecords {head : TableHead} {results : List Record}
    {ranges : List TableRange} {default : TableResult} :
    targets (tableRecords s head results ranges default) = targets results ++ targets head.before := by
  unfold tableRecords
  rw [targets_append, targets_withPatches, targets_append]
  exact append_nil _

theorem lowerResult_program {node : Nat} {result : Option Expr} (hdefs : .definitions ∈ effects) :
    Spends effects (lowerResult s node result pos) Prod.snd := by
  have computed : ∀ r : Expr, Spends effects (computedResult s node pos r) Prod.snd := by
    intro r
    have hcomputed : ∀ s' : Switch, Spends effects (lowerComputed s') fun rs => rs :=
      fun s' => .yield (lowerTableHead_program hdefs) fun _ => targets_tableRecords
    refine .after generateName_program fun name => (hcomputed _).bind fun ts rs => ?_
    refine .after (addRef_program hdefs) fun _ => .pure fun hrs => ?_
    rwa [append_nil]
  unfold lowerResult
  split
  · exact .fail
  · exact .check fun _ => .pure .nil
  · exact .after (addRef_program hdefs) fun _ => .pure .nil
  · exact computed _
  · exact computed _
  · exact computed _
  · exact computed _
  · exact .fail

theorem lowerSwitch_program (hdefs : .definitions ∈ effects) : Spends effects (lowerSwitch s) fun rs => rs := by
  have range : ∀ node r pos, Spends effects (lowerRange s node r pos) Prod.snd := fun node r pos =>
    .check fun _ => .check fun _ => .check fun _ => .yield (lowerResult_program hdefs) fun _ => rfl
  refine (lowerTableHead_program hdefs).bind fun ts head => (Program.mapM fun x _ => range _ _ _).bind fun ts' ranges => ?_
  refine (lowerResult_program hdefs).bind fun ts'' x => .pure fun hx hranges hhead => ?_
  rw [targets_tableRecords, targets_append, append_nil]
  -- the table is computed first and written last
  exact perm_append_comm.trans (hhead.append (hranges.append hx))

/-! ## Conditionals and loops -/

theorem lowerSkipRun_program {run : SkipRun} (h : .labels ∈ effects) : Idle effects (lowerSkipRun run test pos) := by
  unfold lowerSkipRun
  split
  · exact .pure rfl
  · extract_lets length skip
    have hskip : ∀ action, Idle effects (skip action) := by
      intro action
      refine .look fun c => ?_
      split
      · exact .pure rfl
      · exact .after (.popShortLabel pos h) fun _ => .pure rfl
    split
    · exact .after (.pure rfl) hskip
    · split
      · exact .after (.pure rfl) hskip
      · exact .after (.throw _) hskip

theorem skipRuns_program {records : List Record} (h : .labels ∈ effects) : Idle effects (skipRuns records test pos) :=
  .after (.idle_mapM fun _ _ => lowerSkipRun_program h) fun _ => .pure rfl

theorem lowerBranch_program {first : List Record} {P : List Int → List Record → Prop} (h : .labels ∈ effects)
    (hbody : Program effects b.branch.body P) : Program effects (lowerBranch b first) fun _ _ => True := by
  unfold lowerBranch
  split
  · exact lowerCondition_program.andThen fun _ => hbody.andThen fun _ =>
      (skipRuns_program h).andThen fun _ => .pure trivial
  · exact hbody.andThen fun _ => .pure trivial

theorem lowerOthers_program {untaken : Int} {bs : List KeptBranch} (h : .labels ∈ effects)
    (hbodies : ∀ b ∈ bs, Program effects b.branch.body fun _ _ => True) :
    Program effects (lowerOthers untaken bs) fun _ _ => True := by
  induction bs with
  | nil => exact .pure trivial
  | cons b bs ih =>
    refine (lowerBranch_program h (hbodies b (by simp))).andThen fun _ => (skipRuns_program h).andThen fun _ => ?_
    exact (ih fun x hx => hbodies x (by simp [hx])).andThen fun _ => .pure trivial

theorem mem_keptBranches (h : b ∈ keptBranches branches) : b.branch ∈ branches := by
  induction branches with
  | nil => cases h
  | cons first rest ih =>
    unfold keptBranches at h
    split at h
    · simp only [mem_singleton] at h
      simp [h]
    · split at h
      · simp only [mem_singleton] at h
        simp [h]
      · exact mem_cons_of_mem _ (ih h)
      · rcases mem_cons.mp h with rfl | h
        · exact mem_cons_self
        · exact mem_cons_of_mem _ (ih h)

theorem lowerIf_program (hframes : .frames ∈ effects)
    (h : ∀ b ∈ branches, Program (insert .labels effects) b.body fun _ _ => True) :
    Idle effects (lowerIf branches pos) := by
  have hlabels : .labels ∈ insert Effect.labels effects := Set.mem_insert _ _
  have hkept : ∀ b ∈ keptBranches branches, Program (insert .labels effects) b.branch.body fun _ _ => True :=
    fun b hb => h b.branch (mem_keptBranches hb)
  refine .conditional (P := fun _ _ => True) ?_ hframes
  split
  · exact .pure trivial
  · rename_i b heq
    exact lowerBranch_program hlabels (hkept b (by simp [heq]))
  · rename_i b rest _ heq
    refine (Program.popTemp pos).andThen fun _ => ?_
    refine (lowerBranch_program hlabels (hkept b (by simp [heq]))).andThen fun _ => ?_
    exact (lowerOthers_program hlabels fun x hx => hkept x (by simp [heq, hx])).andThen fun _ => .pure trivial

theorem lowerWhile_program (hframes : .frames ∈ effects) {P : List Int → List Record → Prop}
    (h : Program (insert .labels effects) body P) : Idle effects (lowerWhile cond body pos) := by
  have hlabels : .labels ∈ insert Effect.labels effects := Set.mem_insert _ _
  refine .conditional (P := fun _ _ => True) ?_ hframes
  split
  · exact .pure trivial
  · exact (Program.popLongLabel pos hlabels).andThen fun _ => h.andThen fun _ => .pure trivial
  · exact (Program.popLongLabel pos hlabels).andThen fun _ => lowerCondition_program.andThen fun _ =>
      h.andThen fun _ => (skipRuns_program hlabels).andThen fun _ => .pure trivial

/-! ## Declarations -/

theorem framed_program {d : Declaration} {P : List Int → List Record → Prop} (h : Program effects body P) :
    ∃ m, framed d body = withTemps m ∧ Program effects m P :=
  ⟨_, rfl, .after log_program fun _ => h⟩

/-- A declaration that holds no others takes the temporary parameters that it assigns to, unless one of
them is the target that it names. -/
theorem lower_program_of_simple {d : Declaration} (hsimple : d.IsSimple)
    (hsets : (∃ feature sets pos, d = .spriteSets feature sets pos) → .spriteSets ∈ effects)
    (hdefs : d.HasNames → .definitions ∈ effects) : ∃ m, d.lower = withTemps m ∧ Program effects m fun ts rs =>
      d.Spares IsTemporary → (∀ t ∈ ts, IsTemporary t) → (temporaries rs).Perm ts := by
  have always : ∀ {body : Lowering (List Record)}, (Spends effects body fun rs => rs) →
      ∃ m, framed d body = withTemps m ∧ Program effects m fun ts rs =>
        d.Spares IsTemporary → (∀ t ∈ ts, IsTemporary t) → (temporaries rs).Perm ts :=
    fun hbody => framed_program (hbody.mono fun ts _ hperm _ hts =>
      temporaries_perm ((append_nil ts).symm ▸ hperm) hts (by simp))
  cases d with
  | properties => exact always lowerProperties_program
  | spriteSets feature sets pos => exact always (lowerSpriteSets_program (hsets ⟨_, _, _, rfl⟩))
  | spriteGroup => exact always (lowerSpriteGroup_program (hdefs trivial))
  | switch => exact always (lowerSwitch_program (hdefs trivial))
  | graphics => exact always (lowerGraphics_program (hdefs trivial))
  | message => exact always lowerMessage_program
  | assign =>
    refine framed_program (lowerAssignment_program.mono ?_)
    rintro ts rs ⟨n, hperm, hn⟩ hspares hts
    exact temporaries_perm hperm hts (by simpa using hn hspares)
  | conditional => exact hsimple.elim
  | loop => exact hsimple.elim
  | deactivate => exact always lowerDeactivate_program
  | replace => exact always lowerReplace_program

mutual

/-- **Every declaration is lowered by a program in a frame of its own.** Labels are taken inside of
conditionals only. -/
theorem lower_program {effects : Set Effect} (d : Declaration) (h : {.spriteSets, .definitions, .frames} ⊆ effects) :
    ∃ m, d.lower = withTemps m ∧ Program effects m fun _ _ => True := by
  have simple : d.IsSimple → ∃ m, d.lower = withTemps m ∧ Program effects m fun _ _ => True := by
    intro hd
    obtain ⟨m, heq, hm⟩ := lower_program_of_simple hd (fun _ => h (by simp)) fun _ => h (by simp)
    exact ⟨m, heq, hm.plain⟩
  cases d with
  | conditional branches pos =>
    exact framed_program (lowerIf_program (h (by simp))
      (lowerBranches_program branches (h.trans (Set.subset_insert _ _)))).plain
  | loop cond body pos =>
    exact framed_program (lowerWhile_program (h (by simp))
      (lowerAll_program body (h.trans (Set.subset_insert _ _)))).plain
  | _ => exact simple trivial

theorem lowerAll_program {effects : Set Effect} (ds : List Declaration)
    (h : {.spriteSets, .definitions, .frames} ⊆ effects) : Program effects (lowerAll ds) fun _ _ => True := by
  cases ds with
  | nil => exact .pure trivial
  | cons d ds =>
    obtain ⟨m, heq, hm⟩ := lower_program d h
    rw [lowerAll, heq]
    exact (hm.withTemps (h (by simp))).andThen fun _ => (lowerAll_program ds h).andThen fun _ => .pure trivial

theorem lowerBranches_program {effects : Set Effect} (branches : List (IfBranch Declaration))
    (h : {.spriteSets, .definitions, .frames} ⊆ effects) :
    ∀ b ∈ lowerBranches branches, Program effects b.body fun _ _ => True := by
  cases branches with
  | nil => simp [lowerBranches]
  | cons b rest =>
    obtain ⟨cond, body, pos⟩ := b
    simp only [lowerBranches, forall_mem_cons]
    exact ⟨lowerAll_program body h, lowerBranches_program rest h⟩

end

end Lowering

end Grf
