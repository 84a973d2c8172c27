import Mathlib.Data.List.Nodup
import Mathlib.Order.Bounds.Basic
import Grf.Pool

/-! # Runs of a pool

A run uses a pool again and again, in any order. An error leaves the pool as it was, a fault ends the run. `Pool.trace`
lists what has happened, with the pool after each use. The ids that were popped globally and are still out are found in
the trace (`outstanding`). Together with the free ids and the ids of the frames they are all the ids of the pool, each
of them once: this is `Balanced`, and every use keeps it (`Balanced.apply`).
-/

namespace Grf.Pool

open List

/-- A way to use a pool. -/
inductive Use
  | save
  | restore
  | pop (pos : Position)
  | popUnique (pos : Position)
  | popGlobal (pos : Position)
  | release (id : Int)
deriving DecidableEq, Repr

def Use.pos? : Use → Option Position
  | pop pos | popUnique pos | popGlobal pos => some pos
  | save | restore | release _ => none

def Use.apply (p : Pool) : Use → Except Failure (Option Int × Pool)
  | save => .ok (none, p.save)
  | restore => do return (none, ← orFault p.restore)
  | pop pos => do
    let (id, p) ← p.pop pos
    return (some id, p)
  | popUnique pos => do
    let (id, p) ← p.popUnique pos
    return (some id, p)
  | popGlobal pos => do
    let (id, p) ← p.popGlobal pos
    return (some id, p)
  | release id => do return (none, ← orFault (p.release id))

/-- A use in a run: how the pool has answered, and the pool afterwards. -/
structure Event where
  use : Use
  /-- The id that has been handed out, or the error that has been reported. -/
  answer : Except Error (Option Int)
  pool : Pool

def trace (p : Pool) : List Use → List Event
  | [] => []
  | use :: uses =>
    match use.apply p with
    | .ok (id?, p') => ⟨use, .ok id?, p'⟩ :: trace p' uses
    | .error (.error e) => ⟨use, .error e, p⟩ :: trace p uses
    | .error (.fault _) => []

def endOf (p : Pool) : List Event → Pool
  | [] => p
  | e :: events => endOf e.pool events

def Event.globals (ids : List Int) (e : Event) : List Int :=
  match e.use, e.answer with
  | .popGlobal _, .ok (some id) => id :: ids
  | .release id, .ok _ => ids.erase id
  | _, _ => ids

def outstanding (events : List Event) : List Int := events.foldl Event.globals []

/-- The number `n` of ids in use is reached first by an event that hands out an id at `pos`. -/
def FirstReached (events : List Event) (n : Nat) (pos : Position) : Prop :=
  ∃ before e after id, events = before ++ e :: after ∧ e.use.pos? = some pos ∧ e.answer = .ok (some id) ∧
    e.pool.used = n ∧ ∀ e' ∈ before, e'.pool.used < n

theorem outstanding_concat (events : List Event) (e : Event) :
    outstanding (events ++ [e]) = e.globals (outstanding events) := by
  rw [outstanding, foldl_append]
  rfl

theorem nodup_idsFrom (first : Int) (count : Nat) : (idsFrom first count).Nodup := by
  refine Nodup.map (fun i j hij => ?_) nodup_range
  omega

variable {id : Int} {id? : Option Int} {events : List Event}

theorem mem_idsFrom {first : Int} {count : Nat} : id ∈ idsFrom first count ↔ first ≤ id ∧ id < first + count := by
  unfold idsFrom
  rw [mem_map]
  constructor
  · rintro ⟨i, hi, rfl⟩
    have hlt := mem_range.mp hi
    omega
  · rintro ⟨hfirst, hlast⟩
    exact ⟨(id - first).toNat, mem_range.mpr (by omega), by omega⟩

/-! ## Handing out -/

def taken (p : Pool) (id : Int) (pos : Position) : Pool :=
  { p with
    inUse := id :: p.inUse
    issued := if p.issued.contains id then p.issued else id :: p.issued
    peak := max p.peak p.used
    peakPos := if p.peak < p.used then pos else p.peakPos }

theorem take_eq_taken {p : Pool} (h : id ∉ p.inUse) (pos : Position) : p.take id pos = .ok (p.taken id pos) := by
  have hcontains : ¬p.inUse.contains id = true := by simpa using h
  unfold take
  rw [if_neg hcontains]
  by_cases hlt : p.peak < p.used
  · refine (if_pos hlt).trans ?_
    rw [taken, max_eq_right hlt.le, if_pos hlt]
    rfl
  · refine (if_neg hlt).trans ?_
    rw [taken, max_eq_left (not_lt.mp hlt), if_neg hlt]

theorem take_eq_ok {p q : Pool} {pos : Position} : p.take id pos = .ok q ↔ id ∉ p.inUse ∧ q = p.taken id pos := by
  by_cases hid : id ∈ p.inUse
  · simp [take, hid]
  · simp [take_eq_taken hid pos, hid, eq_comm]

theorem mem_issued_taken {p : Pool} {n : Int} (pos : Position) :
    n ∈ (p.taken id pos).issued ↔ n = id ∨ n ∈ p.issued := by
  by_cases hid : id ∈ p.issued
  · simpa [taken, hid] using fun h => h ▸ hid
  · simp [taken, hid]

theorem record_eq (p : Pool) (id : Int) : p.record id = { p with frames := p.frames.modifyHead (· ++ [id]) } := by
  obtain ⟨name, total, free, frames, issued, inUse, peak, peakPos⟩ := p
  cases frames <;> rfl

/-- The pool after a free id has been handed out. It belongs to no frame yet. -/
def handOut (p : Pool) (id : Int) (pos : Position) : Pool := { p with free := p.free.erase id }.taken id pos

/-- What a use that succeeds does to a pool. -/
inductive Moves (p : Pool) : Use → Option Int → Pool → Prop
  | save : Moves p .save none p.save
  | restore {frame : List Int} {frames : List (List Int)} (hframes : p.frames = frame :: frames) : Moves p .restore none
        { p with frames, free := frame ++ p.free, inUse := p.inUse.filter fun id => !frame.contains id }
  | pop {id : Int} {pos : Position} (hframes : p.frames ≠ []) (hid : id ∈ p.free) :
      Moves p (.pop pos) (some id) ((p.handOut id pos).record id)
  | popUnique {id : Int} {pos : Position} (hframes : p.frames ≠ []) (hid : id ∈ p.free) :
      Moves p (.popUnique pos) (some id) ((p.handOut id pos).record id)
  | popGlobal {id : Int} {pos : Position} (hid : id ∈ p.free) : Moves p (.popGlobal pos) (some id) (p.handOut id pos)
  | release {id : Int} (hid : id ∈ p.inUse) (hframes : id ∉ p.frames.flatten) :
      Moves p (.release id) none { p with inUse := p.inUse.filter (· != id), free := id :: p.free }

/-- Ways in which a use of `p` can end, if its free ids are not in use: a fault that is not about an id that is
handed out twice, an error, or a move. -/
inductive Ends (p : Pool) (use : Use) : Prop
  | fault {f : Fault} (h : use.apply p = .error (.fault f)) (hf : ∀ name id, f ≠ .handedOutTwice name id)
  | error {e : Error} (h : use.apply p = .error (.error e))
  | ok {id? : Option Int} {p' : Pool} (h : use.apply p = .ok (id?, p')) (hmoves : p.Moves use id? p')

section
variable {p p' : Pool} {pos : Position} {id : Int} {id? : Option Int}

theorem checkFrame_of_nil (hframes : p.frames = []) :
    p.checkFrame = .error (.fault (.popWithoutCheckpoint p.name)) := if_pos (by simp [hframes])

theorem checkFrame_of_ne_nil (hframes : p.frames ≠ []) : p.checkFrame = .ok () := if_neg (by simpa using hframes)

theorem popGlobal_of_nil (hfree : p.free = []) (pos : Position) : p.popGlobal pos = .error (p.exhausted pos) := by
  rw [popGlobal, hfree]

theorem popGlobal_of_cons {free : List Int} (hfree : p.free = id :: free) (hid : id ∉ p.inUse) (pos : Position) :
    p.popGlobal pos = .ok (id, p.handOut id pos) := by
  have herase : free = p.free.erase id := by rw [hfree, erase_cons_head]
  have htake : take { p with free } id pos = .ok (p.handOut id pos) := by
    rw [herase]
    exact take_eq_taken (p := { p with free := p.free.erase id }) hid pos
  unfold popGlobal
  rw [hfree]
  show (orFault (take { p with free } id pos) >>= fun q => pure (id, q)) = _
  rw [htake]
  rfl

/-- In a frame, a pop is a global one that is recorded. -/
theorem apply_pop (hframes : p.frames ≠ []) (pos : Position) :
    (Use.pop pos).apply p = (p.popGlobal pos).map fun result => (some result.1, result.2.record result.1) := by
  rw [Use.apply, Pool.pop, checkFrame_of_ne_nil hframes]
  cases p.popGlobal pos <;> rfl

theorem popUnique_of_none (hframes : p.frames ≠ []) (hfind : (p.free.find? fun id => !p.issued.contains id) = none)
    (pos : Position) : p.popUnique pos = .error (.compile .noUniqueResource pos
      ("all " ++ toString p.total ++ " " ++ p.name ++ " have already been used once")) := by
  rw [Pool.popUnique, checkFrame_of_ne_nil hframes, hfind]
  rfl

theorem popUnique_of_find? (hframes : p.frames ≠ []) (hfind : (p.free.find? fun id => !p.issued.contains id) = some id)
    (hid : id ∉ p.inUse) (pos : Position) : p.popUnique pos = .ok (id, (p.handOut id pos).record id) := by
  have htake : take { p with free := p.free.erase id } id pos = .ok (p.handOut id pos) :=
    take_eq_taken (p := { p with free := p.free.erase id }) hid pos
  unfold popUnique
  rw [checkFrame_of_ne_nil hframes, hfind]
  show (orFault (take { p with free := p.free.erase id } id pos) >>= fun q => pure (id, q.record id)) = _
  rw [htake]
  rfl

theorem ends_restore : p.Ends .restore := by
  cases hframes : p.frames with
  | nil =>
    refine .fault (f := .restoreWithoutSave p.name) ?_ (by simp)
    rw [Use.apply, restore, hframes]
    rfl
  | cons frame frames =>
    have hmoves := Moves.restore hframes
    refine .ok ?_ hmoves
    rw [Use.apply, restore, hframes]
    rfl

section
variable (hfresh : ∀ id ∈ p.free, id ∉ p.inUse)
include hfresh

theorem ends_popGlobal (pos : Position) : p.Ends (.popGlobal pos) := by
  cases hfree : p.free with
  | nil =>
    have happly : (Use.popGlobal pos).apply p = .error (p.exhausted pos) := by
      rw [Use.apply, popGlobal_of_nil hfree]
      rfl
    exact .error happly
  | cons id free =>
    have hid : id ∈ p.free := by simp [hfree]
    refine .ok ?_ (.popGlobal hid)
    rw [Use.apply, popGlobal_of_cons hfree (hfresh id hid)]
    rfl

theorem ends_pop (pos : Position) : p.Ends (.pop pos) := by
  by_cases hframes : p.frames = []
  · refine .fault (f := .popWithoutCheckpoint p.name) ?_ (by simp)
    rw [Use.apply, Pool.pop, checkFrame_of_nil hframes]
    rfl
  · cases hfree : p.free with
    | nil =>
      have happly : (Use.pop pos).apply p = .error (p.exhausted pos) := by
        rw [apply_pop hframes, popGlobal_of_nil hfree]
        rfl
      exact .error happly
    | cons id free =>
      have hid : id ∈ p.free := by simp [hfree]
      refine .ok ?_ (.pop hframes hid)
      rw [apply_pop hframes, popGlobal_of_cons hfree (hfresh id hid)]
      rfl

theorem ends_popUnique (pos : Position) : p.Ends (.popUnique pos) := by
  by_cases hframes : p.frames = []
  · refine .fault (f := .popWithoutCheckpoint p.name) ?_ (by simp)
    rw [Use.apply, Pool.popUnique, checkFrame_of_nil hframes]
    rfl
  · cases hfind : p.free.find? fun id => !p.issued.contains id with
    | none =>
      have happly : (Use.popUnique pos).apply p = .error (.compile .noUniqueResource pos
          ("all " ++ toString p.total ++ " " ++ p.name ++ " have already been used once")) := by
        rw [Use.apply, popUnique_of_none hframes hfind]
        rfl
      exact .error happly
    | some id =>
      have hid := mem_of_find?_eq_some hfind
      refine .ok ?_ (.popUnique hframes hid)
      rw [Use.apply, popUnique_of_find? hframes hfind (hfresh id hid)]
      rfl

end

theorem ends_release (id : Int) : p.Ends (.release id) := by
  by_cases hid : id ∈ p.inUse
  · by_cases hframe : id ∈ p.frames.flatten
    · refine .fault (f := .releaseInFrame p.name id) ?_ (by simp)
      rw [Use.apply, release, if_neg (by simpa using hid), if_pos (by simpa using hframe)]
      rfl
    · refine .ok ?_ (.release hid hframe)
      rw [Use.apply, release, if_neg (by simpa using hid), if_neg (by simpa using hframe)]
      rfl
  · refine .fault (f := .releaseNotInUse p.name id) ?_ (by simp)
    rw [Use.apply, release, if_pos (by simpa using hid)]
    rfl

/-- **What a use can do.** A free id is never in use, so it is never handed out twice. -/
theorem ends (hfresh : ∀ id ∈ p.free, id ∉ p.inUse) (use : Use) : p.Ends use := by
  cases use with
  | save => exact .ok rfl .save
  | restore => exact ends_restore
  | pop pos => exact ends_pop hfresh pos
  | popUnique pos => exact ends_popUnique hfresh pos
  | popGlobal pos => exact ends_popGlobal hfresh pos
  | release id => exact ends_release id

end

/-! ## Balanced pools -/

/-- The ids of a pool are the `count` ids from `first` on. Each of them is free, in a frame or one of `globals`, and
the marks of the ids in use are right. -/
structure Balanced (first : Int) (count : Nat) (globals : List Int) (p : Pool) : Prop where
  total : p.total = count
  perm : (p.free ++ (p.frames.flatten ++ globals)).Perm (idsFrom first count)
  inUse : ∀ id, id ∈ p.inUse ↔ id ∈ p.frames.flatten ++ globals

namespace Balanced

variable {first : Int} {count : Nat} {globals : List Int} {p p' : Pool} {id : Int} {pos : Position}

section
variable (h : p.Balanced first count globals)
include h

theorem nodup : (p.free ++ (p.frames.flatten ++ globals)).Nodup := h.perm.nodup_iff.mpr (nodup_idsFrom first count)

theorem nodup_globals : globals.Nodup := (nodup_append.mp (nodup_append.mp h.nodup).2.1).2.1

theorem fresh : ∀ id ∈ p.free, id ∉ p.inUse := by
  intro id hfree hid
  exact (nodup_append.mp h.nodup).2.2 id hfree id ((h.inUse id).mp hid) rfl

theorem length : p.free.length + (p.frames.flatten ++ globals).length = p.total := by
  grind [h.perm.length_eq, h.total, idsFrom]

theorem used_eq : p.used = (p.frames.flatten ++ globals).length := by
  have hlength := h.length
  unfold used
  omega

theorem save : p.save.Balanced first count globals where
  total := h.total
  perm := h.perm
  inUse := h.inUse

theorem restore {frame : List Int} {frames : List (List Int)} (hframes : p.frames = frame :: frames) :
    Balanced first count globals
      { p with frames, free := frame ++ p.free, inUse := p.inUse.filter fun id => !frame.contains id } := by
  have hperm := h.perm
  have hnodup := (nodup_append.mp h.nodup).2.1
  have hinUse := h.inUse
  rw [hframes, flatten_cons, append_assoc] at hperm hnodup hinUse
  refine ⟨h.total, ?_, fun id => ?_⟩
  · calc ((frame ++ p.free) ++ (frames.flatten ++ globals)).Perm ((p.free ++ frame) ++ (frames.flatten ++ globals)) :=
        perm_append_comm.append_right _
      _ = p.free ++ (frame ++ (frames.flatten ++ globals)) := append_assoc _ _ _
      Perm _ (idsFrom first count) := hperm
  · have hdisjoint : id ∈ frames.flatten ++ globals → id ∉ frame := fun hid hframe =>
      (nodup_append.mp hnodup).2.2 id hframe id hid rfl
    grind

theorem handOut (hid : id ∈ p.free) : (p.handOut id pos).Balanced first count (id :: globals) where
  total := h.total
  perm := by
    calc (p.free.erase id ++ (p.frames.flatten ++ id :: globals)).Perm
          (p.free.erase id ++ id :: (p.frames.flatten ++ globals)) := perm_middle.append_left _
      Perm _ (id :: (p.free.erase id ++ (p.frames.flatten ++ globals))) := perm_middle
      Perm _ (p.free ++ (p.frames.flatten ++ globals)) := (perm_cons_erase hid).symm.append_right _
      Perm _ (idsFrom first count) := h.perm
  inUse i := by
    show i ∈ id :: p.inUse ↔ i ∈ p.frames.flatten ++ id :: globals
    simp only [mem_cons, h.inUse i, mem_append]
    tauto

end

theorem record (h : p.Balanced first count (id :: globals)) (hframes : p.frames ≠ []) :
    (p.record id).Balanced first count globals := by
  cases hp : p.frames with
  | nil => exact absurd hp hframes
  | cons frame frames =>
    have hmoved : ((frame ++ [id]) ++ frames.flatten ++ globals).Perm (p.frames.flatten ++ id :: globals) := by
      grind
    have hrecord : p.record id = { p with frames := (frame ++ [id]) :: frames } := by rw [Pool.record, hp]
    rw [hrecord]
    exact ⟨h.total, (hmoved.append_left _).trans h.perm, fun i => (h.inUse i).trans hmoved.mem_iff.symm⟩

theorem release (h : p.Balanced first count globals) (hid : id ∈ p.inUse) (hframes : id ∉ p.frames.flatten) :
    Balanced first count (globals.erase id) { p with inUse := p.inUse.filter (· != id), free := id :: p.free } := by
  have hglobal : id ∈ globals := by
    grind [h.inUse]
  refine ⟨h.total, ?_, fun i => ?_⟩
  · calc (id :: p.free ++ (p.frames.flatten ++ globals.erase id)).Perm
          (p.free ++ id :: (p.frames.flatten ++ globals.erase id)) := perm_middle.symm
      Perm _ (p.free ++ (p.frames.flatten ++ id :: globals.erase id)) := perm_middle.symm.append_left _
      Perm _ (p.free ++ (p.frames.flatten ++ globals)) := ((perm_cons_erase hglobal).symm.append_left _).append_left _
      Perm _ (idsFrom first count) := h.perm
  · simp only [mem_filter, bne_iff_ne, h.inUse i, mem_append, h.nodup_globals.mem_erase_iff]
    grind

/-- **Every use keeps a pool balanced.** -/
theorem apply {use : Use} (h : p.Balanced first count globals) (hmoves : p.Moves use id? p') :
    p'.Balanced first count (Event.globals globals ⟨use, .ok id?, p'⟩) := by
  cases hmoves with
  | save => exact h.save
  | restore hframes => exact h.restore hframes
  | pop hframes hid => exact (h.handOut hid).record hframes
  | popUnique hframes hid => exact (h.handOut hid).record hframes
  | popGlobal hid => exact h.handOut hid
  | release hid hframes => exact h.release hid hframes

end Balanced

/-! ## Peaks -/

theorem FirstReached.concat {n : Nat} {pos : Position} (h : FirstReached events n pos)
    (e : Event) : FirstReached (events ++ [e]) n pos := by
  obtain ⟨before, e', after, id, rfl, hfirst⟩ := h
  exact ⟨before, e', after ++ [e], id, by rw [append_assoc, cons_append], hfirst⟩

/-- The peak of a pool is the largest number of ids in use so far, at the position where it was reached first. -/
structure Peaked (events : List Event) (p : Pool) : Prop where
  current : p.used ≤ p.peak
  le : ∀ e ∈ events, e.pool.used ≤ p.peak
  reached : p.peak = 0 ∧ p.peakPos = {} ∨ FirstReached events p.peak p.peakPos

namespace Peaked

variable {events : List Event} {p p' : Pool} {use : Use} {answer : Except Error (Option Int)} {id : Int}
  {pos : Position}

theorem keep (h : Peaked events p) (hpeak : p'.peak = p.peak) (hpos : p'.peakPos = p.peakPos)
    (hused : p'.used ≤ p.used) : Peaked (events ++ [⟨use, answer, p'⟩]) p' where
  current := hpeak ▸ hused.trans h.current
  le := by
    intro e he
    rw [hpeak]
    rcases mem_append.mp he with he | he
    · exact h.le e he
    · rw [mem_singleton.mp he]
      exact hused.trans h.current
  reached := by
    rw [hpeak, hpos]
    exact h.reached.imp_right (·.concat _)

theorem raise (h : Peaked events p) (hpos : use.pos? = some pos) (hpeak : p'.peak = max p.peak p'.used)
    (hpeakPos : p'.peakPos = if p.peak < p'.used then pos else p.peakPos) :
    Peaked (events ++ [⟨use, .ok (some id), p'⟩]) p' where
  current := by
    rw [hpeak]
    exact le_max_right _ _
  le := by
    intro e he
    rw [hpeak]
    rcases mem_append.mp he with he | he
    · exact (h.le e he).trans (le_max_left _ _)
    grind
  reached := by
    by_cases hlt : p.peak < p'.used
    · -- a new peak is above all numbers before
      rw [hpeak, hpeakPos, if_pos hlt, max_eq_right hlt.le]
      exact .inr ⟨events, _, [], id, rfl, hpos, rfl, rfl, fun e he => (h.le e he).trans_lt hlt⟩
    · rw [hpeak, hpeakPos, if_neg hlt, max_eq_left (not_lt.mp hlt)]
      exact h.reached.imp_right (·.concat _)

theorem apply (h : Peaked events p) (hmoves : p.Moves use id? p') : Peaked (events ++ [⟨use, .ok id?, p'⟩]) p' := by
  cases hmoves with
  | save => exact h.keep rfl rfl le_rfl
  | @restore frame frames hframes =>
    refine h.keep rfl rfl ?_
    show p.total - (frame ++ p.free).length ≤ p.total - p.free.length
    rw [length_append]
    omega
  | pop hframes hid =>
    rw [record_eq]
    exact h.raise rfl rfl rfl
  | popUnique hframes hid =>
    rw [record_eq]
    exact h.raise rfl rfl rfl
  | popGlobal hid => exact h.raise rfl rfl rfl
  | @release id hid hframes =>
    refine h.keep rfl rfl ?_
    show p.total - (id :: p.free).length ≤ p.total - p.free.length
    rw [length_cons]
    omega

end Peaked

section
variable {p p' : Pool} {use : Use} {uses : List Use} {first last : Int} {count : Nat}

theorem trace_of_ok (h : use.apply p = .ok (id?, p')) :
    p.trace (use :: uses) = ⟨use, .ok id?, p'⟩ :: p'.trace uses := by
  rw [trace, h]

theorem trace_of_error {e : Error} (h : use.apply p = .error (.error e)) :
    p.trace (use :: uses) = ⟨use, .error e, p⟩ :: p.trace uses := by
  rw [trace, h]

theorem trace_of_fault {f : Fault} (h : use.apply p = .error (.fault f)) : p.trace (use :: uses) = [] := by
  rw [trace, h]

theorem globals_error (ids : List Int) (e : Error) : Event.globals ids ⟨use, .error e, p⟩ = ids := by
  cases use <;> rfl

/-- **What a use keeps, a run keeps.** -/
theorem trace_induct {I : List Event → Pool → Prop} (hbalanced : p.Balanced first count (outstanding events))
    (h : I events p) (herror : ∀ {events p use e}, I events p → I (events ++ [⟨use, .error e, p⟩]) p)
    (hmoves : ∀ {events p use id? q}, I events p → p.Moves use id? q → I (events ++ [⟨use, .ok id?, q⟩]) q)
    (uses : List Use) : (p.endOf (p.trace uses)).Balanced first count (outstanding (events ++ p.trace uses)) ∧
      I (events ++ p.trace uses) (p.endOf (p.trace uses)) := by
  induction uses generalizing p events with
  | nil =>
    rw [trace, append_nil]
    exact ⟨hbalanced, h⟩
  | cons use uses ih =>
    -- The event of this use joins those before it, and the run goes on from the pool after it.
    cases ends hbalanced.fresh use with
    | fault hfault =>
      rw [trace_of_fault hfault, append_nil]
      exact ⟨hbalanced, h⟩
    | @error e he =>
      have hglobals := outstanding_concat events ⟨use, .error e, p⟩
      rw [globals_error] at hglobals
      rw [trace_of_error he, append_cons]
      exact ih (hglobals ▸ hbalanced) (herror h)
    | @ok id? p' hok hm =>
      have hglobals := outstanding_concat events ⟨use, .ok id?, p'⟩
      rw [trace_of_ok hok, append_cons]
      exact ih (hglobals ▸ hbalanced.apply hm) (hmoves h hm)

theorem trace_keeps (hbalanced : p.Balanced first count (outstanding events)) (hpeaked : Peaked events p)
    (uses : List Use) :
    (p.endOf (p.trace uses)).Balanced first count (outstanding (events ++ p.trace uses)) ∧
      Peaked (events ++ p.trace uses) (p.endOf (p.trace uses)) :=
  trace_induct hbalanced hpeaked (fun h => h.keep rfl rfl le_rfl) (fun h hmoves => h.apply hmoves) uses

theorem pool_of_error {before after : List Event} {e : Event} {error : Error}
    (h : p.trace uses = before ++ e :: after) (herror : e.answer = .error error) : e.pool = p.endOf before := by
  induction uses generalizing p before with
  | nil => simp [trace] at h
  | cons use uses ih =>
    cases happly : use.apply p with
    | ok result =>
      rw [trace_of_ok happly] at h
      cases before with
      | nil =>
        cases h
        cases herror
      | cons e' before =>
        obtain ⟨rfl, hrest⟩ := List.cons.inj h
        have hpool := ih hrest
        exact hpool
    | error failure =>
      cases failure with
      | error e' =>
        rw [trace_of_error happly] at h
        cases before with
        | nil =>
          cases h
          rfl
        | cons e'' before =>
          obtain ⟨rfl, hrest⟩ := List.cons.inj h
          have hpool := ih hrest
          exact hpool
      | fault f =>
        rw [trace_of_fault happly] at h
        simp at h

theorem ofRange_balanced (name : String) (first last : Int) :
    (ofRange name first last).Balanced first (last - first + 1).toNat (outstanding []) where
  total := by
    show (idsFrom first _).length = _
    rw [idsFrom, length_map, length_range]
  perm := by
    show (idsFrom first _ ++ ([] ++ [])).Perm _
    rw [append_nil, append_nil]
  inUse := fun id => by
    show id ∈ [] ↔ id ∈ [] ++ []
    rw [append_nil]

theorem ofRange_peaked (name : String) (first last : Int) : Peaked [] (ofRange name first last) where
  current := by
    have h := (ofRange_balanced name first last).used_eq
    rw [h]
    exact Nat.zero_le _
  le := by simp
  reached := .inl ⟨rfl, rfl⟩

theorem ofRange?_eq {name : String} (h : ofRange? name first last = .ok p) : p = ofRange name first last := by
  grind [ofRange?]

/-- **The ids of a pool are partitioned.** At the end of every run the free ids, the ids of the frames and the ids
that are out globally are the ids from `first` to `last`, each of them once. The ids in use are those that are not
free, so no use can hand out an id twice, and they are counted right. An error leaves the pool as it was. The peak
is the largest number of ids that were ever in use, and it was reached first at its position. -/
theorem ofRange?_partition {name : String} (h : ofRange? name first last = .ok p) (uses : List Use) :
    let events := p.trace uses
    let q := p.endOf events
    let held := q.frames.flatten ++ outstanding events
    ((q.free ++ held).Nodup ∧ ∀ id, id ∈ q.free ++ held ↔ first ≤ id ∧ id ≤ last) ∧
    (∀ id, id ∈ q.inUse ↔ (first ≤ id ∧ id ≤ last) ∧ id ∉ q.free) ∧
    (∀ (use : Use) name id, use.apply q ≠ .error (.fault (.handedOutTwice name id))) ∧
    q.used = held.length ∧
    (∀ before e after error, events = before ++ e :: after → e.answer = .error error → e.pool = p.endOf before) ∧
    IsGreatest {n | n = p.used ∨ ∃ e ∈ events, n = e.pool.used} q.peak ∧
    (q.peak = 0 ∧ q.peakPos = {} ∨ FirstReached events q.peak q.peakPos) := by
  intro events q held
  have hle : first ≤ last ∧ p = ofRange name first last := by
    unfold ofRange? at h
    split at h
    · cases h
    · cases h
      exact ⟨by omega, rfl⟩
  obtain ⟨hle, rfl⟩ := hle
  obtain ⟨hbalanced, hpeaked⟩ := trace_keeps (ofRange_balanced name first last) (ofRange_peaked name first last) uses
  rw [List.nil_append] at hbalanced hpeaked
  have hmem : ∀ id, id ∈ q.free ++ held ↔ first ≤ id ∧ id ≤ last := by
    intro id
    rw [hbalanced.perm.mem_iff, mem_idsFrom]
    omega
  refine ⟨⟨hbalanced.nodup, hmem⟩, fun id => ?_, fun use name id happly => ?_, hbalanced.used_eq,
    fun before e after error hevents herror => pool_of_error hevents herror, ?_, hpeaked.reached⟩
  · have hfresh := hbalanced.fresh id
    have hinUse := hbalanced.inUse id
    have hid := hmem id
    rw [List.mem_append] at hid
    tauto
  · cases ends hbalanced.fresh use with
    | fault hfault htwice =>
      rw [happly] at hfault
      cases hfault
      exact htwice name id rfl
    | error herror =>
      rw [happly] at herror
      cases herror
    | ok hok =>
      rw [happly] at hok
      cases hok
  · refine ⟨?_, ?_⟩
    · rcases hpeaked.reached with ⟨hzero, -⟩ | ⟨before, e, after, id, hevents, -, -, hused, -⟩
      · -- nothing was ever in use
        refine .inl (Eq.symm ?_)
        rw [hzero, (ofRange_balanced name first last).used_eq]
        rfl
      · exact .inr ⟨e, by rw [show events = _ from hevents]; simp, hused.symm⟩
    · rintro n (rfl | ⟨e, he, rfl⟩)
      · rw [(ofRange_balanced name first last).used_eq]
        exact Nat.zero_le _
      · exact hpeaked.le e he

/-- Four ids are popped in a frame and globally until none is left. Two uses ask in vain, and the release of an id
that is free ends the run. -/
theorem ofRange?_partition_mixed :
    let p := ofRange "ids" 3 6
    let line (n : Int) : Position := { file := "a", line := n }
    let events := p.trace [.save, .pop (line 1), .popGlobal (line 2), .pop (line 3), .popUnique (line 4),
      .popGlobal (line 5), .restore, .release 4, .save, .popUnique (line 6), .popGlobal (line 7), .release 3, .save]
    let q := p.endOf events
    ofRange? "ids" 3 6 = .ok p ∧ events.length = 11 ∧ q.free = [3, 5, 6] ∧ q.frames = [[]] ∧
      outstanding events = [4] ∧ q.used = 1 ∧ q.peak = 4 ∧ q.peakPos = line 4 ∧ FirstReached events 4 (line 4) ∧
      ∀ id, id ∈ q.inUse ↔ (3 ≤ id ∧ id ≤ 6) ∧ id ∉ [3, 5, 6] := by
  intro p line events q
  have hcreated : ofRange? "ids" 3 6 = .ok p := rfl
  have hfree : q.free = [3, 5, 6] := by decide +kernel
  have hpeak : q.peak = 4 := by decide +kernel
  have hpos : q.peakPos = line 4 := by decide +kernel
  obtain ⟨-, hinUse, -, -, -, -, hreached⟩ := ofRange?_partition hcreated [.save, .pop (line 1), .popGlobal (line 2),
    .pop (line 3), .popUnique (line 4), .popGlobal (line 5), .restore, .release 4, .save, .popUnique (line 6),
    .popGlobal (line 7), .release 3, .save]
  refine ⟨hcreated, by decide +kernel, hfree, by decide +kernel, by decide +kernel, by decide +kernel, hpeak, hpos,
    ?_, fun id => ?_⟩
  · rcases hreached with ⟨hzero, -⟩ | hfirst
    · exact absurd (hpeak.symm.trans hzero) (by decide)
    · rw [← hpeak, ← hpos]
      exact hfirst
  · exact hinUse id

end

end Grf.Pool
