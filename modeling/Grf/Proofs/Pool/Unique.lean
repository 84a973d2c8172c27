import Grf.Proofs.Pool.Partition

/-! # Ids that are handed out once

`popUnique` hands out an id that no use of the run before has handed out, whatever has been given back since. The
marks of a pool are right about that (`Recorded`), so the answer is the first such id of the free stack, or an error
if there is none (`popUnique_fresh`).
-/

namespace Grf.Pool

open List

/-- The ids that the uses of a run have handed out. -/
def handedOut (events : List Event) : List Int := events.filterMap (·.answer.toOption.join)

/-- The ids marked as handed out are those of the run. -/
def Recorded (events : List Event) (p : Pool) : Prop := ∀ id, id ∈ p.issued ↔ id ∈ handedOut events

variable {p q : Pool} {events : List Event} {use : Use} {pos : Position} {id : Int} {id? : Option Int}

theorem Recorded.apply (h : Recorded events p) (hmoves : p.Moves use id? q) :
    Recorded (events ++ [⟨use, .ok id?, q⟩]) q := by
  have hissued : ∀ i, i ∈ q.issued ↔ i ∈ p.issued ∨ id? = some i := by
    cases hmoves with
    | save | restore | release => simp [save]
    | pop | popUnique | popGlobal => simp [record_eq, handOut, mem_issued_taken, or_comm, eq_comm]
  intro i
  rw [hissued i, h i, handedOut, handedOut, filterMap_append, mem_append]
  cases id? <;> simp [Except.toOption, eq_comm]

/-- **An id is handed out by `popUnique` only if it has never been before.** After every run, a use in an open
frame fails if and only if all free ids have been handed out by the run. Otherwise the answer is the one of the
others that is nearest to the top, and the order of the rest stays. -/
theorem popUnique_fresh {name : String} {first last : Int} (h : ofRange? name first last = .ok p) (uses : List Use)
    (pos : Position) :
    let events := p.trace uses
    let q := p.endOf events
    (q.frames = [] → q.popUnique pos = .error (.fault (.popWithoutCheckpoint q.name))) ∧
    (q.frames ≠ [] → ((∃ failure, q.popUnique pos = .error failure) ↔ ∀ id ∈ q.free, id ∈ handedOut events) ∧
      ∀ id q', q.popUnique pos = .ok (id, q') → id ∉ handedOut events ∧
        ∃ above below, q.free = above ++ id :: below ∧ q'.free = above ++ below ∧ ∀ i ∈ above, i ∈ handedOut events) := by
  intro events q
  obtain rfl := ofRange?_eq h
  obtain ⟨hbalanced, hrecorded⟩ := trace_induct (I := Recorded) (ofRange_balanced name first last)
    (by simp [Recorded, handedOut, ofRange]) (fun h => by simpa [Recorded, handedOut, Except.toOption] using h)
    (fun h hmoves => h.apply hmoves) uses
  refine ⟨fun hframes => by rw [popUnique, checkFrame_of_nil hframes]; rfl, fun hframes => ?_⟩
  have hissued : ∀ id, id ∈ q.issued ↔ id ∈ handedOut events := hrecorded
  simp only [← hissued]
  cases hfind : q.free.find? fun id => !q.issued.contains id with
  | none =>
    have hpop := popUnique_of_none hframes hfind pos
    rw [find?_eq_none] at hfind
    exact ⟨⟨fun _ id hid => by simpa using hfind id hid, fun _ => ⟨_, hpop⟩⟩, by simp [hpop]⟩
  | some id =>
    have hpop := popUnique_of_find? hframes hfind (hbalanced.fresh id (mem_of_find?_eq_some hfind)) pos
    obtain ⟨hid, above, below, hfree, habove⟩ := find?_eq_some_iff_append.mp hfind
    have hid : id ∉ q.issued := by simpa using hid
    have habove : ∀ i ∈ above, i ∈ q.issued := by simpa using habove
    refine ⟨⟨by simp [hpop], fun hall => absurd (hall id (by simp [hfree])) hid⟩, fun id' q' h => ?_⟩
    obtain ⟨rfl, rfl⟩ := Prod.mk.inj (Except.ok.inj (hpop.symm.trans h))
    refine ⟨hid, above, below, hfree, ?_, habove⟩
    rw [record_eq]
    show q.free.erase id = above ++ below
    rw [hfree, erase_append_right _ fun h => hid (habove id h), erase_cons_head]

/-- The first id has been given back, but is passed over. -/
theorem popUnique_fresh_restored :
    let p := ofRange "ids" 3 5
    let events := p.trace [.save, .pop {}, .restore, .save]
    let q := p.endOf events
    ofRange? "ids" 3 5 = .ok p ∧ handedOut events = [3] ∧ q.free = [3, 4, 5] ∧
      ∃ q', q.popUnique {} = .ok (4, q') ∧ q'.free = [3, 5] ∧ 4 ∉ handedOut events := by
  intro p events q
  have hcreated : ofRange? "ids" 3 5 = .ok p := rfl
  have hfree : q.free = [3, 4, 5] := by decide +kernel
  have hpop : ∃ q', q.popUnique {} = .ok (4, q') ∧ q'.free = [3, 5] := ⟨_, rfl, by decide +kernel⟩
  obtain ⟨q', hpop, hleft⟩ := hpop
  obtain ⟨hid, -⟩ := ((popUnique_fresh hcreated [.save, .pop {}, .restore, .save] {}).2 (by decide +kernel)).2 4 q' hpop
  exact ⟨hcreated, by decide +kernel, hfree, q', hpop, hleft, hid⟩

end Grf.Pool
