import Mathlib.Data.List.Induction
import Grf.Cache.Parse
import Grf.Proofs.Registry.Lookup
import Grf.Proofs.Text.Bytes

/-! # What the parse cache answers

Values are put into the parse cache and looked up, in any order, and at times all of them are dropped. What is found has
been put last under the same message (`get?_run`), if no two of the messages have the same digest. A name ends at the
zero byte behind it, so a message tells the name and the content if no name has such a byte itself
(`contentMessage_inj`).
-/

namespace Grf

open List Text

variable {α : Type} {n n' name : String} {s s' content key : List UInt8}

theorem bytesOf_inj (h : bytesOf n = bytesOf n') : n = n' := by
  unfold bytesOf at h
  rw [ByteArray.toList.eq_1, ByteArray.toList.eq_1, loop_eq_drop, loop_eq_drop] at h
  exact String.toByteArray_inj.mp (ByteArray.ext (Array.toList_inj.mp h))

/-- Two messages are the same if one of them has a zero byte in its name where the name of the other one ends. -/
theorem contentMessage_eq_iff : contentMessage n s = contentMessage n' s' ↔ n = n' ∧ s = s' ∨
    (∃ rest, bytesOf n' = bytesOf n ++ 0 :: rest ∧ s = rest ++ 0 :: s') ∨
    ∃ rest, bytesOf n = bytesOf n' ++ 0 :: rest ∧ s' = rest ++ 0 :: s := by
  unfold contentMessage
  constructor
  · intro h
    rcases append_eq_append_iff.mp h with ⟨e, hn, hs⟩ | ⟨e, hn, hs⟩
    all_goals
      cases e with
      | nil =>
        rw [append_nil] at hn
        obtain ⟨-, rfl⟩ := cons.inj hs
        exact .inl ⟨bytesOf_inj (by rw [hn]), rfl⟩
      | cons b rest =>
        obtain ⟨rfl, rfl⟩ := cons.inj hs
        simp [hn]
  · rintro (⟨rfl, rfl⟩ | ⟨rest, hn, rfl⟩ | ⟨rest, hn, rfl⟩)
    · rfl
    all_goals simp [hn]

theorem contentMessage_inj (hn : 0 ∉ bytesOf n) (hn' : 0 ∉ bytesOf n') :
    contentMessage n s = contentMessage n' s' ↔ n = n' ∧ s = s' := by
  rw [contentMessage_eq_iff, or_iff_left]
  grind

namespace ParseCache

inductive Call (α : Type)
  | put (name : String) (content : List UInt8) (value : α)
  | get (name : String) (content : List UInt8)
  | clear

namespace Call

def perform (c : ParseCache α) : Call α → ParseCache α
  | put name content value => c.put name content value
  | get _ _ => c
  | clear => c.clear

/-- The name and the content of a call, of which the digest is taken. -/
def subject? : Call α → Option (String × List UInt8)
  | put name content _ => some (name, content)
  | get name content => some (name, content)
  | clear => none

end Call

def subjects (calls : List (Call α)) : List (String × List UInt8) := calls.filterMap Call.subject?

def run (calls : List (Call α)) : ParseCache α := calls.foldl Call.perform {}

/-- The value that was put last among those that `same` selects, since all values were dropped. The last call stands
first. -/
def lastPut? (same : String → List UInt8 → Bool) : List (Call α) → Option α
  | [] => none
  | .put n s value :: earlier => if same n s then some value else lastPut? same earlier
  | .get _ _ :: earlier => lastPut? same earlier
  | .clear :: _ => none

theorem lastPut?_congr {same same' : String → List UInt8 → Bool} {calls : List (Call α)}
    (h : ∀ p ∈ subjects calls, same p.1 p.2 = same' p.1 p.2) :
    lastPut? same calls = lastPut? same' calls := by
  induction calls with
  | nil => rfl
  | cons call earlier ih =>
    cases call with
    | put n s value =>
      obtain ⟨hfirst, hrest⟩ := forall_mem_cons.mp h
      rw [lastPut?, lastPut?, hfirst, ih hrest]
    | get n s => exact ih (forall_mem_cons.mp h).2
    | clear => rfl

/-- A key has the value that was put last with it. -/
theorem lookup_run (calls : List (Call α)) (key : List UInt8) :
    (run calls).values.lookup key = lastPut? (fun n s => contentKey n s == key) calls.reverse := by
  induction calls using reverseRecOn with
  | nil => rfl
  | append_singleton calls call ih =>
    rw [run, foldl_append, reverse_append]
    change (call.perform (run calls)).values.lookup key = lastPut? _ (call :: calls.reverse)
    cases call with
    | put n s value =>
      rw [lastPut?, ← ih]
      by_cases hkey : key = contentKey n s
      · simp [Call.perform, put, hkey]
      · simp [Call.perform, put, lookup_cons, beq_false_of_ne hkey, Ne.symm hkey, lookup_filter_of_ne hkey]
    | get n s => exact ih
    | clear => rfl

/-- **The parse cache is a map on names and contents**, if the digest tells the messages apart and no name has a zero
byte. With such bytes it is one on messages: another content is found if its message is the same. -/
theorem get?_run (calls : List (Call α)) (name : String) (content : List UInt8)
    (hdigest : ∀ p ∈ subjects (calls ++ [.get name content]),
      ∀ q ∈ subjects (calls ++ [.get name content]), contentKey p.1 p.2 = contentKey q.1 q.2 →
        contentMessage p.1 p.2 = contentMessage q.1 q.2) :
    (run calls).get? name content =
        lastPut? (fun n s => contentMessage n s == contentMessage name content) calls.reverse ∧
      ((∀ p ∈ subjects (calls ++ [.get name content]), 0 ∉ bytesOf p.1) →
        (run calls).get? name content = lastPut? (fun n s => n == name && s == content) calls.reverse) := by
  have hcall {p : String × List UInt8} (hp : p ∈ subjects calls.reverse) :
      p ∈ subjects (calls ++ [.get name content]) := by
    rw [subjects, filterMap_reverse, mem_reverse] at hp
    rw [subjects, filterMap_append]
    exact mem_append_left _ hp
  have hlast : (name, content) ∈ subjects (calls ++ [.get name content]) := by
    simp [subjects, Call.subject?]
  have hmessage : (run calls).get? name content =
      lastPut? (fun n s => contentMessage n s == contentMessage name content) calls.reverse := by
    refine (lookup_run calls _).trans (lastPut?_congr fun p hp => ?_)
    rw [Bool.eq_iff_iff, beq_iff_eq, beq_iff_eq]
    refine ⟨hdigest p (hcall hp) (name, content) hlast, fun hsame => ?_⟩
    rw [contentKey, contentKey, hsame]
  refine ⟨hmessage, fun hzero => hmessage.trans (lastPut?_congr fun p hp => ?_)⟩
  rw [Bool.eq_iff_iff, beq_iff_eq, Bool.and_eq_true, beq_iff_eq, beq_iff_eq]
  exact contentMessage_inj (hzero p (hcall hp)) (hzero _ hlast)

theorem get?_run_dropped : (run [.put "a" [1] 5, .clear, .put "a" [1] 6, .put "b" [] 7]).get? "a" [1] = some 6 := by
  refine ((get?_run _ _ _ ?_).2 ?_).trans rfl
  all_goals decide +kernel

/-- A zero byte in a name is taken for its end. -/
theorem get?_run_zero : (run [.put "a\x00b" [99] 5]).get? "a" [98, 0, 99] = some 5 := by
  decide +kernel

end ParseCache

end Grf
