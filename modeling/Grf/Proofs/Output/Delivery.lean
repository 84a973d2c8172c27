import Grf.Output.Sink
import Grf.Proofs.Text.Bytes

/-! # What is delivered

A sink either delivers all that is written to it, in order, or it has failed: `Sink.Takes` says this of one sink and
the next, whatever way the bytes went through the buffer. It is carried over to containers and listings, which stop
writing after the first error.
-/

namespace Grf

open List

namespace Sink

variable {s s₁ s' : Sink} {bytes bytes' : List UInt8}

/-- What was written: the bytes that were delivered and those in the buffer. -/
def contents (s : Sink) : List UInt8 := s.received.toList ++ s.buffer.toList

/-- What was `written`: its beginning was delivered, and nothing is lost unless the sink has failed. -/
structure Holds (s : Sink) (written : List UInt8) : Prop where
  begins : s.received.toList <+: written
  all : s.failed = false → written = s.contents

/-- The sink `s'` is `s` after `bytes` were written. A sink that has failed stays so, and only a limit makes one
fail. -/
structure Takes (s : Sink) (bytes : List UInt8) (s' : Sink) : Prop where
  contents : s'.failed = false → s.failed = false ∧ s'.contents = s.contents ++ bytes
  begins : ∀ written, s.Holds written → s'.received.toList <+: written ++ bytes
  limit : s'.limit = s.limit
  unlimited : s.limit = none → s.failed = false → s'.failed = false

namespace Takes

theorem holds (h : s.Takes bytes s') {written : List UInt8} (hs : s.Holds written) : s'.Holds (written ++ bytes) where
  begins := h.begins written hs
  all hs' := by
    obtain ⟨hfailed, hcontents⟩ := h.contents hs'
    rw [hcontents, hs.all hfailed]

theorem refl (s : Sink) : s.Takes [] s where
  contents h := ⟨h, (append_nil _).symm⟩
  begins _ h := h.begins.trans (prefix_append _ _)
  limit := rfl
  unlimited _ h := h

theorem trans (h : s.Takes bytes s₁) (h' : s₁.Takes bytes' s') : s.Takes (bytes ++ bytes') s' where
  contents hs' := by
    simp_all [h'.contents, h.contents]
  begins written hs := append_assoc written _ _ ▸ h'.begins _ (h.holds hs)
  limit := h'.limit.trans h.limit
  unlimited hlimit hs := h'.unlimited (h.limit.trans hlimit) (h.unlimited hlimit hs)

theorem parts {k : Nat} (h : s.Takes (bytes.take k) s₁) (h' : s₁.Takes (bytes.drop k) s') : s.Takes bytes s' := by
  rw [← take_append_drop k bytes]
  exact h.trans h'

theorem of_failed (h : s.failed = true) : s.Takes bytes s where
  contents hs := by
    rw [h] at hs
    cases hs
  begins _ h := h.begins.trans (prefix_append _ _)
  limit := rfl
  unlimited _ hs := hs

theorem buffer (s : Sink) (bytes : List UInt8) : s.Takes bytes { s with buffer := s.buffer ++ bytes } where
  contents hs := ⟨hs, by simp only [Sink.contents, Array.toList_appendList, append_assoc]⟩
  begins _ h := h.begins.trans (prefix_append _ _)
  limit := rfl
  unlimited _ hs := hs

end Takes

theorem taken_le (s : Sink) (n : Nat) : s.taken n ≤ n := by
  grind [taken]

theorem deliver_eq (s : Sink) (bytes : List UInt8) :
    (s.deliver bytes.toArray).received.toList = s.received.toList ++ bytes.take (s.taken bytes.length) ∧
      ((s.deliver bytes.toArray).failed = false ↔ s.failed = false ∧ s.taken bytes.length = bytes.length) := by
  have hle := s.taken_le bytes.length
  refine ⟨by simp [deliver], ?_⟩
  simp only [deliver, List.size_toArray, Bool.or_eq_false_iff, decide_eq_false_iff_not]
  exact and_congr_right fun _ => by omega

theorem deliver_unlimited (hlimit : s.limit = none) (hs : s.failed = false) (bytes : List UInt8) :
    (s.deliver bytes.toArray).failed = false := (s.deliver_eq bytes).2.mpr ⟨hs, by simp [taken, hlimit]⟩

theorem deliver_takes (hs : s.failed = false) (hbuffer : s.buffer.isEmpty = true) (bytes : List UInt8) :
    s.Takes bytes (s.deliver bytes.toArray) := by
  have hempty : s.buffer.toList = [] := by simpa using hbuffer
  obtain ⟨hreceived, hfailed⟩ := s.deliver_eq bytes
  refine ⟨fun h => ⟨hs, ?_⟩, fun written h => ?_, rfl, fun hlimit hs => deliver_unlimited hlimit hs bytes⟩
  · rw [contents, hreceived, (hfailed.mp h).2, take_length, show (s.deliver bytes.toArray).buffer = s.buffer from rfl]
    simp [contents, hempty]
  · rw [hreceived, h.all hs, contents, hempty, append_nil, prefix_append_right_inj]
    exact take_prefix _ _

theorem flush_takes (s : Sink) : s.Takes [] s.flush := by
  unfold flush
  split
  · exact .refl s
  · next hready =>
      have hs : s.failed = false := by
        simp_all
      obtain ⟨hreceived, hfailed⟩ := s.deliver_eq s.buffer.toList
      refine ⟨fun h => ⟨hs, ?_⟩, fun written h => ?_, rfl, fun hlimit hs => deliver_unlimited hlimit hs s.buffer.toList⟩
      · have htaken := (hfailed.mp h).2
        simp_all [contents, take_of_length_le]
      · rw [append_nil, h.all hs, contents]
        refine hreceived ▸ ?_
        rw [prefix_append_right_inj]
        exact take_prefix _ _

theorem flush_buffer (h : s.flush.failed = false) : s.flush.buffer.isEmpty = true := by
  unfold flush at h ⊢
  split
  · simp_all
  · next hready =>
      rw [if_neg hready] at h
      have htaken := ((s.deliver_eq s.buffer.toList).2.mp h).2
      simp_all

variable (s bytes)

theorem topUp_takes : s.Takes bytes { s with buffer := s.buffer ++ bytes }.flush := by
  have htop := (Takes.buffer s bytes).trans (flush_takes _)
  rwa [append_nil] at htop

theorem fill_takes : s.Takes bytes (s.fill bytes) := by
  fun_induction fill s bytes with
  | case1 s bytes hfailed => exact .of_failed hfailed
  | case2 s bytes hfailed room hfits => exact .buffer s bytes
  | case3 s bytes hfailed room hfits ih => exact (topUp_takes s _).parts ih

theorem write_takes : s.Takes bytes (s.write bytes) := by
  unfold write
  dsimp only
  split
  · next hfailed => exact .of_failed hfailed
  · next hs =>
    split
    · exact .buffer s bytes
    · split
      · next hempty => exact deliver_takes (Bool.eq_false_iff.mpr hs) hempty bytes
      · refine (topUp_takes s (bytes.take (capacity - s.buffer.size))).parts ?_
        split
        · next hfailed => exact .of_failed hfailed
        · next hready =>
            split
            · exact .buffer _ _
            · have hflushed := Bool.eq_false_iff.mpr hready
              exact deliver_takes hflushed (flush_buffer hflushed) _

theorem writeText_takes (text : String) : s.Takes (Text.bytesOf text) (s.writeText text) := by
  unfold writeText
  split
  · next hempty =>
      rw [String.isEmpty_iff] at hempty
      rw [hempty, Text.bytesOf_empty]
      exact .refl s
  · have hroom : s.Takes [] s.makeRoom := by
      unfold makeRoom
      split
      · exact flush_takes s
      · exact .refl s
    exact hroom.trans (fill_takes _ _)

variable {s}

theorem received_flush (h : s.flush.failed = false) : s.failed = false ∧ s.flush.received.toList = s.contents := by
  obtain ⟨hs, hcontents⟩ := (flush_takes s).contents h
  have hempty : s.flush.buffer.toList = [] := by simpa using flush_buffer h
  grind [contents]

end Sink

/-! ## Outputs that stop after an error -/

/-- The side of an output that faces its sink: the sink, the error of the first write that failed, and whether the
output has been closed. -/
structure Channel where
  sink : Sink
  error : Option Error
  closed : Bool

namespace Channel

variable {c c₁ c' : Channel} {bytes bytes' : List UInt8}

def Sound (c : Channel) : Prop := c.error.isSome = true → c.sink.failed = true

/-- The channel after a write that takes the sink to `s`. After an error nothing is written. -/
def after (c : Channel) (s : Sink) : Channel :=
  if c.error.isSome then c else { c with sink := s, error := if s.failed then some Sink.full else none }

/-- The channel `c'` is `c` after `bytes` were written, and an error that is known stays so. -/
structure Writes (c : Channel) (bytes : List UInt8) (c' : Channel) : Prop where
  sound : c'.Sound
  sink : c.sink.Takes bytes c'.sink
  error : c.error.isSome = true → c'.error = c.error

structure Takes (c : Channel) (bytes : List UInt8) (c' : Channel) : Prop extends c.Writes bytes c' where
  closed : c'.closed = c.closed

namespace Takes

theorem refl (hc : c.Sound) : c.Takes [] c := ⟨⟨hc, .refl _, fun _ => rfl⟩, rfl⟩

theorem trans (h : c.Takes bytes c₁) (h' : c₁.Takes bytes' c') : c.Takes (bytes ++ bytes') c' := by
  refine ⟨⟨h'.sound, h.sink.trans h'.sink, fun herror => ?_⟩, h'.closed.trans h.closed⟩
  have hkept := h.error herror
  exact (h'.error (hkept ▸ herror)).trans hkept

end Takes

theorem after_takes (hc : c.Sound) {s : Sink} (h : c.sink.Takes bytes s) : c.Takes bytes (c.after s) := by
  unfold after
  split
  · next herror => exact ⟨⟨hc, .of_failed (hc herror), fun _ => rfl⟩, rfl⟩
  · next herror =>
    refine ⟨⟨?_, h, fun h => absurd h herror⟩, rfl⟩
    unfold Sound
    dsimp only
    cases s.failed <;> decide

/-- The end of an output: what is in the buffer is delivered. The first component is the error that is reported. -/
def finish (c : Channel) : Option Error × Sink :=
  if c.error.isSome then (c.error, c.sink)
  else (if c.sink.flush.failed then some Sink.full else none, c.sink.flush)

theorem finish_delivers (hc : c.Sound) (h : c.finish.2.failed = false) :
    c.finish.1 = none ∧ c.sink.failed = false ∧ c.finish.2.received.toList = c.sink.contents := by
  unfold finish at h ⊢
  split
  · next herror =>
      rw [if_pos herror, hc herror] at h
      cases h
  simp_all [Sink.received_flush]

theorem finish_of_none (h : c.finish.1 = none) : c.finish.2.failed = false := by
  unfold finish at h ⊢
  split
  · next herror =>
      rw [if_pos herror] at h
      rw [show c.error = none from h] at herror
      cases herror
  · next herror =>
      rw [if_neg herror] at h
      cases hfailed : c.sink.flush.failed with
      | false => rfl
      | true =>
        have hfull : (if c.sink.flush.failed = true then some Sink.full else none) = none := h
        rw [if_pos hfailed] at hfull
        cases hfull

theorem finish_of_unlimited (hlimit : c.sink.limit = none) (hs : c.sink.failed = false) :
    c.finish.2.failed = false := by
  unfold finish
  split
  · exact hs
  · exact (Sink.flush_takes _).unlimited hlimit hs

end Channel

end Grf
