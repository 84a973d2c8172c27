import Mathlib.Data.List.Range
import Grf.Cache.Build

/-! # Keys of the build cache

A key is the digest of a message in which each part stands behind its length, so the message can be cut into its parts
again, whatever bytes they hold: different lists of parts have different messages (`buildMessage_eq_iff`).
-/

namespace Grf

open List BuildCache

variable {p q : List UInt8} {ps qs : List (List UInt8)} {n m : Nat}

theorem readLength_digits (n count : Nat) :
    readLength ((range count).map fun i => (n / Nat.pow 256 i % 256).toUInt8) = n % Nat.pow 256 count := by
  induction count generalizing n with
  | zero => exact (Nat.mod_one n).symm
  | succ count ih =>
    have hrest : ((range count).map Nat.succ).map (fun i => (n / Nat.pow 256 i % 256).toUInt8) =
        (range count).map fun i => (n / 256 / Nat.pow 256 i % 256).toUInt8 := by
      rw [map_map]
      simp [Nat.pow_succ', Nat.div_div_eq_div_mul]
    have hdigit : (n / Nat.pow 256 0 % 256).toUInt8.toNat = n % 256 := by simp
    rw [range_succ_eq_map, map_cons, readLength, hrest, ih, hdigit, Nat.pow_eq, Nat.pow_eq, Nat.pow_succ', Nat.mod_mul]

theorem lengthBytes_inj (hn : n < 0x10000000000000000) (hm : m < 0x10000000000000000)
    (h : lengthBytes n = lengthBytes m) : n = m := by
  have hmod := congrArg readLength h
  unfold lengthBytes at hmod
  rw [readLength_digits, readLength_digits] at hmod
  rwa [show Nat.pow 256 8 = 0x10000000000000000 from rfl, Nat.mod_eq_of_lt hn, Nat.mod_eq_of_lt hm] at hmod

theorem buildMessage_cons (p : List UInt8) (ps : List (List UInt8)) :
    buildMessage (p :: ps) = lengthBytes p.length ++ (p ++ buildMessage ps) := by
  rfl

theorem buildMessage_cons_ne_nil : buildMessage (p :: ps) ≠ [] := by
  exact cons_ne_nil _ _

/-- **Different parts have different messages**, also if they are the same bytes, cut in another way. -/
theorem buildMessage_eq_iff (hps : ∀ p ∈ ps, p.length < 0x10000000000000000)
    (hqs : ∀ q ∈ qs, q.length < 0x10000000000000000) : buildMessage ps = buildMessage qs ↔ ps = qs := by
  refine ⟨fun h => ?_, congrArg buildMessage⟩
  induction ps generalizing qs with
  | nil =>
    cases qs with
    | nil => rfl
    | cons q qs => exact absurd h.symm buildMessage_cons_ne_nil
  | cons p ps ih =>
    cases qs with
    | nil => exact absurd h buildMessage_cons_ne_nil
    | cons q qs =>
      rw [forall_mem_cons] at hps hqs
      rw [buildMessage_cons, buildMessage_cons] at h
      -- The lengths are as long as each other, so they agree, and then the parts do.
      obtain ⟨hlength, hrest⟩ := append_inj h (by simp [lengthBytes])
      obtain ⟨rfl, htail⟩ := append_inj hrest (lengthBytes_inj hps.1 hqs.1 hlength)
      rw [ih hps.2 hqs.2 htail]

theorem buildMessage_split_elsewhere : buildMessage [[1], [2, 3]] ≠ buildMessage [[1, 2], [3]] :=
  fun h => absurd ((buildMessage_eq_iff (by decide) (by decide)).mp h) (by decide)

end Grf
