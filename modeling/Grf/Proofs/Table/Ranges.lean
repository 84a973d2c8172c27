import Grf.Proofs.Record.Numbers
import Grf.Proofs.Table.Shapes

/-! # Ranges of decision tables

The bounds of a range may be given with or without a sign, and of each of them the low bytes are written. An interval
of integers is left an interval by this if its bounds have the same sign. If only the lower bound is negative, zero is
in the interval, and it is not between the bounds that are written (`keeps_iff`).
-/

namespace Grf

open List

variable {width : Int}

/-- A range as it is declared: it is not empty, and its bounds can be written, with or without a sign. -/
structure SwitchRange.Fits (width : Int) (r : SwitchRange) : Prop where
  le : r.min ≤ r.max
  min : -(Nat.pow 2 ((8 * width).toNat - 1) : Nat) ≤ r.min
  max : r.max ≤ (Nat.pow 2 (8 * width).toNat - 1 : Nat)

/-- Whether a value of `width` bytes is what is left of an integer in the range. -/
def SwitchRange.Covers (width : Int) (r : SwitchRange) (x : Nat) : Prop :=
  ∃ k, r.min ≤ k ∧ k ≤ r.max ∧ residue width k = x

/-- Whether only the lower bound is negative. -/
def SwitchRange.IsMixed (r : SwitchRange) : Prop := r.min < 0 ∧ 0 ≤ r.max

/-- The bounds that are read have the meaning of those that are declared. -/
def SwitchRange.Keeps (width : Int) (r : SwitchRange) (bounds : Nat × Nat) : Prop :=
  bounds.1 ≤ bounds.2 ∧ ∀ x < modulus width, bounds.1 ≤ x ∧ x ≤ bounds.2 ↔ r.Covers width x

/-- Takes the bounds of a range, which come after its result. -/
def takeBounds (width : Int) : Parser (Nat × Nat) := do
  let _ ← takeNumber 2
  let min ← takeNumber width.toNat
  let max ← takeNumber width.toNat
  return (min, max)

/-- What is left of integers with the same sign differs from them by the same number. -/
theorem SwitchRange.Fits.exists_shift {r : SwitchRange} (h : r.Fits width) (hwidth : IsWidth width) :
    0 < modulus width ∧ ∃ shift : Int, (r.min < 0 → 0 < r.min + shift) ∧
      ∀ k, r.min ≤ k → k ≤ r.max → (k < 0 ↔ r.min < 0) → (residue width k : Int) = k + shift := by
  obtain ⟨half, hpos, hhalf, hmin, hmax⟩ : ∃ half : Int, 0 < half ∧ (modulus width : Int) = 2 * half ∧ -half ≤ r.min ∧
      r.max < 2 * half := by
    obtain ⟨-, hmin, hmax⟩ := h
    rcases hwidth with rfl | rfl | rfl
    · exact ⟨0x80, by decide, rfl, hmin, Int.lt_add_one_of_le hmax⟩
    · exact ⟨0x8000, by decide, rfl, hmin, Int.lt_add_one_of_le hmax⟩
    · exact ⟨0x80000000, by decide, rfl, hmin, Int.lt_add_one_of_le hmax⟩
  refine ⟨by omega, if r.min < 0 then modulus width else 0, fun hneg => ?_, fun k hlow hhigh hsign => ?_⟩
  · omega
  · split_ifs with hneg
    · rw [show residue width k = residue width (k + modulus width) by unfold residue; rw [Int.add_emod_right],
        residue_of_fits (by omega) (by omega)]
    · rw [residue_of_fits (by omega) (by omega), Int.add_zero]

/-- **A range keeps its meaning** if and only if its bounds have the same sign. -/
theorem SwitchRange.Fits.keeps_iff {r : SwitchRange} (h : r.Fits width) (hwidth : IsWidth width) :
    r.Keeps width (residue width r.min, residue width r.max) ↔ ¬r.IsMixed := by
  have hle := h.le
  obtain ⟨hpos, shift, hlarge, hshift⟩ := h.exists_shift hwidth
  constructor
  · rintro ⟨-, hkeeps⟩ ⟨hneg, hnonneg⟩
    obtain ⟨hlow, -⟩ := (hkeeps 0 hpos).mpr ⟨0, hneg.le, hnonneg, by simp [residue]⟩
    have := hshift r.min (Int.le_refl _) hle Iff.rfl
    omega
  · intro hsame
    unfold IsMixed at hsame
    have hlow := hshift r.min (Int.le_refl _) hle Iff.rfl
    have hhigh := hshift r.max hle (Int.le_refl _) (by omega)
    refine ⟨by omega, fun x hx => ⟨fun hx => ?_, ?_⟩⟩
    · refine ⟨x - shift, by omega, by omega, ?_⟩
      have := hshift (x - shift) (by omega) (by omega) (by omega)
      omega
    · rintro ⟨k, hk, hk', rfl⟩
      have := hshift k hk hk' (by omega)
      omega

theorem findIdx_congr {α β : Type} {p : α → Bool} {q : β → Bool} {as : List α} {bs : List β}
    (h : Forall₂ (fun a b => p a = q b) as bs) : as.findIdx p = bs.findIdx q := by
  induction h with
  | nil => rfl
  | cons hab _ ih => simp only [findIdx_cons, hab, ih]

theorem takeBounds_tokens {range : TableRange} (hwidth : IsWidth width) : ∃ tokens, range.tokens width = .ok tokens ∧
    (takeBounds width).run (Token.bytesOfAll tokens) = some ((residue width range.min, residue width range.max), []) := by
  obtain ⟨low, hlow⟩ := hwidth.sized range.min
  obtain ⟨high, hhigh⟩ := hwidth.sized range.max
  refine ⟨[Token.wordOf range.result.word, low, high, lineBreak], ?_, ?_⟩
  · unfold TableRange.tokens
    rw [hlow, hhigh]
    rfl
  · have hreads : Reads (takeBounds width) ((Token.wordOf range.result.word).bytes ++ (low.bytes ++ (high.bytes ++ [])))
        (residue width range.min, residue width range.max) := by
      rw [bytes_of_sized hlow, bytes_of_sized hhigh, append_nil]
      exact (Reads.word _).bind ((Reads.sized hwidth _).bind (Reads.sized hwidth _).map)
    have hread := hreads []
    rwa [append_nil] at hread

namespace Lowering

variable {s : Switch} {c c' : Context} {rs : List Record}

/-- The table of a switch is its last record, and has its ranges. -/
theorem lowerSwitch_ranges (s : Switch) : Yields (lowerSwitch s) fun rs => ∃ others t,
    rs = others ++ [⟨s.pos, .decisionTable t⟩] ∧ t.varSize = s.varSize ∧ IsWidth s.varSize ∧
      Forall₂ (fun r range => r.Fits s.varSize ∧ range.min = r.min ∧ range.max = r.max) s.ranges t.ranges := by
  refine (lowerTableHead_streamOf s).yields.bind fun head hhead => ?_
  have hrange : ∀ x : SwitchRange × Nat, Yields (lowerRange s head.node x.1
      (positionOr x.1.pos (s.pos.sub ("ranges[" ++ toString x.2 ++ "]")))) fun y =>
      x.1.Fits s.varSize ∧ y.1.min = x.1.min ∧ y.1.max = x.1.max := by
    refine fun x => Yields.failIf.bind fun _ hempty => Yields.failIf.bind fun _ hmin =>
      Yields.failIf.bind fun _ hmax => .after fun _ => .pure ⟨?_, rfl, rfl⟩
    simp only [Bool.or_eq_false_iff, decide_eq_false_iff_not, Int.not_lt] at hempty hmin hmax
    exact ⟨hempty, hmin.1, hmax.2⟩
  refine (Yields.mapM hrange _).bind fun ranges hranges => .after fun default => .pure ?_
  have hkept : Forall₂ (fun r (range : TableRange) => SwitchRange.Fits s.varSize r ∧ range.min = r.min ∧
      range.max = r.max) (s.ranges.zipIdx.map Prod.fst) (ranges.map (·.1)) :=
    forall₂_map_left_iff.mpr (forall₂_map_right_iff.mpr hranges)
  rw [zipIdx_map_fst] at hkept
  unfold tableRecords Record.withPatches
  split
  · exact ⟨_, _, rfl, rfl, hhead.2.1, hkept⟩
  · exact ⟨_, _, (append_assoc _ [_] [_]).symm, rfl, hhead.2.1, hkept⟩

/-- **The ranges of a switch keep their meaning** in its table, which is its last record, if and only if their bounds
have the same sign. If all ranges do, the first range that a value lies in is the same in the table and in the switch. -/
theorem lowerSwitch_keepsRanges (h : lowerSwitch s c = .ok rs c') :
    ∃ others t bounds, rs = others ++ [⟨s.pos, .decisionTable t⟩] ∧ t.varSize = s.varSize ∧
      Forall₂ (fun range b => ∃ tokens, range.tokens s.varSize = .ok tokens ∧
        (takeBounds s.varSize).run (Token.bytesOfAll tokens) = some (b, [])) t.ranges bounds ∧
      Forall₂ (fun r b => r.Keeps s.varSize b ↔ ¬r.IsMixed) s.ranges bounds ∧
      ((∀ r ∈ s.ranges, ¬r.IsMixed) → ∀ x < modulus s.varSize, ∀ covers : SwitchRange → Bool,
        (∀ r, covers r = true ↔ r.Covers s.varSize x) →
          s.ranges.findIdx covers = bounds.findIdx fun b => b.1 ≤ x && x ≤ b.2) := by
  obtain ⟨others, t, hrs, hsize, hwidth, hranges⟩ := lowerSwitch_ranges s c rs c' h
  have hkeeps : Forall₂ (fun r b => r.Keeps s.varSize b ↔ ¬r.IsMixed) s.ranges
      (t.ranges.map fun range => (residue s.varSize range.min, residue s.varSize range.max)) := by
    refine forall₂_map_right_iff.mpr (hranges.imp fun r range hr => ?_)
    obtain ⟨hfits, hmin, hmax⟩ := hr
    rw [hmin, hmax]
    exact hfits.keeps_iff hwidth
  refine ⟨others, t, _, hrs, hsize, ?_, hkeeps, fun hsame x hx covers hcovers => findIdx_congr ?_⟩
  · exact forall₂_map_right_iff.mpr (forall₂_same.mpr fun range _ => takeBounds_tokens hwidth)
  · refine ((forall₂_and_left _ _).mpr ⟨hsame, hkeeps⟩).imp fun r b hb => ?_
    rw [Bool.eq_iff_iff, hcovers r, ← (hb.2.mpr hb.1).2 x hx]
    simp

/-- A switch of one byte a value with a negative range, one up to the largest number, and one with a negative lower
bound only. -/
theorem lowerSwitch_keepsRanges_signs :
    let range (min max value : Int) : SwitchRange := ⟨min, max, some (.const value), {}⟩
    let ranges := [range (-128) (-3) 1, range 7 255 2, range (-1) 5 3]
    let s : Switch := ⟨"signs", 0, false, 1, .var { num := 0x40 }, ranges, some (.const 0), {}⟩
    ∃ rs c' b₁ b₂ b₃, lowerSwitch s (.create 0 none none) = .ok rs c' ∧ (range (-128) (-3) 1).Keeps 1 b₁ ∧
      (range 7 255 2).Keeps 1 b₂ ∧ ¬(range (-1) 5 3).Keeps 1 b₃ := by
  intro range ranges s
  have hok : succeeds (lowerSwitch s) (.create 0 none none) (fun _ _ => true) = true := by decide +kernel
  obtain ⟨rs, c', h, -⟩ := eq_ok_of_succeeds hok
  obtain ⟨others, t, bounds, -, -, -, hkeeps, -⟩ := lowerSwitch_keepsRanges h
  obtain _ | ⟨h₁, _ | ⟨h₂, _ | ⟨h₃, -⟩⟩⟩ := hkeeps
  refine ⟨rs, c', _, _, _, h, h₁.mpr ?_, h₂.mpr ?_, fun hkeeps => h₃.mp hkeeps ⟨?_, ?_⟩⟩
  all_goals
    simp [SwitchRange.IsMixed, range]

end Lowering

end Grf
