import Grf.Proofs.Record.Sizes

/-! # Fields of variable reads in narrow tables

The fields of a variable read are numbers of 64 bits, and they are cut to the width of the table when the read is
written. Masks, sums and divisions may be moved into the fields before that at every width. A right shift may be moved
if the sum of the two shifts can be written, and if it moves no bit of the mask below the width that was cut off before
(`VarRead.foldInto?_valueAt`).
-/

namespace Grf

open Word

def valueBits (width : Int) : Nat := 8 * width.toNat

theorem valueBits_le {width : Int} (hw : IsWidth width) : valueBits width ≤ 32 := by
  unfold IsWidth at hw
  unfold valueBits
  omega

/-- The value of an operator that can be moved into a read, on values of a table. Shift counts are taken modulo 32
at every width. -/
def Operator.computeAt? {bits : Nat} (op : Operator) (l r : BitVec bits) : Option (BitVec bits) :=
  match op with
  | add => some (l + r)
  | sub => some (l - r)
  | and => some (l &&& r)
  | divU => if r = 0 then none else some (l / r)
  | modU => if r = 0 then none else some (l % r)
  | shrU => some (l >>> (r.toNat % 32))
  | _ => none

theorem le_valueBits {width : Int} (hw : IsWidth width) : 8 ≤ valueBits width := by
  unfold IsWidth at hw
  unfold valueBits
  omega

namespace VarRead

/-- The value of a read that is divided or reduced by a field of a table. -/
def dividedAt? (env : Env) {bits : Nat} (div mod : Option Expr) (value : BitVec bits) : Option (BitVec bits) :=
  match div, mod with
  | none, none => some value
  | some d, none => (env.field? d).bind fun d => Operator.divU.computeAt? value (d.setWidth bits)
  | none, some m => (env.field? m).bind fun m => Operator.modU.computeAt? value (m.setWidth bits)
  | some _, some _ => none

/-- What a table makes of the raw value of a variable. All fields are cut to the width of the table, and the mask is
extended by zeros. -/
def valueAt? (env : Env) (bits : Nat) (v : VarRead Expr) (raw : Word) : Option (BitVec bits) := do
  guard v.ShiftFits
  let mask ← env.fieldOr? (BitVec.allOnes 32) v.mask
  let add ← env.fieldOr? 0 v.add
  dividedAt? env v.div v.mod
    ((raw >>> v.shift.toNat &&& (mask.setWidth bits).setWidth 32).setWidth bits + add.setWidth bits)

variable {env : Env} {bits : Nat} {width : Int} {v v' : VarRead Expr} {c : Int}

theorem valueAt?_of_shiftFits (h : v.ShiftFits) (raw : Word) : v.valueAt? env bits raw =
      (env.fieldOr? (BitVec.allOnes 32) v.mask).bind fun mask => (env.fieldOr? 0 v.add).bind fun add =>
        dividedAt? env v.div v.mod
          ((raw >>> v.shift.toNat &&& (mask.setWidth bits).setWidth 32).setWidth bits + add.setWidth bits) := by
  unfold valueAt?
  rw [guard, if_pos h]
  rfl

theorem setWidth_ofInt (hbits : bits ≤ 32) (c : Int) : (ofInt c).setWidth bits = BitVec.ofInt bits c := by
  have hdvd : ((2 ^ bits : Nat) : Int) ∣ ((2 ^ 32 : Nat) : Int) := Int.natCast_dvd_natCast.mpr (Nat.pow_dvd_pow 2 hbits)
  apply BitVec.eq_of_toInt_eq
  rw [BitVec.toInt_setWidth, ofInt, BitVec.toInt_ofInt, BitVec.toNat_ofInt, Int.toNat_of_nonneg (by omega),
    ← Int.emod_bmod, Int.emod_emod_of_dvd c hdvd, Int.emod_bmod]

/-! ## Masks, sums and divisions -/

theorem setWidth_fullMask (hw : IsWidth width) :
    (ofInt (fullMask width)).setWidth (valueBits width) = BitVec.allOnes _ := by
  rcases hw with rfl | rfl | rfl <;> decide

theorem mask_of_constantMask? (hw : IsWidth width) {m : Int} (h : v.constantMask? width = some m) :
    (env.fieldOr? (BitVec.allOnes 32) v.mask).map (BitVec.setWidth (valueBits width)) =
      some ((ofInt m).setWidth (valueBits width)) := by
  unfold constantMask? at h
  cases hm : v.mask with
  | none =>
    rw [hm] at h
    cases h
    rcases hw with rfl | rfl | rfl <;> exact congrArg some (by decide)
  | some mask =>
    rw [hm] at h
    obtain rfl := Expr.constant?_eq_some.mp h
    rfl

theorem valueAt?_of_mask (hbits : bits ≤ 32) {shift : Int} {mask : Option Expr} {m : BitVec bits}
    (hpost : (!v.hasPostOp) = true) (hs : 0 ≤ shift ∧ shift ≤ maxShift)
    (hm : (env.fieldOr? (BitVec.allOnes 32) mask).map (BitVec.setWidth bits) = some m) (raw : Word) :
    valueAt? env bits { v with shift, mask } raw = some ((raw >>> shift.toNat).setWidth bits &&& m) := by
  obtain ⟨hadd, hdiv, hmod⟩ : v.add = none ∧ v.div = none ∧ v.mod = none := by
    simpa [hasPostOp, and_assoc] using hpost
  obtain ⟨field, hfield, rfl⟩ := Option.map_eq_some_iff.mp hm
  rw [valueAt?_of_shiftFits (show ShiftFits { v with shift, mask } from hs)]
  rw [hfield, hadd, hdiv, hmod]
  show some (_ + BitVec.setWidth bits 0#32) = _
  simp_all

theorem foldAnd?_valueAt (hw : IsWidth width) (hv : v.ShiftFits) (h : v.foldAnd? c width = some v') (raw : Word) :
    v'.valueAt? env (valueBits width) raw =
      (v.valueAt? env (valueBits width) raw).bind fun x => Operator.and.computeAt? x (BitVec.ofInt _ c) := by
  unfold foldAnd? at h
  simp only [Option.bind_eq_bind, Option.bind_eq_some_iff, Option.guard_eq_some', exists_const] at h
  obtain ⟨hpost, m, hm, ⟨⟩⟩ := h
  have hbits := valueBits_le hw
  rw [valueAt?_of_mask hbits hpost hv rfl,
    show v.valueAt? env _ raw = _ from valueAt?_of_mask hbits hpost hv (mask_of_constantMask? hw hm) raw,
    ofInt_toNat, BitVec.setWidth_and, setWidth_fullMask hw, BitVec.and_allOnes, BitVec.setWidth_and,
    setWidth_ofInt hbits c, ← BitVec.and_assoc]
  rfl

theorem valueAt?_of_add (hv : v.ShiftFits) (hdiv : v.div = none) (hmod : v.mod = none) {add : Option Expr}
    {x x' : Word} {y : BitVec bits} (hx : env.fieldOr? 0 v.add = some x) (hx' : env.fieldOr? 0 add = some x')
    (hy : x'.setWidth bits = x.setWidth bits + y) (raw : Word) :
    valueAt? env bits { v with add } raw = (v.valueAt? env bits raw).map (· + y) := by
  rw [valueAt?_of_shiftFits (show ShiftFits { v with add } from hv), valueAt?_of_shiftFits hv]
  rw [hdiv, hmod, hx, hx']
  cases env.fieldOr? (BitVec.allOnes 32) v.mask with
  | none => rfl
  | some mask => simp only [Option.bind_some, dividedAt?, hy, Option.map_some, BitVec.add_assoc]

theorem foldAdd?_valueAt (hbits : bits ≤ 32) (hv : v.ShiftFits) (h : v.foldAdd? c = some v') (raw : Word) :
    v'.valueAt? env bits raw = (v.valueAt? env bits raw).map (· + BitVec.ofInt _ c) := by
  unfold foldAdd? at h
  simp only [Option.bind_eq_bind, Option.bind_eq_some_iff, Option.guard_eq_some', exists_const,
    Bool.and_eq_true, Option.isNone_iff_eq_none] at h
  obtain ⟨⟨hdiv, hmod⟩, h⟩ := h
  cases hadd : v.add with
  | none =>
    rw [hadd] at h
    cases h
    refine valueAt?_of_add hv hdiv hmod (by rw [hadd]; rfl) rfl ?_ raw
    simp [setWidth_ofInt hbits]
  | some field =>
    rw [hadd] at h
    cases field <;> cases h
    refine valueAt?_of_add hv hdiv hmod (by rw [hadd]; rfl) rfl ?_ raw
    rw [ofInt_toInt, ofInt_add, BitVec.setWidth_add _ _ hbits, setWidth_ofInt hbits c]

theorem foldDivision?_valueAt (hbits : bits ≤ 32) (hv : v.ShiftFits) {modulo : Bool}
    (h : v.foldDivision? modulo c = some v') (raw : Word) :
    v'.valueAt? env bits raw = (v.valueAt? env bits raw).bind fun x =>
      (if modulo then Operator.modU else Operator.divU).computeAt? x (BitVec.ofInt _ c) := by
  unfold foldDivision? at h
  simp only [Option.bind_eq_bind, Option.bind_eq_some_iff, Option.guard_eq_some', exists_const,
    Bool.and_eq_true, Option.isNone_iff_eq_none] at h
  obtain ⟨⟨⟨-, hdiv⟩, hmod⟩, h⟩ := h
  rw [valueAt?_of_shiftFits hv]
  cases modulo <;> cases h
  all_goals
    rw [valueAt?_of_shiftFits (by exact hv)]
    simp [hdiv, hmod, dividedAt?, Env.field?, setWidth_ofInt hbits, Option.bind_assoc]

/-! ## Right shifts -/

/-- A right shift of a masked value, and the same shift of the variable and of its mask. The two differ if the mask has
bits above the width, where the variable can have them too, that the shift brings below it. -/
theorem shifted_mask_iff (mask : Word) (shift count : Nat) :
    (∀ raw : Word, (raw >>> (shift + count)).setWidth bits &&& (mask >>> count).setWidth bits =
        ((raw >>> shift).setWidth bits &&& mask.setWidth bits) >>> count) ↔
      ∀ i, bits ≤ i → count ≤ i → i < bits + count → shift + i < 32 → mask.getLsbD i = false := by
  constructor
  · intro h i hi hcount hlt hraw
    have hbit := congrArg (BitVec.getLsbD · (i - count)) (h (BitVec.allOnes 32))
    simp only [BitVec.getLsbD_and, BitVec.getLsbD_setWidth, BitVec.getLsbD_ushiftRight, BitVec.getLsbD_allOnes,
      show i - count < bits by omega, show shift + count + (i - count) < 32 by omega,
      show count + (i - count) = i by omega, show ¬i < bits by omega, decide_true, decide_false, Bool.true_and,
      Bool.false_and] at hbit
    exact hbit
  · intro h raw
    ext i hi
    simp only [BitVec.getElem_and, BitVec.getElem_setWidth, BitVec.getElem_ushiftRight, BitVec.getLsbD_and,
      BitVec.getLsbD_setWidth, BitVec.getLsbD_ushiftRight, ← Nat.add_assoc]
    by_cases hlt : count + i < bits
    · simp only [hlt, decide_true, Bool.true_and]
    · -- the bit of the mask was cut off before the shift
      simp only [hlt, decide_false, Bool.false_and]
      by_cases hraw : shift + count + i < 32
      · grind
      simp_all

/-- A right shift can be moved into a read: the sum of the shifts can be written, and the bits of the mask above the
width stay above it. -/
def ShiftMoves (v : VarRead Expr) (c width : Int) : Prop := v.shift + c ≤ maxShift ∧
    ∀ mask, v.constantMask? width = some mask → ∀ i, valueBits width ≤ i → c.toNat ≤ i →
      i < valueBits width + c.toNat → v.shift.toNat + i < 32 → (Word.ofInt mask).getLsbD i = false

theorem foldShift?_valueAt_iff (hw : IsWidth width) (hv : v.ShiftFits) (hc : c < 0x8000000000000000)
    (h : v.foldShift? c width = some v') :
    (∀ raw, v'.valueAt? env (valueBits width) raw =
      (v.valueAt? env (valueBits width) raw).bind fun x => Operator.shrU.computeAt? x (BitVec.ofInt _ c)) ↔
      v.ShiftMoves c width := by
  obtain ⟨hc0, hpost, hmax, m, hm, rfl⟩ := Evaluation.foldShift?_eq_some h
  obtain ⟨h0, h31⟩ := hv
  have hbits := valueBits_le hw
  have hvalue (raw : Word) : v.valueAt? env (valueBits width) raw = _ :=
    valueAt?_of_mask hbits hpost ⟨h0, h31⟩ (mask_of_constantMask? hw hm) raw
  unfold maxShift at hmax h31
  by_cases hsum : v.shift + c < 0x8000000000000000
  · have hwrap : wrap64 (v.shift + c) = v.shift + c := Int.bmod_eq_of_le (by omega) (by omega)
    rw [hwrap] at hmax ⊢
    have hcount : (BitVec.ofInt (valueBits width) c).toNat % 32 = c.toNat := by
      have hpow : 2 ^ 8 ≤ 2 ^ valueBits width := Nat.pow_le_pow_right (by decide) (le_valueBits hw)
      rw [BitVec.toNat_ofInt, Int.emod_eq_of_lt hc0 (by omega)]
      omega
    have hmoves : v.ShiftMoves c width ↔ ∀ i, valueBits width ≤ i → c.toNat ≤ i → i < valueBits width + c.toNat →
        v.shift.toNat + i < 32 → (ofInt m).getLsbD i = false := by
      unfold ShiftMoves maxShift
      simp only [hmax, hm, Option.some.injEq, forall_eq', true_and]
    rw [hmoves, ← shifted_mask_iff]
    refine forall_congr' fun raw => ?_
    rw [hvalue, valueAt?_of_mask hbits hpost ⟨by omega, hmax⟩ rfl, ofInt_toNat,
      show (v.shift + c).toNat = v.shift.toNat + c.toNat by omega, show (min c 32).toNat = c.toNat by omega]
    show some _ = some _ ↔ _
    rw [hcount, Option.some.injEq]
  · -- the sum has wrapped around, and a read with a negative shift has no value
    have hwrap : wrap64 (v.shift + c) < 0 := by
      unfold wrap64
      rw [Int.bmod_def]
      omega
    refine iff_of_false (fun heq => ?_) fun hmoves => ?_
    · have hnone := (heq 0).symm
      rw [hvalue, valueAt?, guard, if_neg fun hfits => absurd hfits.1 (Int.not_le.mpr hwrap)] at hnone
      cases hnone
    · have := hmoves.1
      unfold maxShift at this
      omega

/-- **Moving an operation with a constant into a read is exact at every width**, up to right shifts. For these it is
exact if and only if the shift can be moved. -/
theorem foldInto?_valueAt (hw : IsWidth width) (hv : v.ShiftFits) {op : Operator} (hc : c < 0x8000000000000000)
    (h : v.foldInto? op (.const c) width = some v') :
    (∀ raw, v'.valueAt? env (valueBits width) raw =
      (v.valueAt? env (valueBits width) raw).bind fun x => op.computeAt? x (BitVec.ofInt _ c)) ↔
      (op = .shrU → v.ShiftMoves c width) := by
  unfold foldInto? at h
  cases op <;> simp only [Expr.constant?, reduceCtorEq] at h
  case shrU =>
    rw [foldShift?_valueAt_iff hw hv hc h]
    exact ⟨fun hmoves _ => hmoves, fun hmoves => hmoves rfl⟩
  all_goals
    refine iff_of_true (fun raw => ?_) fun hop => by cases hop
  case and => exact foldAnd?_valueAt hw hv h raw
  case divU => exact foldDivision?_valueAt (valueBits_le hw) hv h raw
  case modU => exact foldDivision?_valueAt (valueBits_le hw) hv h raw
  case add =>
    rw [foldAdd?_valueAt (valueBits_le hw) hv h raw, Option.map_eq_bind]
    rfl
  case sub =>
    rw [foldAdd?_valueAt (valueBits_le hw) hv h raw, Option.map_eq_bind, ← setWidth_ofInt (valueBits_le hw),
      Word.ofInt_wrap64, setWidth_ofInt (valueBits_le hw), BitVec.ofInt_neg]
    simp only [← BitVec.sub_eq_add_neg]
    rfl

/-- In a table of bytes, a shift by one brings the ninth bit of a mask below the width, and a shift of a mask that fits
does not. -/
theorem foldInto?_valueAt_bytes :
    let wide : VarRead Expr := { num := 0x40, mask := some (.const 0x1FF) }
    let wide' : VarRead Expr := { num := 0x40, shift := 1, mask := some (.const 0xFF) }
    let fits : VarRead Expr := { num := 0x40, shift := 2, mask := some (.const 0xF0) }
    let fits' : VarRead Expr := { num := 0x40, shift := 5, mask := some (.const 0x1E) }
    wide.foldInto? .shrU (.const 1) 1 = some wide' ∧ fits.foldInto? .shrU (.const 3) 1 = some fits' ∧
      (∀ env, ¬∀ raw, wide'.valueAt? env 8 raw =
        (wide.valueAt? env 8 raw).bind fun x => Operator.shrU.computeAt? x (BitVec.ofInt _ 1)) ∧
      ∀ env raw, fits'.valueAt? env 8 raw =
        (fits.valueAt? env 8 raw).bind fun x => Operator.shrU.computeAt? x (BitVec.ofInt _ 3) := by
  intro wide wide' fits fits'
  refine ⟨rfl, rfl, fun env hexact => ?_, fun env => ?_⟩
  · have hmoves := (foldInto?_valueAt (v := wide) (Or.inl rfl) (by decide) (by decide) rfl).mp hexact rfl
    exact absurd (hmoves.2 0x1FF rfl 8) (by decide)
  · refine (foldInto?_valueAt (v := fits) (Or.inl rfl) (by decide) (by decide) rfl).mpr fun _ => ⟨by decide, ?_⟩
    rintro mask ⟨⟩ i hi - hlt -
    obtain rfl | rfl | rfl : i = 8 ∨ i = 9 ∨ i = 10 := by
      unfold valueBits at hi hlt
      omega
    all_goals rfl

end VarRead

end Grf
