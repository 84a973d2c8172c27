import Grf.Expr.Simplify
import Grf.Proofs.Expr.Value

/-! # The table form of an expression has its value

`Expr.fold` and `Expr.forTable` keep the value of an expression (`Expr.value?_fold`, `Expr.value?_forTable`), up to
numbers that are larger than words:

* A negated constant is compared with zero as a number of 64 bits. It has to be zero if its word is
  (`Expr.NegationsFit`).
* A shift that is folded into a read is added to the shift of the read in 64 bits. The sum has to be less than
  `2 ^ 63` (`Expr.ShiftsFit`).
-/

namespace Grf

open Word VarRead Operator

/-! ## Words -/

variable {c : Int} {op : Operator} {e : Expr}

namespace Word

variable {l r : Word}

theorem ofInt_wrap64 (v : Int) : ofInt (wrap64 v) = ofInt v := by
  apply BitVec.eq_of_toInt_eq
  unfold ofInt wrap64
  rw [BitVec.toInt_ofInt, BitVec.toInt_ofInt]
  exact Int.bmod_bmod_of_dvd (by decide)

theorem ofInt_add (a b : Int) : ofInt (a + b) = ofInt a + ofInt b := BitVec.ofInt_add a b

theorem ofInt_neg (a : Int) : ofInt (-a) = -ofInt a := BitVec.ofInt_neg

theorem ofInt_fullMask : ofInt (fullMask 4) = BitVec.allOnes 32 := by decide

theorem toNat_ofInt_of_lt (h0 : 0 ≤ c) (h1 : c < 0x100000000) : (ofInt c).toNat = c.toNat := by
  unfold ofInt
  rw [BitVec.toNat_ofInt]
  omega

theorem slt_trichotomy (l r : Word) : (l.slt r = true ∧ (l == r) = false ∧ r.slt l = false) ∨
      (l.slt r = false ∧ (l == r) = true ∧ r.slt l = false) ∨
      (l.slt r = false ∧ (l == r) = false ∧ r.slt l = true) := by
  have heq : (l == r) = true ↔ l.toInt = r.toInt := by rw [beq_iff_eq, BitVec.toInt_inj]
  have hlt : l.slt r = true ↔ l.toInt < r.toInt := BitVec.slt_iff_toInt_lt
  have hgt : r.slt l = true ↔ r.toInt < l.toInt := BitVec.slt_iff_toInt_lt
  simp only [← Bool.not_eq_true, heq, hlt, hgt]
  omega

theorem threeWay_and_one : threeWay (l.slt r) (l == r) &&& ofInt 1 = ofBool (l == r) := by
  rcases slt_trichotomy l r with ⟨h, h', -⟩ | ⟨h, h', -⟩ | ⟨h, h', -⟩ <;> rw [h, h'] <;> decide

theorem threeWay_minU_one : (if threeWay (l.slt r) (l == r) ≤ ofInt 1 then threeWay (l.slt r) (l == r) else ofInt 1)
      = ofBool (r.sle l) := by
  rw [BitVec.sle_eq_not_slt]
  rcases slt_trichotomy l r with ⟨h, h', -⟩ | ⟨h, h', -⟩ | ⟨h, h', -⟩ <;> rw [h, h'] <;> decide

theorem threeWay_shrU_one : threeWay (l.slt r) (l == r) >>> ((ofInt 1).toNat % 32) = ofBool (r.slt l) := by
  rcases slt_trichotomy l r with ⟨h, h', h''⟩ | ⟨h, h', h''⟩ | ⟨h, h', h''⟩ <;> rw [h, h', h''] <;> decide

theorem ofBool_xor_one (b : Bool) : ofBool b ^^^ ofInt 1 = ofBool (!b) := by
  cases b <;> decide

theorem shiftRight_and_one : l >>> (r.toNat % 32) &&& ofInt 1 = ofBool (testBit l r) := by
  apply BitVec.eq_of_toNat_eq
  have hbit : ∀ b : Bool, (ofBool b).toNat = b.toNat := by decide
  rw [hbit, testBit, BitVec.getLsbD, BitVec.toNat_and, BitVec.toNat_ushiftRight,
    show (ofInt 1).toNat = 1 by decide, Nat.and_one_is_mod, Nat.toNat_testBit,
    Nat.shiftRight_eq_div_pow]

end Word

theorem Operator.tableValue?_comm (h : op.isCommutative = true) (l r : Word) :
    op.tableValue? l r = op.tableValue? r l := by
  cases op <;> cases h
  case add => exact congrArg some (BitVec.add_comm l r)
  case mul => exact congrArg some (BitVec.mul_comm l r)
  case and => exact congrArg some (BitVec.and_comm l r)
  case or => exact congrArg some (BitVec.or_comm l r)
  case xor => exact congrArg some (BitVec.xor_comm l r)
  case eq => exact congrArg (some <| ofBool ·) (BEq.comm ..)
  case ne => exact congrArg (some <| ofBool !·) (BEq.comm ..)
  case min =>
    simp only [tableValue?, compute?, BitVec.sle_iff_toInt_le]
    split_ifs <;> first | rfl | exact congrArg some (BitVec.toInt_inj.mp (by omega))
  case max =>
    simp only [tableValue?, compute?, BitVec.sle_iff_toInt_le]
    split_ifs <;> first | rfl | exact congrArg some (BitVec.toInt_inj.mp (by omega))
  case minU =>
    simp only [tableValue?, compute?]
    split_ifs <;> first | rfl | exact congrArg some (BitVec.toNat_inj.mp (by bv_omega))
  case maxU =>
    simp only [tableValue?, compute?]
    split_ifs <;> first | rfl | exact congrArg some (BitVec.toNat_inj.mp (by bv_omega))

namespace Expr

theorem constant?_eq_some : e.constant? = some c ↔ e = const c := by
  cases e <;> simp [constant?]

theorem foldBinary_cases (op : Operator) (l r : Expr) : foldBinary op l r = binary op l r ∨
      ∃ a b w, l = const a ∧ r = const b ∧ op.compute? (ofInt a) (ofInt b) = some w ∧
        foldBinary op l r = const w.toInt := by
  unfold foldBinary
  cases hl : l.constant? with
  | none => exact .inl rfl
  | some a =>
    cases hr : r.constant? with
    | none => exact .inl rfl
    | some b =>
      cases hw : op.compute? (ofInt a) (ofInt b) with
      | none => exact .inl (by simp [eval?, hw])
      | some w => exact .inr ⟨a, b, w, constant?_eq_some.mp hl, constant?_eq_some.mp hr, hw, by simp [eval?, hw]⟩

/-- What is true of an operation on folded operands and of all words is true of the folded operation. -/
theorem fold_binary_of {P : Expr → Prop} {l r : Expr} (h : P (binary op l.fold r.fold))
    (hword : ∀ w : Word, P (const w.toInt)) : P (binary op l r).fold := by
  rw [fold]
  rcases foldBinary_cases op l.fold r.fold with hf | ⟨a, b, w, -, -, -, hf⟩
  · rwa [hf]
  · rw [hf]
    exact hword w

theorem fold_not_of {P : Expr → Prop} (h : P (not e.fold)) (hconst : ∀ k, P (const k)) : P (not e).fold := by
  grind [fold, foldNot]

end Expr

namespace VarRead

def divided? (field : Expr → Option Word) (div mod : Option Expr) (value : Word) : Option Word :=
  match div, mod with
  | none, none => some value
  | some d, none => (field d).bind (Operator.divU.compute? value)
  | none, some m => (field m).bind (Operator.modU.compute? value)
  | some _, some _ => none

/-- What a read makes of the raw value of its variable, by the meaning of shifts and of fields. -/
def adjustBy? (shifted : Word → Int → Option Word) (field : Expr → Option Word) (v : VarRead Expr) (raw : Word) :
    Option Word :=
  (shifted raw v.shift).bind fun s => (v.mask.elim (some (BitVec.allOnes 32)) field).bind fun mask =>
    (v.add.elim (some 0) field).bind fun add => divided? field v.div v.mod ((s &&& mask) + add)

end VarRead

/-- Values of expressions. Those of operations and of variable reads follow from those of their parts, and
all others are free. A shift that cannot be written may have any meaning, or none. -/
structure Evaluation where
  value : Expr → Option Word
  field : Expr → Option Word
  raw : Int → Option Expr → Option Word
  shifted : Word → Int → Option Word
  value_const : ∀ c, value (.const c) = some (Word.ofInt c)
  value_binary : ∀ op l r, value (.binary op l r) = (value l).bind fun a => (value r).bind fun b => op.tableValue? a b
  value_var : ∀ v, value (.var v) = (raw v.num v.param).bind (v.adjustBy? shifted field)
  field_const : ∀ c, field (.const c) = some (Word.ofInt c)
  field_paramAt : ∀ n, field (.paramAt n) = value (.paramAt n)
  shifted_eq : ∀ w k, 0 ≤ k → k ≤ VarRead.maxShift → shifted w k = some (w >>> k.toNat)

namespace Evaluation

variable {E : Evaluation} {v v' : VarRead Expr}

/-! ### Operations in the fields of a variable read -/

abbrev adjust (E : Evaluation) : VarRead Expr → Word → Option Word := VarRead.adjustBy? E.shifted E.field

theorem mask_of_constantMask? {m : Int} (h : v.constantMask? 4 = some m) :
    v.mask.elim (some (BitVec.allOnes 32)) E.field = some (ofInt m) := by
  unfold constantMask? at h
  cases hm : v.mask with
  | none =>
    rw [hm] at h
    cases h
    rfl
  | some mask =>
    rw [hm] at h
    obtain rfl := Expr.constant?_eq_some.mp h
    exact E.field_const m

theorem adjust_of_mask {shift : Int} {mask : Option Expr} {m : Word} (hpost : (!v.hasPostOp) = true)
    (hm : mask.elim (some (BitVec.allOnes 32)) E.field = some m) (raw : Word) :
    E.adjust { v with shift, mask } raw = (E.shifted raw shift).map (· &&& m) := by
  obtain ⟨hadd, hdiv, hmod⟩ : v.add = none ∧ v.div = none ∧ v.mod = none := by
    simpa [hasPostOp, and_assoc] using hpost
  unfold adjust adjustBy?
  rw [hm, hadd, hdiv, hmod]
  cases E.shifted raw shift <;> simp [divided?]

theorem adjust_of_constant {shift k : Int} (hpost : (!v.hasPostOp) = true) (raw : Word) :
    E.adjust { v with shift, mask := some (.const k) } raw = (E.shifted raw shift).map (· &&& ofInt k) := by
  have hk : (some (Expr.const k)).elim (some (BitVec.allOnes 32)) E.field = some (ofInt k) := E.field_const k
  exact adjust_of_mask hpost hk raw

/-- The read `v'` is the read `v` with an operation on its value added, which makes `f` of the
value. -/
structure Folded (E : Evaluation) (v v' : VarRead Expr) (f : Word → Option Word) : Prop where
  num : v'.num = v.num
  arg : v'.param = v.param
  adjust : ∀ raw, E.adjust v' raw = (E.adjust v raw).bind f

theorem foldAnd?_folded (h : v.foldAnd? c 4 = some v') : E.Folded v v' fun x => some (x &&& ofInt c) := by
  unfold foldAnd? at h
  simp only [Option.bind_eq_bind, Option.bind_eq_some_iff, Option.guard_eq_some', exists_const] at h
  obtain ⟨hpost, m, hm, ⟨⟩⟩ := h
  refine ⟨rfl, rfl, fun raw => ?_⟩
  refine (adjust_of_constant hpost raw).trans ?_
  rw [show E.adjust v raw = _ from adjust_of_mask hpost (mask_of_constantMask? hm) raw]
  simp only [ofInt_toNat, ofInt_fullMask, BitVec.and_allOnes]
  cases E.shifted raw v.shift with
  | none => rfl
  | some s => simp [BitVec.and_assoc]

theorem foldShift?_eq_some {width : Int} (h : v.foldShift? c width = some v') : 0 ≤ c ∧ (!v.hasPostOp) = true ∧
    wrap64 (v.shift + c) ≤ maxShift ∧ ∃ m, v.constantMask? width = some m ∧ v' = { v with
        shift := wrap64 (v.shift + c), mask := some (.const (ofInt m >>> (min c 32).toNat).toNat) } := by
  unfold foldShift? at h
  simp only [Option.bind_eq_bind, Option.bind_eq_some_iff, Option.guard_eq_some', exists_const,
    Bool.and_eq_true, decide_eq_true_eq] at h
  obtain ⟨⟨⟨hc, hpost⟩, hmax⟩, m, hm, h⟩ := h
  exact ⟨hc, hpost, hmax, m, hm, (Option.some.inj h).symm⟩

theorem foldShift?_folded (h : v.foldShift? c 4 = some v') (h0 : 0 ≤ v.shift) (h63 : v.shift + c < 0x8000000000000000) :
    E.Folded v v' fun x => some (x >>> ((ofInt c).toNat % 32)) := by
  obtain ⟨hc, hpost, hmax, m, hm, rfl⟩ := foldShift?_eq_some h
  have hwrap : wrap64 (v.shift + c) = v.shift + c := by
    grind [wrap64]
  rw [hwrap] at hmax ⊢
  have hsum : v.shift + c ≤ 31 := hmax
  have hcount : (ofInt c).toNat % 32 = c.toNat := by
    rw [toNat_ofInt_of_lt hc (by omega)]
    omega
  refine ⟨rfl, rfl, fun raw => ?_⟩
  refine (adjust_of_constant hpost raw).trans ?_
  rw [show E.adjust v raw = _ from adjust_of_mask hpost (mask_of_constantMask? hm) raw,
    E.shifted_eq raw _ h0 (show v.shift ≤ 31 by omega), E.shifted_eq raw (v.shift + c) (by omega) hmax]
  simp only [ofInt_toNat, Option.map_some, Option.bind_some, hcount]
  rw [show (v.shift + c).toNat = v.shift.toNat + c.toNat by omega,
    show (min c 32).toNat = c.toNat by omega, BitVec.shiftRight_add, BitVec.ushiftRight_and_distrib]

theorem folded_of_add {add : Option Expr} {f : Option Word} (hdiv : v.div = none) (hmod : v.mod = none)
    (hf : add.elim (some 0) E.field = (v.add.elim (some 0) E.field).bind fun a => f.map (a + ·)) :
    E.Folded v { v with add } fun x => f.map (x + ·) := by
  refine ⟨rfl, rfl, fun raw => ?_⟩
  unfold adjust adjustBy?
  rw [hf, hdiv, hmod]
  cases E.shifted raw v.shift with
  | none => rfl
  | some s =>
    cases v.mask.elim (some (BitVec.allOnes 32)) E.field with
    | none => rfl
    | some mask =>
      cases v.add.elim (some 0) E.field with
      | none => rfl
      | some a => cases f <;> simp [divided?, BitVec.add_assoc]

theorem foldAdd?_folded (h : v.foldAdd? c = some v') : E.Folded v v' fun x => some (x + ofInt c) := by
  unfold foldAdd? at h
  simp only [Option.bind_eq_bind, Option.bind_eq_some_iff, Option.guard_eq_some', exists_const,
    Bool.and_eq_true, Option.isNone_iff_eq_none] at h
  obtain ⟨⟨hdiv, hmod⟩, h⟩ := h
  cases hadd : v.add with
  | none =>
    rw [hadd] at h
    cases h
    exact folded_of_add (f := some (ofInt c)) hdiv hmod (by simp [hadd, E.field_const])
  | some field =>
    rw [hadd] at h
    cases field <;> cases h
    refine folded_of_add (f := some (ofInt c)) hdiv hmod ?_
    simp only [hadd, Option.elim_some, E.field_const, ofInt_toInt, ofInt_add]
    rfl

theorem foldAddParam?_folded {operand : Expr} (h : v.foldAddParam? operand = some v') :
    E.Folded v v' fun x => (E.value operand).map (x + ·) := by
  unfold foldAddParam? at h
  simp only [Option.bind_eq_bind, Option.bind_eq_some_iff, Option.guard_eq_some', exists_const,
    Bool.and_eq_true, Option.isNone_iff_eq_none] at h
  obtain ⟨⟨⟨⟨hdiv, hmod⟩, hadd⟩, hparam⟩, ⟨⟩⟩ := h
  obtain ⟨n, rfl⟩ : ∃ n, operand = Expr.paramAt n := by
    unfold Expr.paramNumber? at hparam
    split at hparam
    · exact ⟨_, rfl⟩
    · cases hparam
  exact folded_of_add hdiv hmod (by simp [hadd, E.field_paramAt])

theorem foldDivision?_folded {modulo : Bool} (h : v.foldDivision? modulo c = some v') : E.Folded v v' fun x =>
      (if modulo then modU else divU).compute? x (ofInt c) := by
  unfold foldDivision? at h
  simp only [Option.bind_eq_bind, Option.bind_eq_some_iff, Option.guard_eq_some', exists_const,
    Bool.and_eq_true, Option.isNone_iff_eq_none] at h
  obtain ⟨⟨⟨-, hdiv⟩, hmod⟩, h⟩ := h
  cases modulo <;> cases h <;> refine ⟨rfl, rfl, fun raw => ?_⟩
  all_goals
    simp [adjustBy?, hdiv, hmod, divided?, E.field_const, Option.bind_assoc]

def KeepsShift (E : Evaluation) (left right : Expr) : Prop :=
  ∀ v v' c, left = .var v → right = .const c → v.foldShift? c 4 = some v' →
    E.Folded v v' fun x => some (x >>> ((Word.ofInt c).toNat % 32))

theorem foldInto?_folded {operand : Expr} (h : v.foldInto? op operand 4 = some v')
    (hshift : op = .shrU → E.KeepsShift (.var v) operand) :
    E.Folded v v' fun x => (E.value operand).bind fun y => op.tableValue? x y := by
  unfold foldInto? at h
  split at h
  case h_4 =>
    have hadd : E.Folded v v' _ := foldAddParam?_folded h
    simp only [Option.map_eq_bind] at hadd
    exact hadd
  case h_8 => cases h
  all_goals
    rename_i c hc
    obtain rfl := Expr.constant?_eq_some.mp hc
    simp only [E.value_const, Option.bind_some]
  case h_1 => exact foldAnd?_folded h
  case h_2 => exact foldAdd?_folded h
  case h_3 =>
    have hsub : E.Folded v v' _ := foldAdd?_folded h
    simp only [ofInt_wrap64, ofInt_neg, ← BitVec.sub_eq_add_neg] at hsub
    exact hsub
  case h_5 => exact foldDivision?_folded h
  case h_6 => exact foldDivision?_folded h
  case h_7 => exact hshift rfl v v' c rfl rfl h

/-! ### Table operations -/

open Grf.Expr

variable {op : Operator} {l r : Expr}

theorem value_foldBinary (op : Operator) (l r : Expr) : E.value (foldBinary op l r) = E.value (binary op l r) := by
  rcases foldBinary_cases op l r with h | ⟨a, b, w, rfl, rfl, hw, h⟩
  · rw [h]
  · simp [h, E.value_binary, E.value_const, tableValue?_of_compute? hw]

theorem value_folded {f : Word → Option Word} (h : E.Folded v v' f) : E.value (var v') = (E.value (var v)).bind f := by
  rw [E.value_var, E.value_var, h.num, h.arg, Option.bind_assoc]
  exact congrArg _ (funext h.adjust)

theorem value_constantRight (op : Operator) (l r : Expr) :
    E.value (binary op (constantRight op l r).1 (constantRight op l r).2) = E.value (binary op l r) := by
  unfold constantRight
  split
  · rename_i h
    simp only [Bool.and_eq_true] at h
    rw [E.value_binary, E.value_binary]
    cases E.value l <;> cases E.value r <;> try rfl
    exact tableValue?_comm h.1.1 ..
  · rfl

theorem value_tableOp (h : op = .shrU → E.KeepsShift l r) : E.value (tableOp 4 op l r) = E.value (binary op l r) := by
  have hfold : E.value (foldBinary op l r) = _ := value_foldBinary op l r
  unfold tableOp
  split
  case h_1 c hc => rw [← hfold, hc]
  case h_2 =>
    rw [← value_constantRight]
    have h' : op = .shrU → E.KeepsShift (constantRight op l r).1 (constantRight op l r).2 := by
      rintro rfl
      exact h rfl
    generalize constantRight op l r = operands at h'
    obtain ⟨l, r⟩ := operands
    cases l with
    | var v =>
      cases hv : v.foldInto? op r 4 with
      | none => simp [hv]
      | some v' => grind [value_folded, foldInto?_folded, E.value_binary]
    | _ => rfl

theorem value_tableOp_of_ne (h : op ≠ .shrU) : E.value (tableOp 4 op l r) = E.value (binary op l r) :=
  value_tableOp fun hop => absurd hop h

theorem value_bitTest (h : E.KeepsShift l r) : E.value (bitTest 4 l r) = E.value (binary .hasBit l r) := by
  unfold bitTest
  rw [value_tableOp_of_ne (by decide), E.value_binary, value_tableOp fun _ => h, E.value_binary,
    E.value_binary, E.value_const]
  cases E.value l <;> cases E.value r <;> try rfl
  exact congrArg some shiftRight_and_one

theorem value_xor_one {l r : Option Word} {test : Word → Word → Bool}
    (h : E.value e = l.bind fun a => r.bind fun b => some (ofBool (test a b))) :
    E.value (tableOp 4 .xor e (const 1)) = l.bind fun a => r.bind fun b => some (ofBool (!test a b)) := by
  rw [value_tableOp_of_ne (by decide), E.value_binary, h, E.value_const]
  cases l <;> cases r <;> try rfl
  exact congrArg some (ofBool_xor_one _)

theorem value_cmp_one (op : Operator) {f : Word → Word → Word}
    (h : ∀ a b : Word, op.tableValue? (threeWay (a.slt b) (a == b)) (ofInt 1) = some (f a b)) :
    E.value (tableOp 4 op (binary .cmp l r) (const 1)) =
      (E.value l).bind fun a => (E.value r).bind fun b => some (f a b) := by
  have hread : E.KeepsShift (binary .cmp l r) (const 1) := by
    rintro v _ _ ⟨⟩
  rw [value_tableOp fun _ => hread, E.value_binary, E.value_binary, E.value_const]
  cases E.value l <;> cases E.value r <;> try rfl
  exact h _ _

theorem value_tableTest (h : op = .shrU ∨ op = .hasBit ∨ op = .notHasBit → E.KeepsShift l r) :
    E.value (tableTest 4 op l r) = E.value (binary op l r) := by
  have heq := value_cmp_one .and (E := E) (l := l) (r := r) fun a b => congrArg some (threeWay_and_one)
  have hge := value_cmp_one .minU (E := E) (l := l) (r := r) fun a b => congrArg some (threeWay_minU_one)
  have hgt := value_cmp_one .shrU (E := E) (l := l) (r := r) fun a b => congrArg some (threeWay_shrU_one)
  cases op
  case eq => exact heq.trans (E.value_binary .eq l r).symm
  case ge => exact hge.trans (E.value_binary .ge l r).symm
  case gt => exact hgt.trans (E.value_binary .gt l r).symm
  case hasBit => exact value_bitTest (h (by decide))
  case notHasBit =>
    have hbit := (value_bitTest (h (by decide))).trans (E.value_binary .hasBit l r)
    exact (value_xor_one hbit).trans (E.value_binary .notHasBit l r).symm
  case ne => exact (value_xor_one heq).trans (E.value_binary .ne l r).symm
  case lt =>
    refine (value_xor_one hge).trans ((E.value_binary .lt l r).trans ?_).symm
    simp only [BitVec.sle_eq_not_slt, Bool.not_not]
    rfl
  case le =>
    refine (value_xor_one hgt).trans ((E.value_binary .le l r).trans ?_).symm
    simp only [← BitVec.sle_eq_not_slt]
    rfl
  case shrU => exact value_tableOp fun _ => h (by decide)
  all_goals exact value_tableOp_of_ne (by decide)

/-- **An operation on simplified operands keeps its value**, if shifts do that are folded into reads. -/
theorem value_simplifyBinary (h : op = .shrU ∨ op = .hasBit ∨ op = .notHasBit → E.KeepsShift l r) :
    E.value (simplifyBinary 4 op l r) = E.value (binary op l r) := by
  have hfold : E.value (foldBinary op l r) = _ := value_foldBinary op l r
  unfold simplifyBinary
  split
  case h_1 c hc => rw [← hfold, hc]
  case h_2 =>
    rw [← value_constantRight op l r]
    have h' : op = .shrU ∨ op = .hasBit ∨ op = .notHasBit →
        E.KeepsShift (constantRight op l r).1 (constantRight op l r).2 := by
      intro hop
      -- no operator that shifts has its operands exchanged
      have hcomm : op.isCommutative = false := by rcases hop with rfl | rfl | rfl <;> rfl
      grind [constantRight]
    exact value_tableTest h'

end Evaluation

namespace VarRead

variable {env : Env} {v : VarRead Expr} {raw : Word}

end VarRead

namespace Expr

variable {env : Env}

def argValue? (env : Env) (arg : Option Expr) : Option (Option Word) :=
  match arg with
  | none => some none
  | some arg => (arg.value? env).map some

theorem value?_var (v : VarRead Expr) : (var v).value? env = (argValue? env v.param).bind (v.read? env) := by
  obtain ⟨num, arg, shift, mask, add, div, mod⟩ := v
  cases arg with
  | none => rfl
  | some arg =>
    simp only [value?, argValue?]
    cases arg.value? env <;> rfl

end Expr

/-- The values of expressions in an environment. Only shifts that can be written have a meaning. -/
def Env.evaluation (env : Env) : Evaluation where
  value := Expr.value? env
  field := env.field?
  raw num arg := (Expr.argValue? env arg).bind (env.raw? num)
  shifted w k := if 0 ≤ k ∧ k ≤ VarRead.maxShift then some (w >>> k.toNat) else none
  value_const _ := rfl
  value_binary _ _ _ := rfl
  value_var v := by
    have hadjust : v.adjust? env = v.adjustBy? (fun w k =>
        if 0 ≤ k ∧ k ≤ VarRead.maxShift then some (w >>> k.toNat) else none) env.field? := by
      funext raw
      unfold VarRead.adjust?
      by_cases hs : v.ShiftFits
      · rw [guard, if_pos hs, VarRead.adjustBy?, if_pos (show 0 ≤ v.shift ∧ _ from hs)]
        cases v.mask <;> cases v.add <;> cases v.div <;> cases v.mod <;> rfl
      · rw [guard, if_neg hs, VarRead.adjustBy?, if_neg (show ¬(0 ≤ v.shift ∧ _) from hs)]
        rfl
    rw [Expr.value?_var, Option.bind_assoc, ← hadjust]
    rfl
  field_const _ := rfl
  field_paramAt _ := rfl
  shifted_eq _ _ h0 h1 := if_pos ⟨h0, h1⟩

namespace Expr

variable {env : Env} (op) (l r : Expr)

theorem value?_binary :
    (binary op l r).value? env = (l.value? env).bind fun a => (r.value? env).bind fun b => op.tableValue? a b := rfl

theorem value?_foldBinary : (foldBinary op l r).value? env = (binary op l r).value? env :=
  env.evaluation.value_foldBinary op l r

/-- The negated constants of an expression are zero if their words are. -/
def NegationsFit : Expr → Prop
  | binary _ left right => left.NegationsFit ∧ right.NegationsFit
  | not operand => operand.NegationsFit ∧ ∀ c, operand.fold = const c → Word.ofInt c = 0 → c = 0
  | param number => number.NegationsFit
  | var ⟨_, some arg, _, _, _, _, _⟩ => arg.NegationsFit
  | _ => True
termination_by structural e => e

theorem value?_foldNot (h : ∀ c, e = const c → ofInt c = 0 → c = 0) : (foldNot e).value? env = (not e).value? env := by
  unfold foldNot
  cases he : e.constant? with
  | none => rfl
  | some c =>
    obtain rfl := constant?_eq_some.mp he
    have hzero : ofInt c = 0 ↔ c = 0 := ⟨h c rfl, by rintro rfl; rfl⟩
    by_cases hc : c = 0
    · subst hc
      rfl
    · have hword : (ofInt c == 0) = false := by simpa [hc] using hzero
      simp only [value?, Option.map_some, hword, if_neg hc]
      rfl

/-- **Folding keeps the value.** -/
theorem value?_fold (h : e.NegationsFit) : e.fold.value? env = e.value? env := by
  induction e using byParts with
  | const | string | record | bare | store | load => rfl
  | param number ih =>
    simp only [fold, value?]
    rw [ih h]
  | binary op left right ihl ihr =>
    simp only [fold]
    rw [value?_foldBinary, value?_binary, value?_binary, ihl h.1, ihr h.2]
  | not operand ih =>
    simp only [fold]
    rw [value?_foldNot h.2]
    simp only [value?]
    rw [ih h.1]
  | var num arg shift mask add div mod ih =>
    simp only [fold, value?]
    rw [ih h]
    rfl

theorem fold_fold (e : Expr) : e.fold.fold = e.fold := by
  induction e using byParts with
  | const | string | record | bare | store | load => rfl
  | param number ih => simp only [fold, ih]
  | var num arg shift mask add div mod ih => simp only [fold, ih]
  | binary op left right ihl ihr =>
    simp only [fold]
    rcases foldBinary_cases op left.fold right.fold with h | ⟨a, b, w, -, -, -, h⟩
    · rw [h, fold, ihl, ihr, h]
    · rw [h]
      rfl
  | not operand ih =>
    simp only [fold, foldNot]
    cases ho : operand.fold.constant? with
    | none => simp only [fold, foldNot, ih, ho]
    | some c => rfl

end Expr

/-- The condition under which a shift can be folded into a read: the sum of the shifts is a number of
64 bits. -/
def VarRead.ShiftAdds (op : Operator) (v : VarRead Expr) (operand : Expr) : Prop :=
  op = .shrU → ∀ c, operand = .const c → 0 ≤ v.shift ∧ v.shift + c < 0x8000000000000000

namespace Expr

variable {env : Env} {op : Operator} {e l r : Expr}

/-- The condition under which a shift of simplified operands keeps its value. -/
def ShiftAdds (op : Operator) (left right : Expr) : Prop := ∀ v, left = var v → v.ShiftAdds op right

/-- The condition under which an operation on simplified operands keeps its value: the bit tests shift
as well. -/
def TestShiftAdds (op : Operator) (left right : Expr) : Prop :=
  op = .shrU ∨ op = .hasBit ∨ op = .notHasBit → ShiftAdds .shrU left right

theorem value?_simplifyBinary (h : TestShiftAdds op l r) :
    (simplifyBinary 4 op l r).value? env = (binary op l r).value? env :=
  env.evaluation.value_simplifyBinary fun hop v _ c hl hr hfold =>
    have hadds := h hop v hl rfl c hr
    Evaluation.foldShift?_folded hfold hadds.1 hadds.2

/-- The shifts of a folded expression by constants add up to numbers of 64 bits with the shifts of the
variables they are folded into. -/
def ShiftsFit : Expr → Prop
  | binary op left right => left.ShiftsFit ∧ right.ShiftsFit ∧ TestShiftAdds op (left.simplify 4) (right.simplify 4)
  | not operand => operand.ShiftsFit
  | var ⟨_, some arg, _, _, _, _, _⟩ => arg.ShiftsFit
  | _ => True
termination_by structural e => e

theorem fold_binary_eq (h : (binary op l r).fold = binary op l r) : l.fold = l ∧ r.fold = r := by
  simp only [fold] at h
  rcases foldBinary_cases op l.fold r.fold with h' | ⟨a, b, w, -, -, -, h'⟩
  · grind
  · rw [h'] at h
    cases h

theorem fold_not_eq (h : (not e).fold = not e) : e.fold = e := by
  grind [fold, foldNot]

/-- **The operations of decision tables keep the value of a folded expression.** -/
theorem value?_simplify (hfold : e.fold = e) (h : e.ShiftsFit) : (e.simplify 4).value? env = e.value? env := by
  induction e using byParts with
  | const | string | record | bare | store | load => rfl
  | param number => rw [show (param number).simplify 4 = (param number).fold from rfl, hfold]
  | binary op left right ihl ihr =>
    obtain ⟨hl, hr⟩ := fold_binary_eq hfold
    simp only [simplify]
    rw [value?_simplifyBinary h.2.2, value?_binary, value?_binary, ihl hl h.1, ihr hr h.2.1]
  | not operand ih =>
    simp only [simplify]
    rw [value?_simplifyBinary fun hop => by simp at hop, value?_binary, ih (fold_not_eq hfold) h]
    simp only [value?]
    cases operand.value? env <;> rfl
  | var num arg shift mask add div mod ih =>
    have harg : arg.fold = arg := by
      injection hfold with hfold
      grind
    simp only [simplify, value?]
    rw [ih harg h]
    rfl

/-- **The table form of an expression has its value.** -/
theorem value?_forTable (hnot : e.NegationsFit) (hshift : e.fold.ShiftsFit) :
    (e.forTable 4).value? env = e.value? env := by
  unfold forTable
  rw [value?_simplify (fold_fold e) hshift, value?_fold hnot]

end Expr

end Grf
