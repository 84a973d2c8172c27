import Grf.Proofs.Record.Numbers
import Grf.Proofs.Record.Sizes

/-! # The bytes of operand streams

An operand of a decision table is written as the number of its variable, the parameter, a byte with the shift and the
flags, the mask, and what is added and divided by. `TableOperand` holds these numbers, and a stream is written as a chain
of them with an operator before each but the first one (`streamTokens_chain`).
-/

namespace Grf

open List Token

/-- What is added to a value, and what it is divided by or reduced with. -/
structure PostOp where
  modulo : Bool
  add : Int
  divisor : Int
deriving DecidableEq

/-- The numbers of an operand. -/
structure TableOperand where
  num : Int
  param : Option Int := none
  shift : Int := 0
  mask : Int
  post : Option PostOp := none
deriving DecidableEq

namespace TableOperand

def flags (o : TableOperand) (last : Bool) : Int :=
  o.shift + (o.post.elim 0 fun p => if p.modulo then VarRead.modFlag else VarRead.divFlag : Nat) +
    (if last then 0 else VarRead.chainedFlag : Nat)

def bytes (width : Int) (last : Bool) (o : TableOperand) : List UInt8 :=
  numberBytes 1 o.num ++ o.param.elim [] (numberBytes 1) ++ numberBytes 1 (o.flags last) ++ numberBytes width o.mask ++
    o.post.elim [] fun p => numberBytes width p.add ++ numberBytes width p.divisor

def ShiftFits (o : TableOperand) : Prop := 0 ≤ o.shift ∧ o.shift ≤ VarRead.maxShift

end TableOperand

/-- The bytes of operands, each with the operator before it but the first one. -/
def chainBytes (width : Int) : TableOperand → List (Operator × TableOperand) → List UInt8
  | o, [] => o.bytes width true
  | o, p :: rest => o.bytes width false ++ numberBytes 1 (p.1.tableCode?.getD 0 : Nat) ++ chainBytes width p.2 rest

namespace Expr

variable {width : Int} {ts : List Token} {last : Bool} {slot : Slot}

/-- The number that a value is written as. It is zero for a parameter, whose value is patched in. -/
def number : Expr → Int
  | const value => value
  | string _ id | record _ id => id
  | _ => 0

def fieldNumber (literal : Int) (field : Option Expr) : Int := field.elim literal number

/-- The numbers of an operand that is written with the given width. -/
def operand (width : Int) : Expr → TableOperand
  | var v =>
    { num := v.num, param := v.param.map number, shift := v.shift
      mask := fieldNumber (VarRead.fullMask width) v.mask
      post := if v.hasPostOp then
        some ⟨v.mod.isSome, fieldNumber 0 v.add, fieldNumber 1 (v.div <|> v.mod)⟩ else none }
  | store slot => { num := VarRead.constantNum, mask := slot.register?.getD 0 }
  | load slot => { num := VarRead.loadTempNum, param := some (slot.register?.getD 0), mask := VarRead.fullMask width }
  | _ => { num := 0, mask := 0 }

theorem bytes_sized {v : Int} (h : (do return [← sized v width]) = Except.ok ts) :
    bytesOfAll ts = numberBytes width v := by
  obtain ⟨t, ht, ⟨⟩⟩ := except_bind_eq_ok h
  rw [bytesOfAll_cons, bytesOfAll_nil, append_nil, bytes_of_sized ht]

theorem IsLeaf.bytes {e : Expr} (h : e.IsLeaf) (hok : e.tokensAs last width = .ok ts) :
    bytesOfAll ts = numberBytes width e.number := by
  rcases h.exists_eq with ⟨value, rfl⟩ | ⟨number, rfl⟩ | ⟨name, id, rfl⟩
  · exact bytes_sized hok
  · exact bytes_sized hok
  · rw [Expr.tokensAs] at hok
    split at hok
    · cases hok
    · exact bytes_sized hok

theorem bytes_fieldTokens {field : Option Expr} {literal : Int} (h : ∀ e ∈ field, e.IsLeaf)
    (hok : fieldTokens literal width field = .ok ts) :
    bytesOfAll ts = numberBytes width (fieldNumber literal field) := by
  cases field with
  | none => exact bytes_sized hok
  | some e => exact (h e rfl).bytes hok

theorem bytes_argTokens {arg : Option Expr} {num : Int} (h : ∀ e ∈ arg, e.IsLeaf) (hok : argTokens num arg = .ok ts) :
    bytesOfAll ts = (arg.map number).elim [] (numberBytes 1) := by
  cases arg with
  | none =>
    cases hok
    rfl
  | some e =>
    rw [argTokens, if_pos (h e rfl).isValue] at hok
    exact (h e rfl).bytes hok

theorem bytes_byteOf (v : Int) (ts : List Token) : bytesOfAll (byteOf v :: ts) = numberBytes 1 v ++ bytesOfAll ts := rfl

theorem bytes_var {v : VarRead Expr} (h : Plain v) (hok : (var v).tokensAs last width = .ok ts) :
    bytesOfAll ts = ((var v).operand width).bytes width last ∧ ((var v).operand width).ShiftFits := by
  obtain ⟨hshift, arg, mask, harg, hmask, post, rfl, hpost⟩ := var_eq_ok hok
  refine ⟨?_, hshift⟩
  have hflags : ((var v).operand width).flags last = v.shiftByte last := by
    obtain ⟨num, arg, shift, mask, add, div, mod⟩ := v
    cases mod <;> cases add <;> cases div <;> rfl
  have hrest : bytesOfAll post = ((var v).operand width).post.elim [] fun p =>
      numberBytes width p.add ++ numberBytes width p.divisor := by
    have hoperand : ((var v).operand width).post = if v.hasPostOp then
      some ⟨v.mod.isSome, fieldNumber 0 v.add, fieldNumber 1 (v.div <|> v.mod)⟩ else none := rfl
    rw [hoperand]
    split at hpost
    · rename_i hhas
      obtain ⟨add, divisor, hadd, hdivisor, rfl⟩ := hpost
      rw [bytesOfAll_append, bytes_fieldTokens h.add hadd, bytes_fieldTokens h.divisor hdivisor, if_pos hhas]
      rfl
    simp_all
  unfold TableOperand.bytes
  simp only [bytesOfAll_append, bytes_byteOf, bytes_argTokens h.param harg, bytes_fieldTokens h.mask hmask, hrest,
    bytesOfAll_nil, append_nil, hflags]
  rfl

theorem bytes_slot {e : Expr} (he : e = store slot ∨ e = load slot) (hok : e.tokensAs last width = .ok ts) :
    bytesOfAll ts = (e.operand width).bytes width last ∧ (e.operand width).ShiftFits := by
  rcases he with rfl | rfl
  all_goals
    refine ⟨?_, by simp [operand, TableOperand.ShiftFits, VarRead.maxShift]⟩
    rw [tokensAs] at hok
    cases hregister : slot.register? <;> rw [hregister] at hok
    case none => cases hok
    case some number =>
      obtain ⟨mask, hmask, ⟨⟩⟩ := except_bind_eq_ok hok
      simp only [bytesOfAll_cons, bytesOfAll_nil, bytes_of_sized hmask, operand, hregister,
        TableOperand.bytes, Option.elim_none, Option.elim_some, Option.getD_some, append_nil, append_assoc]
      cases last <;> rfl

/-- **An operand is written as its numbers.** -/
theorem bytes_operand {e : Expr} (h : (StreamItem.operand e).MadeOf Plain fun _ => True)
    (hok : e.tokensAs last width = .ok ts) :
    bytesOfAll ts = (e.operand width).bytes width last ∧ (e.operand width).ShiftFits := by
  cases e with
  | var v => exact bytes_var h hok
  | store slot => exact bytes_slot (.inl rfl) hok
  | load slot => exact bytes_slot (.inr rfl) hok
  | _ => exact h.elim

end Expr

def operandPairs (width : Int) : List StreamItem → List (Operator × TableOperand)
  | .op op :: .operand e :: rest => (op, e.operand width) :: operandPairs width rest
  | _ => []

/-- **A stream is written as a chain of its operands.** -/
theorem streamTokens_chain {width : Int} {first : Expr} {rest : List StreamItem} {ts : List Token}
    (hrest : Table.Paired rest) (hmade : ∀ item ∈ .operand first :: rest, item.MadeOf Expr.Plain fun _ => True)
    (hok : streamTokens width (.operand first :: rest) = .ok ts) :
    bytesOfAll ts = chainBytes width (first.operand width) (operandPairs width rest) ∧
      ∀ o ∈ first.operand width :: (operandPairs width rest).map (·.2), o.ShiftFits := by
  induction hrest generalizing first ts with
  | nil =>
    obtain ⟨here, hhere, ⟨⟩⟩ := except_bind_eq_ok hok
    obtain ⟨hbytes, hfits⟩ := Expr.bytes_operand (hmade _ mem_cons_self) hhere
    rw [bytesOfAll_append, hbytes]
    exact ⟨append_nil _, by simpa [operandPairs] using hfits⟩
  | cons op e hrest ih =>
    obtain ⟨here, hhere, hok⟩ := except_bind_eq_ok hok
    obtain ⟨after, hafter, ⟨⟩⟩ := except_bind_eq_ok hok
    obtain ⟨others, hothers, ⟨⟩⟩ := except_bind_eq_ok hafter
    rw [forall_mem_cons, forall_mem_cons] at hmade
    obtain ⟨hbytes, hfits⟩ := Expr.bytes_operand hmade.1 hhere
    obtain ⟨hchain, hall⟩ := ih hmade.2.2 hothers
    refine ⟨?_, forall_mem_cons.mpr ⟨hfits, hall⟩⟩
    rw [bytesOfAll_append, hbytes]
    show _ = _ ++ _ ++ chainBytes width _ _
    rw [← hchain, append_assoc]
    rfl

end Grf
