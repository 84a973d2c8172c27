import Grf.Proofs.Record.Layout

/-! # Reading numbers

Numbers are written low bytes first, so that of an integer its low bytes are left (`residue`). What is written can be
read back part by part: `Reads p bytes a` says that the parser `p` takes exactly the given bytes, whatever follows
them, and finds `a` in them.
-/

namespace Grf

open List Token

variable {width : Int}

/-- The number that bytes stand for, low bytes first. -/
def littleEndian : List UInt8 → Nat
  | [] => 0
  | b :: rest => b.toNat + 256 * littleEndian rest

theorem littleEndian_word (v : UInt16) : littleEndian (word v).bytes = v.toNat := by
  have hv := v.toNat_lt
  have hhigh : (v >>> 8).toNat = v.toNat / 0x100 := Nat.shiftRight_eq_div_pow _ 8
  simp only [bytes, littleEndian, UInt16.toNat_toUInt8, hhigh]
  omega

theorem littleEndian_dword (v : UInt32) : littleEndian (dword v).bytes = v.toNat := by
  have hv := v.toNat_lt
  have h₁ : (v >>> 8).toNat = v.toNat / 0x100 := Nat.shiftRight_eq_div_pow _ 8
  have h₂ : (v >>> 16).toNat = v.toNat / 0x10000 := Nat.shiftRight_eq_div_pow _ 16
  have h₃ : (v >>> 24).toNat = v.toNat / 0x1000000 := Nat.shiftRight_eq_div_pow _ 24
  simp only [bytes, littleEndian, UInt32.toNat_toUInt8, h₁, h₂, h₃]
  omega

theorem toNat_byteOf {v : Int} (h : 0 ≤ v ∧ v ≤ 0xFF) : ((UInt8.ofBitVec (BitVec.ofInt 8 v)).toNat : Int) = v := by
  rw [UInt8.toNat_ofBitVec, BitVec.toNat_ofInt]
  omega

theorem byteOf_eq_iff {v : Int} (h : 0 ≤ v ∧ v ≤ 0xFF) : UInt8.ofBitVec (BitVec.ofInt 8 v) = 0xFF ↔ v = 0xFF := by
  have hv := toNat_byteOf h
  refine ⟨fun heq => ?_, fun heq => heq ▸ rfl⟩
  rw [heq] at hv
  exact hv.symm

/-- The number of values of `width` bytes. -/
def modulus (width : Int) : Nat := Nat.pow 256 width.toNat

/-- The low `width` bytes of an integer, as a number. -/
def residue (width v : Int) : Nat := (v % modulus width).toNat

theorem littleEndian_wordOf (v : Int) : littleEndian (wordOf v).bytes = residue 2 v := by
  unfold wordOf
  rw [littleEndian_word, UInt16.toNat_ofBitVec, BitVec.toNat_ofInt]
  rfl

theorem littleEndian_dwordOf (v : Int) : littleEndian (dwordOf v).bytes = residue 4 v := by
  unfold dwordOf
  rw [littleEndian_dword, UInt32.toNat_ofBitVec, BitVec.toNat_ofInt]
  rfl

theorem littleEndian_byteOf (v : Int) : littleEndian (byteOf v).bytes = residue 1 v := by
  rfl

theorem residue_natCast (n : Nat) : residue width n = n % modulus width := by
  rw [residue, ← Int.natCast_emod, Int.toNat_natCast]

theorem residue_of_fits {v : Int} (hv : 0 ≤ v) (hlt : v < modulus width) : (residue width v : Int) = v := by
  unfold residue
  rw [Int.emod_eq_of_lt hv hlt, Int.toNat_of_nonneg hv]

/-- The low `width` bytes of an integer. -/
def numberBytes (width v : Int) : List UInt8 :=
  if width = 1 then (Token.byteOf v).bytes
  else if width = 2 then (Token.wordOf v).bytes
  else (Token.dwordOf v).bytes

theorem bytes_of_sized {v : Int} {t : Token} (h : sized v width = .ok t) : t.bytes = numberBytes width v := by
  grind [sized, numberBytes]

/-- Takes bytes from the front of a list. -/
abbrev Parser := StateT (List UInt8) Option

/-- Takes a number of `count` bytes. -/
def takeNumber (count : Nat) : Parser Nat := fun bytes =>
  if bytes.length < count then none else some (littleEndian (bytes.take count), bytes.drop count)

theorem Parser.bind_eq_some {α β : Type} {p : Parser α} {f : α → Parser β} {bytes : List UInt8} {x : β × List UInt8}
    (h : (p >>= f).run bytes = some x) : ∃ y, p.run bytes = some y ∧ (f y.1).run y.2 = some x := by
  exact Option.bind_eq_some_iff.mp h

/-- The parser takes exactly these bytes. -/
def Reads {α : Type} (p : Parser α) (bytes : List UInt8) (a : α) : Prop :=
  ∀ rest, p.run (bytes ++ rest) = some (a, rest)

namespace Reads

variable {α β : Type} {p : Parser α} {bytes bytes' : List UInt8} {a : α}

theorem pure (a : α) : Reads (pure a) [] a := fun _ => rfl

theorem run_bind (h : Reads p bytes a) (f : α → Parser β) (rest : List UInt8) :
    (p >>= f).run (bytes ++ rest) = (f a).run rest := by
  rw [StateT.run_bind, h]
  rfl

theorem bind {f : α → Parser β} {b : β} (h : Reads p bytes a) (h' : Reads (f a) bytes' b) :
    Reads (p >>= f) (bytes ++ bytes') b := by
  intro rest
  rw [append_assoc, h.run_bind]
  exact h' rest

/-- The last step of a parser, which takes nothing. -/
theorem map {f : α → β} (h : Reads p bytes a) : Reads (p >>= fun a => Pure.pure (f a)) bytes (f a) :=
  append_nil bytes ▸ h.bind (.pure (f a))

theorem number {count n : Nat} (hlength : bytes.length = count) (hn : littleEndian bytes = n) :
    Reads (takeNumber count) bytes n := by
  subst hlength hn
  intro rest
  show (if (bytes ++ rest).length < bytes.length then none else _) = _
  simp

theorem byte (v : Int) : Reads (takeNumber 1) (numberBytes 1 v) (residue 1 v) := number rfl (littleEndian_byteOf v)

theorem word (v : Int) : Reads (takeNumber 2) (wordOf v).bytes (residue 2 v) := number rfl (littleEndian_wordOf v)

theorem sized (h : IsWidth width) (v : Int) :
    Reads (takeNumber width.toNat) (numberBytes width v) (residue width v) := by
  rcases h with rfl | rfl | rfl
  · exact byte v
  · exact word v
  · exact number rfl (littleEndian_dwordOf v)

end Reads

end Grf
