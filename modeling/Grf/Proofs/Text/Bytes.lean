import Grf.EngineText
import Mathlib.Algebra.Group.Nat.Defs
import Mathlib.Tactic.Common

/-! # The bytes of texts and numbers

The bytes of a text are those of its characters, one after another, and an ASCII character is one byte. The digits
of a number are such characters, and reading them gives the number again (`readHexBytes?_hexNat`,
`readInt?_decimal`).
-/

namespace Grf.Text

open List Nat

variable {cs digits : List Char} {c : Char} {d n width : Nat} {b : UInt8}

/-! ## Texts -/

theorem loop_eq_drop (b : ByteArray) (i : Nat) (bytes : List UInt8) :
    ByteArray.toList.loop b i bytes = bytes.reverse ++ b.data.toList.drop i := by
  rw [ByteArray.toList.loop.eq_1]
  split
  · next h =>
      have hi : i < b.data.toList.length := h
      have hget : b.get! i = b.data.toList.get ⟨i, hi⟩ := by
        show b.data[i]! = _
        rw [getElem!_pos b.data i h]
        rfl
      rw [loop_eq_drop b (i + 1), reverse_cons, append_assoc, singleton_append, hget, drop_eq_getElem_cons hi]
      rfl
  · next h =>
      have hlength : b.data.toList.length ≤ i := Nat.le_of_not_lt h
      rw [drop_of_length_le hlength, append_nil]
termination_by b.size - i

theorem bytesOf_eq_flatMap (s : String) : bytesOf s = s.toList.flatMap String.utf8EncodeChar := by
  unfold bytesOf
  rw [ByteArray.toList.eq_1, loop_eq_drop, reverse_nil, nil_append, drop_zero]
  show s.toByteArray.data.toList = _
  rw [← String.utf8Encode_toList, List.utf8Encode.eq_1, toList_data_toByteArray]

@[simp] theorem bytesOf_empty : bytesOf "" = [] := by
  rw [bytesOf_eq_flatMap, String.toList_empty, flatMap_nil]

@[simp] theorem bytesOf_append (s t : String) : bytesOf (s ++ t) = bytesOf s ++ bytesOf t := by
  rw [bytesOf_eq_flatMap, bytesOf_eq_flatMap, bytesOf_eq_flatMap, String.toList_append, flatMap_append]

def asciiByte (c : Char) : UInt8 := UInt8.ofNat c.toNat

theorem bytesOf_ofList (h : ∀ c ∈ cs, c.toNat < 128) : bytesOf (String.ofList cs) = cs.map asciiByte := by
  rw [bytesOf_eq_flatMap, String.toList_ofList]
  induction cs with
  | nil => rfl
  | cons c cs ih =>
    rw [forall_mem_cons] at h
    have hc : String.utf8EncodeChar c = [asciiByte c] := by
      have hle : c.val.toNat ≤ 127 := le_of_lt_succ h.1
      rw [String.utf8EncodeChar.eq_1, if_pos hle]
      rfl
    grind

theorem ofNat_asciiByte (h : c.toNat < 128) : Char.ofNat (asciiByte c).toNat = c := by
  have hbyte : (asciiByte c).toNat = c.toNat := mod_eq_of_lt (by omega)
  rw [hbyte, Char.ofNat_toNat]

theorem map_ofNat_asciiByte (h : ∀ c ∈ cs, c.toNat < 128) :
    (cs.map asciiByte).map (fun b => Char.ofNat b.toNat) = cs := by
  rw [map_map]
  exact (map_congr_left fun c hc => ofNat_asciiByte (h c hc)).trans (map_id _)

/-! ## Digits -/

def continueDigits (base n : Nat) (digits : List Char) : Option Nat :=
  digits.foldlM (fun n c => (digitValue? base c).map (n * base + ·)) n

theorem readDigits?_eq (base : Nat) (h : digits ≠ []) : readDigits? base digits = continueDigits base 0 digits := by
  unfold readDigits?
  rw [if_neg]
  · rfl
  · rwa [List.isEmpty_iff]

theorem continueDigits_concat {base m : Nat} (h : continueDigits base n digits = some m)
    (hc : digitValue? base c = some d) : continueDigits base n (digits ++ [c]) = some (m * base + d) := by
  unfold continueDigits at h ⊢
  grind [foldlM_append]

theorem digitValue?_hexDigit (h : d < 16) : digitValue? 16 (hexDigit d) = some d := by
  have hall : ∀ d : Fin 16, digitValue? 16 (hexDigit d) = some d.val := by decide
  exact hall ⟨d, h⟩

theorem continueDigits_hexDigits (n : Nat) : continueDigits 16 0 (hexDigits n) = some n := by
  fun_induction hexDigits n with
  | case1 n h =>
    have hdigit : continueDigits 16 0 ([] ++ [hexDigit n]) = some (0 * 16 + n) :=
      continueDigits_concat rfl (digitValue?_hexDigit h)
    rwa [nil_append, Nat.zero_mul, Nat.zero_add] at hdigit
  | case2 n h ih =>
    have hlast : n % 16 < 16 := mod_lt _ (by decide)
    rw [continueDigits_concat ih (digitValue?_hexDigit hlast), Nat.mul_comm, div_add_mod]

theorem exists_hexDigit_of_mem (h : c ∈ hexDigits n) : ∃ d < 16, c = hexDigit d := by
  fun_induction hexDigits n with
  | case1 n hn => exact ⟨n, hn, mem_singleton.mp h⟩
  | case2 n hn ih =>
    rcases mem_append.mp h with h | h
    · exact ih h
    · exact ⟨n % 16, mod_lt _ (by decide), mem_singleton.mp h⟩

theorem length_hexDigits_le (hwidth : 0 < width) (h : n < 16 ^ width) : (hexDigits n).length ≤ width := by
  fun_induction hexDigits n generalizing width with
  | case1 n hn => exact hwidth
  | case2 n hn ih =>
    have hwide : 1 < width := by
      by_contra hle
      have hone : width = 1 := by omega
      rw [hone, Nat.pow_one] at h
      omega
    obtain ⟨k, rfl⟩ : ∃ k, width = k + 1 := ⟨width - 1, by omega⟩
    have hdiv : n / 16 < 16 ^ k := Nat.div_lt_of_lt_mul (by rwa [Nat.pow_succ, Nat.mul_comm] at h)
    have hrest := ih (by omega) hdiv
    rw [length_append, length_singleton]
    omega

/-! ## Padded numbers -/

theorem continueDigits_zeros (k : Nat) : continueDigits 16 0 (List.replicate k '0') = some 0 := by
  induction k with
  | zero => rfl
  | succ k ih =>
    rw [replicate_succ']
    exact continueDigits_concat ih (by decide : digitValue? 16 '0' = some 0)

theorem exists_hexDigit_of_mem_padZeros (h : c ∈ padZeros width (hexDigits n)) : ∃ d < 16, c = hexDigit d := by
  rcases mem_append.mp h with h | h
  · exact ⟨0, by decide, eq_of_mem_replicate h⟩
  · exact exists_hexDigit_of_mem h

theorem padZeros_ascii : ∀ c ∈ padZeros width (hexDigits n), c.toNat < 128 := by
  intro c hc
  obtain ⟨d, hd, rfl⟩ := exists_hexDigit_of_mem_padZeros hc
  have hall : ∀ d : Fin 16, (hexDigit d).toNat < 128 := by decide
  exact hall ⟨d, hd⟩

theorem bytesOf_hexNat (width n : Nat) :
    bytesOf (hexNat width n) = (padZeros width (hexDigits n)).map asciiByte := bytesOf_ofList padZeros_ascii

theorem exists_hexDigit_of_mem_bytesOf (h : b ∈ bytesOf (hexNat width n)) : ∃ d < 16, b = asciiByte (hexDigit d) := by
  rw [bytesOf_hexNat] at h
  obtain ⟨c, hc, rfl⟩ := mem_map.mp h
  obtain ⟨d, hd, rfl⟩ := exists_hexDigit_of_mem_padZeros hc
  exact ⟨d, hd, rfl⟩

theorem length_bytesOf_hexNat (hwidth : 0 < width) (h : n < 16 ^ width) :
    (bytesOf (hexNat width n)).length = width := by
  simp_all [length_hexDigits_le, bytesOf_hexNat, padZeros]

/-- **A number in hexadecimal is read back.** -/
theorem readHexBytes?_hexNat (width n : Nat) : EngineText.readHexBytes? (bytesOf (hexNat width n)) = some n := by
  have hne : padZeros width (hexDigits n) ≠ [] := by
    intro hnil
    have hdigits := (append_eq_nil_iff.mp hnil).2
    unfold hexDigits at hdigits
    split at hdigits <;> simp at hdigits
  unfold EngineText.readHexBytes?
  rw [bytesOf_hexNat, map_ofNat_asciiByte padZeros_ascii, readDigits?_eq 16 hne]
  grind [continueDigits, padZeros, foldlM_append, continueDigits_zeros, continueDigits_hexDigits]

/-! ## Decimal numbers -/

def readInt? (bytes : List UInt8) : Option Int :=
  let digits := bytes.map fun b => Char.ofNat b.toNat
  if digits.head? = some '-' then (readDigits? 10 digits.tail).map fun (n : Nat) => -(n : Int)
  else (readDigits? 10 digits).map Int.ofNat

theorem toDigits_ascii (n : Nat) : ∀ c ∈ Nat.toDigits 10 n, c.toNat < 128 := by
  intro c hc
  have hdigit := isDigit_of_mem_toDigits (by decide) (by decide) hc
  simp only [Char.isDigit, Bool.and_eq_true, decide_eq_true_eq] at hdigit
  have hle : c.toNat ≤ 57 := hdigit.2
  omega

theorem digitValue?_digitChar (h : d < 10) : digitValue? 10 d.digitChar = some d := by
  have hall : ∀ d : Fin 10, digitValue? 10 d.val.digitChar = some d.val := by decide
  exact hall ⟨d, h⟩

theorem continueDigits_toDigits (n : Nat) : continueDigits 10 0 (Nat.toDigits 10 n) = some n := by
  by_cases h : n < 10
  · rw [toDigits_of_lt_base h]
    have hdigit : continueDigits 10 0 ([] ++ [n.digitChar]) = some (0 * 10 + n) :=
      continueDigits_concat rfl (digitValue?_digitChar h)
    rwa [nil_append, Nat.zero_mul, Nat.zero_add] at hdigit
  · have hlast : n % 10 < 10 := mod_lt _ (by decide)
    rw [toDigits_of_base_le (by decide) (by omega),
      continueDigits_concat (continueDigits_toDigits (n / 10)) (digitValue?_digitChar hlast), Nat.mul_comm,
      div_add_mod]
termination_by n
decreasing_by omega

theorem readDigits?_toDigits (n : Nat) : readDigits? 10 (Nat.toDigits 10 n) = some n :=
  (readDigits?_eq 10 toDigits_ne_nil).trans (continueDigits_toDigits n)

def decimalChars (v : Int) : List Char :=
  if v < 0 then '-' :: Nat.toDigits 10 v.natAbs else Nat.toDigits 10 v.natAbs

theorem decimalChars_ascii (v : Int) : ∀ c ∈ decimalChars v, c.toNat < 128 := by
  unfold decimalChars
  split
  · rw [forall_mem_cons]
    exact ⟨by decide, toDigits_ascii _⟩
  · exact toDigits_ascii _

theorem bytesOf_decimal (v : Int) : bytesOf (decimal v) = (decimalChars v).map asciiByte := by
  have hdecimal : decimal v = String.ofList (decimalChars v) := by
    unfold decimal decimalChars
    split
    · exact String.toList_inj.mp (by simp)
    · exact toString_eq_ofList_toDigits
  rw [hdecimal, bytesOf_ofList (decimalChars_ascii v)]

theorem le_of_mem_bytesOf_decimal {v : Int} (h : b ∈ bytesOf (decimal v)) : 0x2D ≤ b.toNat := by
  have hdigits : ∀ n, ∀ c ∈ Nat.toDigits 10 n, 0x2D ≤ c.toNat := by
    intro n c hc
    have hdigit := isDigit_of_mem_toDigits (by decide) (by decide) hc
    simp only [Char.isDigit, Bool.and_eq_true, decide_eq_true_eq] at hdigit
    have hle : 48 ≤ c.toNat := hdigit.1
    omega
  have hchars : ∀ c ∈ decimalChars v, 0x2D ≤ c.toNat := by
    unfold decimalChars
    split
    · rw [forall_mem_cons]
      exact ⟨by decide, hdigits _⟩
    · exact hdigits _
  rw [bytesOf_decimal] at h
  obtain ⟨c, hc, rfl⟩ := mem_map.mp h
  have hbyte : (asciiByte c).toNat = c.toNat := mod_eq_of_lt (by have := decimalChars_ascii v c hc; omega)
  rw [hbyte]
  exact hchars c hc

/-- **An integer in decimal is read back.** -/
theorem readInt?_decimal (v : Int) : readInt? (bytesOf (decimal v)) = some v := by
  unfold readInt?
  rw [bytesOf_decimal, map_ofNat_asciiByte (decimalChars_ascii v)]
  dsimp only
  unfold decimalChars
  split
  · next hv =>
      rw [head?_cons, if_pos rfl, tail_cons, readDigits?_toDigits]
      show some (-(v.natAbs : Int)) = some v
      congr 1
      omega
  · next hv =>
      rw [if_neg, readDigits?_toDigits]
      · show some (v.natAbs : Int) = some v
        congr 1
        omega
      · intro hhead
        have hmem : '-' ∈ Nat.toDigits 10 v.natAbs := mem_of_head? hhead
        have hdigit := isDigit_of_mem_toDigits (by decide) (by decide) hmem
        exact absurd hdigit (by decide)

end Grf.Text
