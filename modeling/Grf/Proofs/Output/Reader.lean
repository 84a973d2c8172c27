import Grf.Output.Listing
import Grf.Proofs.Text.Bytes

/-! # The words of a listing

A word of a listing is a run of characters in quotes, which stand for their bytes, or a number in hexadecimal: two
digits for a byte, and four or eight digits after a mark for a word and a double word, low bytes first. A comment
starts with two slashes outside of quotes and goes to the end of the line. What is written for a token that does not
end a line is read as the bytes of the token (`tokenText_denotes`).
-/

namespace Grf.Listing

open List Text

variable {b : UInt8} {run : List UInt8}

/-! ## Reading a line -/

def isBlank (b : UInt8) : Bool := b == 0x20 || b == 0x09

def startsComment (text : List UInt8) : Bool := [0x2F, 0x2F].isPrefixOf text

def endsWord (rest : List UInt8) : Bool := rest.isEmpty || isBlank (rest.headD 0) || startsComment rest

/-- The lowest `count` bytes of a number, low bytes first. -/
def littleBytes : Nat → Nat → List UInt8
  | 0, _ => []
  | count + 1, n => UInt8.ofNat n :: littleBytes count (n / 256)

/-- The bytes of a number that is written with two digits for each of them. -/
def readNumber? (count : Nat) (text : List UInt8) : Option (List UInt8) :=
  if text.length < 2 * count then none
  else (EngineText.readHexBytes? (text.take (2 * count))).map (littleBytes count)

/-- The bytes of the word that starts with `b`, with the number of bytes of `rest` that belong to it. -/
def readWord? (b : UInt8) (rest : List UInt8) : Option (List UInt8 × Nat) :=
  if b = 0x22 then
    let run := rest.takeWhile (· != 0x22)
    if run.length < rest.length then some (run, run.length + 1) else none
  else if b = 0x5C then
    if [0x77, 0x78].isPrefixOf rest then (readNumber? 2 (rest.drop 2)).map (·, 6)
    else if [0x64, 0x78].isPrefixOf rest then (readNumber? 4 (rest.drop 2)).map (·, 10)
    else none
  else (readNumber? 1 (b :: rest)).map (·, 1)

def lineBytes (line : List UInt8) : Option (List UInt8) :=
  match line with
  | [] => some []
  | b :: rest =>
    if isBlank b then lineBytes rest
    else if startsComment (b :: rest) then some []
    else match readWord? b rest with
      | none => none
      | some (bytes, length) =>
        if endsWord (rest.drop length) then (lineBytes (rest.drop length)).map (bytes ++ ·) else none
termination_by line.length
decreasing_by all_goals simp only [List.length_drop, List.length_cons]; omega

theorem lineBytes_nil : lineBytes [] = some [] := by
  rw [lineBytes]

theorem lineBytes_blank (h : isBlank b = true) (rest : List UInt8) : lineBytes (b :: rest) = lineBytes rest := by
  rw [lineBytes, if_pos h]

theorem lineBytes_comment (rest : List UInt8) : lineBytes (0x2F :: 0x2F :: rest) = some [] := by
  have hcomment : startsComment (0x2F :: 0x2F :: rest) = true := rfl
  rw [lineBytes, if_neg (by decide), if_pos hcomment]

theorem lineBytes_word {rest bytes : List UInt8} {length : Nat} (hblank : isBlank b = false)
    (hslash : b ≠ 0x2F) (hread : readWord? b rest = some (bytes, length)) (hend : endsWord (rest.drop length) = true) :
    lineBytes (b :: rest) = (lineBytes (rest.drop length)).map (bytes ++ ·) := by
  simp_all [startsComment, hslash.symm, lineBytes]

/-! ## Texts that stand for bytes -/

/-- The text is read as `bytes`, whatever follows it after the end of its last word. -/
structure Denotes (text bytes : List UInt8) : Prop where
  line : 0x0A ∉ text
  ends : ∀ rest, endsWord rest = true → endsWord (text ++ rest) = true
  reads : ∀ rest, endsWord rest = true → lineBytes (text ++ rest) = (lineBytes rest).map (bytes ++ ·)

namespace Denotes

variable {text text' bytes bytes' : List UInt8}

theorem nil : Denotes [] [] where
  line := not_mem_nil
  ends _ h := h
  reads rest _ := by
    simp

theorem append (h : Denotes text bytes) (h' : Denotes text' bytes') : Denotes (text ++ text') (bytes ++ bytes') where
  line := by
    rw [mem_append, not_or]
    exact ⟨h.line, h'.line⟩
  ends rest hrest := by
    rw [append_assoc]
    exact h.ends _ (h'.ends rest hrest)
  reads rest hrest := by
    rw [append_assoc, h.reads _ (h'.ends rest hrest), h'.reads rest hrest, Option.map_map]
    congr 1
    funext more
    exact (append_assoc _ _ _).symm

theorem word {b : UInt8} {tail : List UInt8} (hline : 0x0A ∉ b :: tail) (hblank : isBlank b = false)
    (hslash : b ≠ 0x2F) (hread : ∀ rest, readWord? b (tail ++ rest) = some (bytes, tail.length)) :
    Denotes (0x20 :: b :: tail) bytes where
  line := by
    rw [mem_cons, not_or]
    exact ⟨by decide, hline⟩
  ends _ _ := rfl
  reads rest hrest := by
    have hdrop : (tail ++ rest).drop tail.length = rest := drop_left
    have hword := lineBytes_word hblank hslash (hread rest) (hdrop.symm ▸ hrest)
    rw [cons_append, cons_append, lineBytes_blank rfl, hword, hdrop]

end Denotes

/-! ## Numbers -/

theorem littleBytes_byte (v : UInt8) : littleBytes 1 v.toNat = [v] := by
  show [UInt8.ofNat v.toNat] = [v]
  rw [UInt8.ofNat_toNat]

theorem littleBytes_word (v : UInt16) : littleBytes 2 v.toNat = (Token.word v).bytes := by
  have hhigh : (v >>> 8).toNat = v.toNat / 0x100 := Nat.shiftRight_eq_div_pow _ 8
  show [UInt8.ofNat v.toNat, UInt8.ofNat (v.toNat / 0x100)] = [UInt8.ofNat v.toNat, UInt8.ofNat (v >>> 8).toNat]
  rw [hhigh]

theorem littleBytes_dword (v : UInt32) : littleBytes 4 v.toNat = (Token.dword v).bytes := by
  have h₁ : (v >>> 8).toNat = v.toNat / 0x100 := Nat.shiftRight_eq_div_pow _ 8
  have h₂ : (v >>> 16).toNat = v.toNat / 0x100 / 0x100 := by
    rw [Nat.div_div_eq_div_mul]
    exact Nat.shiftRight_eq_div_pow _ 16
  have h₃ : (v >>> 24).toNat = v.toNat / 0x100 / 0x100 / 0x100 := by
    rw [Nat.div_div_eq_div_mul, Nat.div_div_eq_div_mul]
    exact Nat.shiftRight_eq_div_pow _ 24
  show [UInt8.ofNat v.toNat, UInt8.ofNat (v.toNat / 0x100), UInt8.ofNat (v.toNat / 0x100 / 0x100),
      UInt8.ofNat (v.toNat / 0x100 / 0x100 / 0x100)] =
    [UInt8.ofNat v.toNat, UInt8.ofNat (v >>> 8).toNat, UInt8.ofNat (v >>> 16).toNat, UInt8.ofNat (v >>> 24).toNat]
  rw [h₁, h₂, h₃]

theorem readNumber?_hexNat {count n : Nat} (hcount : 0 < count) (hn : n < 16 ^ (2 * count)) (rest : List UInt8) :
    readNumber? count (bytesOf (hexNat (2 * count) n) ++ rest) = some (littleBytes count n) := by
  have hlength := length_bytesOf_hexNat (by omega) hn
  unfold readNumber?
  rw [if_neg (by rw [length_append]; omega), take_left' hlength, readHexBytes?_hexNat]
  rfl

/-- The digits of a number do not separate words, and start neither a comment, a quoted run nor a mark. -/
def isPlain (b : UInt8) : Bool := !isBlank b && b != 0x0A && b != 0x22 && b != 0x2F && b != 0x5C

theorem isPlain_of_mem_hexNat {width n : Nat} (h : b ∈ bytesOf (hexNat width n)) : isPlain b = true := by
  obtain ⟨d, hd, rfl⟩ := exists_hexDigit_of_mem_bytesOf h
  have hall : ∀ d : Fin 16, isPlain (asciiByte (hexDigit d)) = true := by decide
  exact hall ⟨d, hd⟩

theorem newline_not_mem_hexNat (width n : Nat) : 0x0A ∉ bytesOf (hexNat width n) := by
  intro hmem
  exact absurd (isPlain_of_mem_hexNat hmem) (by decide)

/-! ## Words -/

def spaced (word : String) : List UInt8 := 0x20 :: Text.bytesOf word

theorem byteText_denotes (v : UInt8) : Denotes (spaced (byteText v)) [v] := by
  have hlt : v.toNat < 16 ^ (2 * 1) := v.toNat_lt
  have hlength := length_bytesOf_hexNat (by decide) hlt
  have hline := newline_not_mem_hexNat (2 * 1) v.toNat
  have hplain := fun b => @isPlain_of_mem_hexNat b (2 * 1) v.toNat
  have hnumber := readNumber?_hexNat (by decide) hlt
  rw [littleBytes_byte] at hnumber
  unfold spaced byteText
  cases hbytes : bytesOf (hexNat (2 * 1) v.toNat) with
  | nil =>
    rw [hbytes] at hlength
    cases hlength
  | cons b tail =>
    rw [hbytes] at hlength hline hplain hnumber
    have hb := hplain b mem_cons_self
    simp only [isPlain, Bool.and_eq_true, Bool.not_eq_true', bne_iff_ne, ne_eq] at hb
    obtain ⟨⟨⟨⟨hblank, -⟩, hquote⟩, hslash⟩, hmark⟩ := hb
    refine .word hline hblank hslash fun rest => ?_
    have htail : tail.length = 1 := Nat.succ.inj hlength
    simp_all [readWord?]

theorem marked_denotes (mark : UInt8) (count : Nat) {n : Nat} (hmark : mark ≠ 0x0A) (hcount : 0 < count)
    (hn : n < 16 ^ (2 * count))
    (hread : ∀ text, readWord? 0x5C (mark :: 0x78 :: text) = (readNumber? count text).map (·, 2 + 2 * count)) :
    Denotes (0x20 :: 0x5C :: mark :: 0x78 :: bytesOf (hexNat (2 * count) n)) (littleBytes count n) := by
  have hlength := length_bytesOf_hexNat (by omega) hn
  refine .word ?_ (by decide) (by decide) fun rest => ?_
  · simp [hmark.symm, newline_not_mem_hexNat]
  grind [readNumber?_hexNat]

theorem wordText_denotes (v : UInt16) : Denotes (spaced ("\\wx" ++ hexNat 4 v.toNat)) (Token.word v).bytes := by
  have hmark : bytesOf "\\wx" = [0x5C, 0x77, 0x78] := (bytesOf_eq_flatMap _).trans rfl
  unfold spaced
  rw [bytesOf_append, hmark, ← littleBytes_word]
  exact marked_denotes 0x77 2 (by decide) (by decide) v.toNat_lt fun _ => rfl

theorem dwordText_denotes (v : UInt32) : Denotes (spaced ("\\dx" ++ hexNat 8 v.toNat)) (Token.dword v).bytes := by
  have hmark : bytesOf "\\dx" = [0x5C, 0x64, 0x78] := (bytesOf_eq_flatMap _).trans rfl
  unfold spaced
  rw [bytesOf_append, hmark, ← littleBytes_dword]
  exact marked_denotes 0x64 4 (by decide) (by decide) v.toNat_lt fun _ => rfl

/-! ## Texts -/

theorem isQuotable_lt (h : isQuotable b = true) : b.toNat < 128 ∧ b ≠ 0x22 ∧ b ≠ 0x0A := by
  simp only [isQuotable, Bool.and_eq_true, decide_eq_true_eq, bne_iff_ne, ne_eq] at h
  obtain ⟨⟨⟨hlow, hhigh⟩, hquote⟩, -⟩ := h
  have hle : b.toNat ≤ 0x7E := hhigh
  refine ⟨by omega, hquote, ?_⟩
  rintro rfl
  exact absurd hlow (by decide)

theorem bytesOf_chars (h : ∀ b ∈ run, b.toNat < 128) :
    bytesOf (String.ofList (run.map fun b => Char.ofNat b.toNat)) = run := by
  have hchar : ∀ b ∈ run, (Char.ofNat b.toNat).toNat = b.toNat := by
    intro b hb
    have hall : ∀ n : Fin 128, (Char.ofNat n).toNat = n := by decide
    exact hall ⟨b.toNat, h b hb⟩
  rw [bytesOf_ofList, map_map]
  · refine (map_congr_left fun b hb => ?_).trans (map_id run)
    show UInt8.ofNat (Char.ofNat b.toNat).toNat = b
    rw [hchar b hb, UInt8.ofNat_toNat]
  simp_all

theorem quoteRun_denotes (h : ∀ b ∈ run, isQuotable b = true) :
    Denotes ((quoteRun run).flatMap spaced) run.reverse := by
  unfold quoteRun
  split
  · next hempty =>
      rw [List.isEmpty_iff.mp hempty]
      exact .nil
  · have hquotable : ∀ b ∈ run.reverse, isQuotable b = true := fun b hb => h b (mem_reverse.mp hb)
    have hquote : bytesOf "\"" = [0x22] := (bytesOf_eq_flatMap _).trans rfl
    have hspaced : spaced ("\"" ++ String.ofList (run.reverse.map fun b => Char.ofNat b.toNat) ++ "\"") =
        0x20 :: 0x22 :: (run.reverse ++ [0x22]) := by
      unfold spaced
      rw [bytesOf_append, bytesOf_append, hquote, bytesOf_chars fun b hb => (isQuotable_lt (hquotable b hb)).1]
      rfl
    rw [flatMap_singleton, hspaced]
    refine .word ?_ (by decide) (by decide) fun rest => ?_
    · simp only [mem_cons, mem_append, not_mem_nil, or_false, not_or]
      exact ⟨by decide, fun hmem => (isQuotable_lt (hquotable _ hmem)).2.2 rfl, by decide⟩
    · -- No quotable byte is a quote, so the first quote is the closing one.
      have htake : (run.reverse ++ [0x22] ++ rest).takeWhile (· != 0x22) = run.reverse := by
        rw [append_assoc, takeWhile_append_of_pos]
        · exact append_nil _
        simp_all [isQuotable_lt]
      have hshort : run.reverse.length < (run.reverse ++ [0x22] ++ rest).length := by
        simp
      unfold readWord?
      rw [if_pos rfl, htake]
      simp

theorem textWords_denotes (h : ∀ b ∈ run, isQuotable b = true) (bytes : List UInt8) :
    Denotes ((textWords run bytes).flatMap spaced) (run.reverse ++ bytes) := by
  fun_induction textWords run bytes with
  | case1 run =>
    rw [append_nil]
    exact quoteRun_denotes h
  | case2 run b rest hb ih =>
    grind
  | case3 run b rest hb ih =>
    have hrest := (byteText_denotes b).append (ih fun _ hmem => absurd hmem not_mem_nil)
    have hall := (quoteRun_denotes h).append hrest
    rwa [← flatMap_cons, ← flatMap_append] at hall

theorem bytesOf_join (words : List String) : bytesOf (String.join (words.map (" " ++ ·))) = words.flatMap spaced := by
  induction words with
  | nil =>
    simp
  | cons word words ih =>
    have hblank : bytesOf " " = [0x20] := (bytesOf_eq_flatMap _).trans rfl
    rw [map_cons, String.join_cons, bytesOf_append, bytesOf_append, ih, flatMap_cons, hblank]
    rfl

/-- **What is written for a token is read as its bytes**, unless it ends a line. -/
theorem tokenText_denotes {token : Token} (h : ∀ comment, token ≠ .lineEnd comment) :
    Denotes (bytesOf (tokenText token)) token.bytes := by
  cases token with
  | byte v =>
    show Denotes (bytesOf (String.join ([byteText v].map (" " ++ ·)))) [v]
    rw [bytesOf_join, flatMap_singleton]
    exact byteText_denotes v
  | word v =>
    show Denotes (bytesOf (String.join (["\\wx" ++ hexNat 4 v.toNat].map (" " ++ ·)))) _
    rw [bytesOf_join, flatMap_singleton]
    exact wordText_denotes v
  | dword v =>
    show Denotes (bytesOf (String.join (["\\dx" ++ hexNat 8 v.toNat].map (" " ++ ·)))) _
    rw [bytesOf_join, flatMap_singleton]
    exact dwordText_denotes v
  | text bytes =>
    show Denotes (bytesOf (String.join ((textWords [] bytes).map (" " ++ ·)))) bytes
    grind [bytesOf_join, textWords_denotes]
  | lineEnd comment => exact absurd rfl (h comment)

end Grf.Listing
