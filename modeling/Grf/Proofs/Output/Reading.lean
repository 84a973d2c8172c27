import Grf.Proofs.Output.Reader
import Grf.Proofs.Output.Sprites
import Grf.Proofs.Record.Comments

/-! # Reading a listing

`Listing.read` reads the sprites of a listing line by line. A comment goes to the end of its line, so a name with
several lines leaves all but the first of them to the reader. The listing of records is read as their sprites if and
only if these lines stand for nothing (`read_listingBytes_iff`). That they have to is seen from the weight of the
lines: no byte and no sprite is lost in reading, so there is no room for further ones.
-/

namespace Grf.Listing

open List Text Token OutputContent

variable {x : List UInt8 × List OutputSprite} {tokens : List Token} {contents : List OutputContent}

/-! ## Lines -/

/-- A line of a listing: further bytes of a pseudo sprite, the start of one, or a reference. -/
inductive Line
  | data (bytes : List UInt8)
  | pseudo (bytes : List UInt8)
  | reference (num : Int)
deriving DecidableEq, Repr

/-- The start of the first line of a pseudo sprite, `-1 * 0`. -/
def pseudoHead : List UInt8 := [0x2D, 0x31, 0x20, 0x2A, 0x20, 0x30]

/-- The start of the line of a reference, `-1 sprite` and a blank. Its number follows. -/
def referenceHead : List UInt8 := [0x2D, 0x31, 0x20, 0x73, 0x70, 0x72, 0x69, 0x74, 0x65, 0x20]

def readLine? (line : List UInt8) : Option Line :=
  if pseudoHead.isPrefixOf line then (lineBytes (line.drop pseudoHead.length)).map .pseudo
  else if referenceHead.isPrefixOf line then
    let rest := line.drop referenceHead.length
    let number := rest.takeWhile (!isBlank ·)
    if lineBytes (rest.drop number.length) = some [] then (Text.readInt? number).map .reference else none
  else (lineBytes line).map .data

/-- Puts a line in front of what was read after it: bytes for the sprite before them, and sprites. -/
def Line.onto (line : Line) (after : List UInt8 × List OutputSprite) : Option (List UInt8 × List OutputSprite) :=
  match line with
  | data bytes => some (bytes ++ after.1, after.2)
  | pseudo bytes => some ([], .pseudo (bytes ++ after.1) :: after.2)
  | reference num => if after.1.isEmpty then some ([], .reference num :: after.2) else none

def readLines : List (Option Line) → Option (List UInt8 × List OutputSprite)
  | [] => some ([], [])
  | line :: rest => line.bind fun line => (readLines rest).bind line.onto

/-- Reads the sprites of a listing. There are no bytes before the first of them. -/
def read (text : List UInt8) : Option (List OutputSprite) :=
  (readLines ((text.splitOn 0x0A).map readLine?)).bind fun x => if x.1.isEmpty then some x.2 else none

def silent : Option Line := some (.data [])

def furtherReads (text : List UInt8) : List (Option Line) := (text.splitOn 0x0A).tail.map readLine?

def Inert (text : String) : Prop := ∀ x ∈ furtherReads (Text.bytesOf text), x = silent

instance (text : String) : Decidable (Inert text) :=
  inferInstanceAs (Decidable (∀ x ∈ furtherReads (Text.bytesOf text), x = silent))

theorem readLines_silent (rest : List (Option Line)) : readLines (silent :: rest) = readLines rest := by
  show (readLines rest).bind (Line.data []).onto = readLines rest
  cases readLines rest <;> rfl

variable {lines : List (Option Line)} {line : Line} {text bytes : List UInt8} {first : Bool} {y : Option Line}

theorem readLines_append_silent (h : ∀ x ∈ lines, x = silent)
    (rest : List (Option Line)) : readLines (lines ++ rest) = readLines rest := by
  induction lines with
  | nil => rfl
  | cons line lines ih => simp_all [readLines_silent]

/-! ## The weight of lines -/

def weight : Option Line → Nat
  | some (.data bytes) => bytes.length
  | some (.pseudo bytes) => 1 + bytes.length
  | some (.reference _) => 1
  | none => 0

def spriteWeight : OutputSprite → Nat
  | .pseudo bytes => 1 + bytes.length
  | .reference _ => 1

def weights (lines : List (Option Line)) : Nat := (lines.map weight).sum

theorem weights_append (lines lines' : List (Option Line)) :
    weights (lines ++ lines') = weights lines + weights lines' := by
  unfold weights
  rw [map_append, sum_append_nat]

def readWeight (x : List UInt8 × List OutputSprite) : Nat := x.1.length + (x.2.map spriteWeight).sum

theorem onto_weight {y : List UInt8 × List OutputSprite} (h : line.onto x = some y) :
    readWeight y = weight (some line) + readWeight x := by
  cases line with
  | data bytes =>
    cases h
    simp only [readWeight, weight, length_append]
    omega
  | pseudo bytes =>
    cases h
    grind [readWeight, weight, spriteWeight]
  | reference num =>
    simp only [Line.onto] at h
    split at h
    · next hempty =>
        cases h
        simp_all [readWeight, weight, spriteWeight]
    · cases h

/-- **Nothing is lost in reading.** All lines can be read, and they weigh as much as what was read. -/
theorem readLines_weight (h : readLines lines = some x) : none ∉ lines ∧ readWeight x = weights lines := by
  induction lines generalizing x with
  | nil =>
    cases h
    exact ⟨not_mem_nil, rfl⟩
  | cons line lines ih =>
    obtain ⟨line', rfl, hrest⟩ := Option.bind_eq_some_iff.mp h
    obtain ⟨y, hy, honto⟩ := Option.bind_eq_some_iff.mp hrest
    obtain ⟨hnone, hweight⟩ := ih hy
    refine ⟨?_, ?_⟩
    · simp_all
    · rw [onto_weight honto, hweight]
      exact sum_cons.symm

theorem eq_silent_of_weight {x : Option Line} (hsome : x ≠ none) (h : weight x = 0) : x = silent := by
  cases x with
  | none => exact absurd rfl hsome
  | some line =>
    cases line with
    | data bytes => rw [length_eq_zero_iff.mp h]; rfl
    | pseudo bytes => exact absurd h (by simp only [weight]; omega)
    | reference num => exact absurd h Nat.one_ne_zero

/-! ## The lines of a sprite -/

/-- A line with bytes of a pseudo sprite, the first one or a further one. -/
def Line.of (first : Bool) (bytes : List UInt8) : Line := if first then .pseudo bytes else .data bytes

/-- The text is read as the start of a line with `bytes`, whatever follows it after the end of its last word. -/
structure Opens (text : List UInt8) (first : Bool) (bytes : List UInt8) : Prop where
  line : 0x0A ∉ text
  reads : ∀ rest, endsWord rest = true →
    readLine? (text ++ rest) = (lineBytes rest).map fun more => .of first (bytes ++ more)

theorem splitOn_append (h : 0x0A ∉ text) (rest : List UInt8) :
    (text ++ rest).splitOn 0x0A = (text ++ (rest.splitOn 0x0A).headD []) :: (rest.splitOn 0x0A).tail := by
  induction text with
  | nil =>
    rw [nil_append, nil_append]
    cases hlines : rest.splitOn 0x0A with
    | nil => exact absurd hlines (splitOn_ne_nil _ _)
    | cons line lines => rfl
  | cons b text ih => simp_all [splitOn_cons_eq_if_modifyHead, Ne.symm]

namespace Opens

variable {text more bytes bytes' : List UInt8} {first : Bool}

theorem pseudo : Opens (pseudoHead ++ [0x09]) true [] where
  line := by decide
  reads rest _ := by
    have hhead : pseudoHead.isPrefixOf (pseudoHead ++ [0x09] ++ rest) = true := rfl
    have hdrop : (pseudoHead ++ [0x09] ++ rest).drop pseudoHead.length = 0x09 :: rest := rfl
    unfold readLine?
    rw [if_pos hhead, hdrop, lineBytes_blank rfl]
    rfl

theorem data : Opens [0x09] false [] where
  line := by decide
  reads rest _ := by
    show (lineBytes (0x09 :: rest)).map _ = _
    rw [lineBytes_blank rfl]
    rfl

theorem append (h : Opens text first bytes) (hmore : Denotes more bytes') :
    Opens (text ++ more) first (bytes ++ bytes') where
  line := by
    rw [mem_append, not_or]
    exact ⟨h.line, hmore.line⟩
  reads rest hrest := by
    rw [append_assoc, h.reads _ (hmore.ends rest hrest), hmore.reads rest hrest, Option.map_map]
    congr 1
    grind

theorem readLine?_eq (h : Opens text first bytes) : readLine? text = some (.of first bytes) := by
  have hline := h.reads [] rfl
  rwa [append_nil, lineBytes_nil, Option.map_some, append_nil] at hline

end Opens

/-- The text is read as `line`, whatever follows it on the line. -/
structure Closes (text : List UInt8) (line : Line) : Prop where
  newline : 0x0A ∉ text
  reads : ∀ rest, readLine? (text ++ rest) = some line

theorem Opens.closes (h : Opens text first bytes) : Closes (text ++ [0x20, 0x2F, 0x2F, 0x20]) (.of first bytes) where
  newline := by
    rw [mem_append, not_or]
    exact ⟨h.line, by decide⟩
  reads rest := by
    rw [append_assoc, h.reads _ rfl]
    show (lineBytes (0x20 :: 0x2F :: 0x2F :: 0x20 :: rest)).map _ = _
    rw [lineBytes_blank rfl, lineBytes_comment, Option.map_some, append_nil]

theorem closes_comment (h : 0x0A ∉ text) : Closes (0x2F :: 0x2F :: text) (.data []) where
  newline := by
    simp_all
  reads rest := by
    have hpseudo : pseudoHead.isPrefixOf (0x2F :: 0x2F :: text ++ rest) = false := rfl
    have hreference : referenceHead.isPrefixOf (0x2F :: 0x2F :: text ++ rest) = false := rfl
    simp_all [readLine?, lineBytes_comment]

theorem Closes.splitOn (h : Closes text line) (comment : List UInt8) :
    ((text ++ comment).splitOn 0x0A).map readLine? = some line :: furtherReads comment := by
  rw [splitOn_append h.newline, map_cons, h.reads]
  rfl

/-! ## Blocks -/

def commentBytes (comment : String) : List UInt8 :=
  if comment.isEmpty then [] else [0x20, 0x2F, 0x2F, 0x20] ++ Text.bytesOf comment

/-- The lines of a pseudo sprite as they are read, where `bytes` have been read of the first of them. -/
def blockReads (first : Bool) (bytes : List UInt8) : List Token → List (Option Line)
  | [] => [some (.of first bytes)]
  | .lineEnd comment :: tokens =>
    some (.of first bytes) :: furtherReads (Text.bytesOf comment) ++ blockReads false [] tokens
  | token :: tokens => blockReads first (bytes ++ token.bytes) tokens

theorem bytesOf_lineEnd (comment : String) :
    bytesOf (tokenText (.lineEnd comment)) = commentBytes comment ++ [0x0A, 0x09] := by
  have hbreak : bytesOf "\n\t" = [0x0A, 0x09] := (bytesOf_eq_flatMap _).trans rfl
  have hmark : bytesOf "// " = [0x2F, 0x2F, 0x20] := (bytesOf_eq_flatMap _).trans rfl
  show bytesOf (String.join ((if comment.isEmpty then [] else ["// " ++ comment]).map (" " ++ ·)) ++ "\n\t") = _
  grind [bytesOf_append, bytesOf_join, commentBytes, spaced]

theorem Opens.splitOn_comment (h : Opens text first bytes) (comment : String) :
    ((text ++ commentBytes comment).splitOn 0x0A).map readLine? =
      some (.of first bytes) :: furtherReads (bytesOf comment) := by
  unfold commentBytes
  split
  · next hempty =>
      rw [String.isEmpty_iff.mp hempty, bytesOf_empty, append_nil, splitOn_eq_singleton h.line,
        map_singleton, h.readLine?_eq]
      rfl
  · rw [← append_assoc, h.closes.splitOn]

/-- **The lines of a pseudo sprite** are those of its tokens. -/
theorem Opens.splitOn_block (h : Opens text first bytes) (tokens : List Token) :
    ((text ++ tokens.flatMap fun t => bytesOf (tokenText t)).splitOn 0x0A).map readLine? =
      blockReads first bytes tokens := by
  fun_induction blockReads first bytes tokens generalizing text with
  | case1 first bytes =>
    rw [flatMap_nil, append_nil, splitOn_eq_singleton h.line, map_singleton, h.readLine?_eq]
  | case2 first bytes comment tokens ih =>
    have hlines : text ++ (lineEnd comment :: tokens).flatMap (fun t => bytesOf (tokenText t)) =
        text ++ commentBytes comment ++ 0x0A :: ([0x09] ++ tokens.flatMap fun t => bytesOf (tokenText t)) := by
      simp [bytesOf_lineEnd]
    rw [hlines, splitOn_append_cons_self, map_append, h.splitOn_comment, ih Opens.data]
  | case3 first bytes token tokens htoken ih => grind [h.append, tokenText_denotes]

theorem onto_of (first : Bool) (bytes bytes' : List UInt8) (x : List UInt8 × List OutputSprite) :
    (Line.of first bytes).onto (bytes' ++ x.1, x.2) = (Line.of first (bytes ++ bytes')).onto x := by
  cases first with
  | false =>
    show some (bytes ++ (bytes' ++ x.1), x.2) = some (bytes ++ bytes' ++ x.1, x.2)
    rw [append_assoc]
  | true =>
    show some ([], OutputSprite.pseudo (bytes ++ (bytes' ++ x.1)) :: x.2) =
      some ([], OutputSprite.pseudo (bytes ++ bytes' ++ x.1) :: x.2)
    rw [append_assoc]

def commentReads (tokens : List Token) : List (Option Line) :=
  (Token.comments tokens).flatMap fun comment => furtherReads (Text.bytesOf comment)

theorem commentReads_lineEnd (comment : String) (tokens : List Token) :
    commentReads (.lineEnd comment :: tokens) = furtherReads (bytesOf comment) ++ commentReads tokens := by
  have hcons : comments (.lineEnd comment :: tokens) =
      comments [.lineEnd comment] ++ comments tokens := comments_append [_] tokens
  unfold commentReads
  rw [hcons, comments_lineEnd, flatMap_append]
  congr 1
  by_cases hempty : comment.isEmpty = true
  · rw [filter_cons_of_neg (by rw [hempty]; decide), String.isEmpty_iff.mp hempty, bytesOf_empty]
    rfl
  simp_all

theorem commentReads_of_ne {token : Token} (h : ∀ comment, token ≠ .lineEnd comment) (tokens : List Token) :
    commentReads (token :: tokens) = commentReads tokens := by
  have hnone : token.comment? = none := by
    cases token with
    | lineEnd comment => exact absurd rfl (h comment)
    | _ => rfl
  unfold commentReads comments
  rw [filterMap_cons_none hnone]

theorem readLines_block {rest : List (Option Line)}
    (hsilent : ∀ y ∈ commentReads tokens, y = silent) (hrest : readLines rest = some x) :
    readLines (blockReads first bytes tokens ++ rest) = (Line.of first (bytes ++ bytesOfAll tokens)).onto x := by
  fun_induction blockReads first bytes tokens with
  | case1 first bytes => grind [bytesOfAll_nil, readLines]
  | case2 first bytes comment tokens ih =>
    rw [commentReads_lineEnd, forall_mem_append] at hsilent
    have hmore : readLines (blockReads false [] tokens ++ rest) = some (bytesOfAll tokens ++ x.1, x.2) := ih hsilent.2
    show (readLines (furtherReads _ ++ blockReads false [] tokens ++ rest)).bind (Line.of first bytes).onto = _
    rw [append_assoc, readLines_append_silent hsilent.1, hmore]
    exact onto_of first bytes (bytesOfAll tokens) x
  | case3 first bytes token tokens htoken ih => grind [commentReads_of_ne, bytesOfAll_cons]

theorem weight_of (first : Bool) (bytes bytes' : List UInt8) :
    weight (some (.of first (bytes ++ bytes'))) = weight (some (.of first bytes)) + bytes'.length := by
  cases first with
  | false => exact length_append
  | true =>
    show 1 + (bytes ++ bytes').length = 1 + bytes.length + bytes'.length
    rw [length_append, Nat.add_assoc]

theorem weights_block (first : Bool) (bytes : List UInt8) (tokens : List Token) :
    weights (blockReads first bytes tokens) =
      weight (some (.of first (bytes ++ bytesOfAll tokens))) + weights (commentReads tokens) := by
  fun_induction blockReads first bytes tokens with
  | case1 first bytes =>
    rw [bytesOfAll_nil, append_nil]
    rfl
  | case2 first bytes comment tokens ih =>
    have hcons : ∀ lines, weights (some (.of first bytes) :: lines) = weight (some (.of first bytes)) + weights lines :=
      fun _ => sum_cons
    have hbytes : bytesOfAll (.lineEnd comment :: tokens) = bytesOfAll tokens := rfl
    have hdata : weight (some (.of false ([] ++ bytesOfAll tokens))) = (bytesOfAll tokens).length := rfl
    grind [weights_append, commentReads_lineEnd, weight_of]
  | case3 first bytes token tokens htoken ih =>
    rw [ih, commentReads_of_ne htoken, bytesOfAll_cons, append_assoc]

theorem mem_block (h : y ∈ commentReads tokens) : y ∈ blockReads first bytes tokens := by
  fun_induction blockReads first bytes tokens with
  | case1 first bytes => exact absurd h not_mem_nil
  | case2 first bytes comment tokens ih => grind [commentReads_lineEnd]
  | case3 first bytes token tokens htoken ih =>
    rw [commentReads_of_ne htoken] at h
    exact ih h

/-! ## Sprites -/

def contentBytes : OutputContent → List UInt8
  | .pseudo tokens => Text.bytesOf "-1 * 0\t" ++ tokens.flatMap fun t => Text.bytesOf (tokenText t)
  | .reference num => Text.bytesOf ("-1 sprite " ++ Text.decimal num ++ "\t")

def contentReads : OutputContent → List (Option Line)
  | .pseudo tokens => blockReads true [] tokens
  | .reference num => [some (.reference num)]

/-- The further lines of the comments of a sprite as they are read. -/
def contentComments : OutputContent → List (Option Line)
  | .pseudo tokens => commentReads tokens
  | .reference _ => []

theorem readLine?_reference (num : Int) :
    readLine? (referenceHead ++ (bytesOf (decimal num) ++ [0x09])) = some (.reference num) := by
  have hpseudo : pseudoHead.isPrefixOf (referenceHead ++ (bytesOf (decimal num) ++ [0x09])) = false := rfl
  have hreference : referenceHead.isPrefixOf (referenceHead ++ (bytesOf (decimal num) ++ [0x09])) = true := rfl
  have hnumber : (bytesOf (decimal num) ++ [0x09]).takeWhile (!isBlank ·) = bytesOf (decimal num) := by
    rw [takeWhile_append_of_pos]
    · exact append_nil _
    · intro b hb
      have hle := le_of_mem_bytesOf_decimal hb
      have hspace : b ≠ 0x20 := by
        rintro rfl
        exact absurd hle (by decide)
      have htab : b ≠ 0x09 := by
        rintro rfl
        exact absurd hle (by decide)
      grind [isBlank]
  unfold readLine?
  rw [hpseudo, if_neg Bool.false_ne_true, if_pos hreference, drop_left]
  dsimp only
  rw [hnumber, drop_left, lineBytes_blank rfl, if_pos lineBytes_nil, readInt?_decimal]
  rfl

theorem splitOn_content (c : OutputContent) : ((contentBytes c).splitOn 0x0A).map readLine? = contentReads c := by
  cases c with
  | pseudo tokens =>
    have hhead : bytesOf "-1 * 0\t" = pseudoHead ++ [0x09] := (bytesOf_eq_flatMap _).trans rfl
    unfold contentBytes
    rw [hhead]
    exact Opens.pseudo.splitOn_block tokens
  | reference num =>
    have hbytes : contentBytes (.reference num) = referenceHead ++ (bytesOf (decimal num) ++ [0x09]) := by
      have hhead : bytesOf "-1 sprite " = referenceHead := (bytesOf_eq_flatMap _).trans rfl
      have htab : bytesOf "\t" = [0x09] := (bytesOf_eq_flatMap _).trans rfl
      grind [contentBytes, bytesOf_append]
    have hline : 0x0A ∉ contentBytes (.reference num) := by
      rw [hbytes, mem_append, mem_append, not_or, not_or]
      refine ⟨by decide, fun hmem => ?_, by decide⟩
      exact absurd (le_of_mem_bytesOf_decimal hmem) (by decide)
    rw [splitOn_eq_singleton hline, map_singleton, hbytes, readLine?_reference]
    rfl

theorem splitOn_contents (contents : List OutputContent) :
    ((contents.flatMap fun c => contentBytes c ++ [0x0A]).splitOn 0x0A).map readLine? =
      contents.flatMap contentReads ++ [silent] := by
  induction contents with
  | nil =>
    show [readLine? []] = [silent]
    have hpseudo : pseudoHead.isPrefixOf [] = false := rfl
    have hreference : referenceHead.isPrefixOf [] = false := rfl
    unfold readLine?
    rw [hpseudo, hreference, if_neg Bool.false_ne_true, if_neg Bool.false_ne_true, lineBytes_nil]
    rfl
  | cons c contents ih =>
    rw [flatMap_cons, append_assoc, singleton_append, splitOn_append_cons_self, map_append,
      splitOn_content, ih, flatMap_cons, append_assoc]

theorem readLines_contents (h : ∀ y ∈ contents.flatMap contentComments, y = silent) :
    readLines (contents.flatMap contentReads ++ [silent]) = some ([], contents.map sprite) := by
  induction contents with
  | nil => rfl
  | cons c contents ih =>
    rw [flatMap_cons, forall_mem_append] at h
    rw [flatMap_cons, append_assoc]
    cases c with
    | pseudo tokens =>
      refine (readLines_block h.1 (ih h.2)).trans ?_
      show some ([], OutputSprite.pseudo (bytesOfAll tokens ++ []) :: _) = _
      rw [append_nil]
      rfl
    | reference num =>
      show (readLines (contents.flatMap contentReads ++ [silent])).bind (Line.reference num).onto = _
      rw [ih h.2]
      rfl

theorem weights_contents (contents : List OutputContent) : weights (contents.flatMap contentReads) =
      ((contents.map sprite).map spriteWeight).sum + weights (contents.flatMap contentComments) := by
  induction contents with
  | nil => rfl
  | cons c contents ih =>
    have hc : weights (contentReads c) = spriteWeight c.sprite + weights (contentComments c) := by
      cases c with
      | pseudo tokens => exact weights_block true [] tokens
      | reference num => rfl
    grind [weights_append]

theorem mem_contentReads (h : y ∈ contents.flatMap contentComments) : y ∈ contents.flatMap contentReads := by
  obtain ⟨c, hc, hy⟩ := mem_flatMap.mp h
  refine mem_flatMap.mpr ⟨c, hc, ?_⟩
  cases c with
  | pseudo tokens => exact mem_block hy
  | reference num => exact absurd hy not_mem_nil

/-! ## Whole listings -/

def sourceBytes (source : String) : List UInt8 :=
  if source.isEmpty then [] else Text.bytesOf "// Source: " ++ Text.bytesOf source ++ [0x0A]

def headBytes (source : String) : List UInt8 :=
  Text.bytesOf "// Automatically generated by grfc\n" ++ sourceBytes source ++
    Text.bytesOf "// Format: NFO version 32\n"

def listingBytes (source : String) (contents : List OutputContent) : List UInt8 :=
  headBytes source ++ contents.flatMap fun c => contentBytes c ++ [0x0A]

def headReads (source : String) : List (Option Line) :=
  silent :: (if source.isEmpty then [] else silent :: furtherReads (Text.bytesOf source)) ++ [silent]

theorem splitOn_comment {comment : List UInt8} (h : 0x0A ∉ text) (rest : List UInt8) :
    ((0x2F :: 0x2F :: text ++ comment ++ 0x0A :: rest).splitOn 0x0A).map readLine? =
      silent :: furtherReads comment ++ (rest.splitOn 0x0A).map readLine? := by
  rw [splitOn_append_cons_self, map_append, (closes_comment h).splitOn]
  rfl

theorem splitOn_head (source : String) (rest : List UInt8) : ((headBytes source ++ rest).splitOn 0x0A).map readLine? =
      headReads source ++ (rest.splitOn 0x0A).map readLine? := by
  have hfirst : bytesOf "// Automatically generated by grfc\n" =
      0x2F :: 0x2F :: bytesOf " Automatically generated by grfc" ++ [] ++ [0x0A] := by
    rw [bytesOf_eq_flatMap, bytesOf_eq_flatMap]
    rfl
  have hformat : bytesOf "// Format: NFO version 32\n" =
      0x2F :: 0x2F :: bytesOf " Format: NFO version 32" ++ [] ++ [0x0A] := by
    rw [bytesOf_eq_flatMap, bytesOf_eq_flatMap]
    rfl
  have hmark : bytesOf "// Source: " = 0x2F :: 0x2F :: bytesOf " Source: " := by
    rw [bytesOf_eq_flatMap, bytesOf_eq_flatMap]
    rfl
  have hlines : 0x0A ∉ bytesOf " Automatically generated by grfc" ∧
      0x0A ∉ bytesOf " Format: NFO version 32" ∧ 0x0A ∉ bytesOf " Source: " := by
    simp only [bytesOf_eq_flatMap]
    decide
  -- Every line of the head is a comment, and only the name of the source can go on in further lines.
  unfold headBytes headReads sourceBytes
  rw [hfirst, hformat, append_assoc, append_assoc, append_assoc _ [0x0A], append_assoc _ [0x0A],
    singleton_append, singleton_append, splitOn_comment hlines.1]
  split
  · rw [nil_append, splitOn_comment hlines.2.1]
    rfl
  · rw [hmark, append_assoc _ [0x0A], singleton_append, splitOn_comment hlines.2.2, splitOn_comment hlines.2.1]
    simp only [cons_append, append_assoc, nil_append]
    rfl

theorem mem_headReads {source : String} : y ∈ headReads source ↔ y = silent ∨ y ∈ furtherReads (bytesOf source) := by
  unfold headReads
  split
  · simp_all [furtherReads]
  · simp only [mem_append, mem_cons, not_mem_nil, or_false]
    tauto

theorem weights_headReads (source : String) : weights (headReads source) = weights (furtherReads (bytesOf source)) := by
  unfold headReads
  split
  · next hempty =>
      rw [String.isEmpty_iff.mp hempty, bytesOf_empty]
      rfl
  · have hsilent : ∀ lines, weights (silent :: lines) = weights lines := fun lines => sum_cons.trans (Nat.zero_add _)
    rw [cons_append, cons_append, hsilent, hsilent, weights_append]
    rfl

/-- **A listing is read back as its sprites** if and only if the further lines of names stand for nothing. -/
theorem read_listingBytes_iff (source : String) (contents : List OutputContent) :
    read (listingBytes source contents) = some (contents.map sprite) ↔
      Inert source ∧ ∀ y ∈ contents.flatMap contentComments, y = silent := by
  have hlines : ((listingBytes source contents).splitOn 0x0A).map readLine? =
      headReads source ++ (contents.flatMap contentReads ++ [silent]) := by
    unfold listingBytes
    rw [splitOn_head, splitOn_contents]
  unfold read
  rw [hlines]
  constructor
  · intro hread
    obtain ⟨x, hx, hpending⟩ := Option.bind_eq_some_iff.mp hread
    obtain ⟨hnone, hweight⟩ := readLines_weight hx
    split at hpending
    · next hempty =>
        -- The sprites weigh as much as the lines that they come from, so the other lines have no weight.
        have hsprites : readWeight x = ((contents.map sprite).map spriteWeight).sum := by
          rw [readWeight, List.isEmpty_iff.mp hempty, Option.some.inj hpending, length_nil, Nat.zero_add]
        have hlast : weights [silent] = 0 := rfl
        rw [weights_append, weights_append, weights_headReads, weights_contents, hlast, hsprites] at hweight
        have hsource : weights (furtherReads (bytesOf source)) = 0 := by omega
        have hcomments : weights (contents.flatMap contentComments) = 0 := by omega
        rw [weights, List.sum_eq_zero_iff_forall_eq_nat, forall_mem_map] at hsource hcomments
        refine ⟨fun y hy => eq_silent_of_weight ?_ (hsource y hy), fun y hy => eq_silent_of_weight ?_ (hcomments y hy)⟩
        · rintro rfl
          exact hnone (mem_append_left _ (mem_headReads.mpr (.inr hy)))
        · rintro rfl
          exact hnone (mem_append_right _ (mem_append_left _ (mem_contentReads hy)))
    · cases hpending
  · rintro ⟨hinert, hsilent⟩
    have hheads : ∀ y ∈ headReads source, y = silent := by
      intro y hy
      rcases mem_headReads.mp hy with hy | hy
      · exact hy
      · exact hinert y hy
    rw [readLines_append_silent hheads, readLines_contents hsilent]
    rfl

end Grf.Listing
