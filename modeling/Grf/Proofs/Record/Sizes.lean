import Grf.Proofs.Table.Patches

/-! # Announced sizes

A sprite is announced with its size before it is written. `Record.Formed` says what a record has to be made of so that
it can be written, and then its bytes are as many as have been announced (`Record.tokens_cases`), unless the shift of a
variable is out of range. The size of a text is found by a walk over its pieces, and the walk that encodes it ends in
the same way (`EngineText.size_eq`).
-/

namespace Grf

open List PropertyEntry Record Grf.Expr

variable {width : Int}

namespace EngineText

variable {extra index n : Nat} {rest text : List UInt8} {p : Piece}

theorem length_toList_loop (bytes : ByteArray) (i : Nat) (acc : List UInt8) :
    (ByteArray.toList.loop bytes i acc).length = acc.length + (bytes.size - i) := by
  fun_induction ByteArray.toList.loop bytes i acc with
  | case1 i acc hlt ih =>
    rw [ih, length_cons]
    omega
  | case2 i acc hge =>
    rw [length_reverse]
    omega

theorem length_charBytes (h : isChar n = true) : (Text.charBytes n).length = Piece.codePointWidth n := by
  have hvalid : n.isValidChar := by
    simp only [isChar, Bool.or_eq_true, Bool.and_eq_true, decide_eq_true_eq] at h
    omega
  have hval : (Char.ofNat n).val.toNat = n := by
    have hchar : Char.ofNat n = Char.ofNatAux n hvalid := dif_pos hvalid
    rw [hchar]
    rfl
  have hlength : (Text.charBytes n).length = (Char.ofNat n).utf8Size := by
    unfold Text.charBytes ByteArray.toList
    rw [length_toList_loop, length_nil, Nat.zero_add, Nat.sub_zero]
    exact String.utf8ByteSize_singleton
  grind [Char.utf8Size, Piece.codePointWidth, UInt32.le_iff_toNat_le]

theorem size_of_escape (h : escape rest = .ok (p, extra)) : p.bytes.length = p.size := by
  unfold escape at h
  split at h
  case h_1 => cases h
  case h_2 | h_3 | h_4 =>
    cases h
    rfl
  case h_5 =>
    split at h
    · cases h
    · split at h
      · rename_i n hn
        cases h
        exact length_charBytes (Option.filter_eq_some_iff.mp hn).2
      · cases h
  case h_6 =>
    split at h
    · cases h
    · split at h
      · cases h
        rfl
      · cases h

theorem size_of_piece {b : UInt8} (h : piece index b rest = .ok (p, extra)) : p.bytes.length = p.size := by
  unfold piece at h
  split at h
  · exact size_of_escape h
  · split at h
    · cases h
      rfl
    · cases h

theorem sizePieces_eq (index : Nat) (text : List UInt8) :
    sizePieces index text = (encodePieces index text).map fun r => (r.1.length, r.2) := by
  fun_induction sizePieces index text with
  | case1 index =>
    rw [encodePieces]
    rfl
  | case2 index b rest ih =>
    rw [encodePieces]
    cases hpiece : piece index b rest with
    | error e => rfl
    | ok found =>
      obtain ⟨p, extra⟩ := found
      show (sizePieces _ _ >>= _) = Except.map _ (encodePieces _ _ >>= _)
      rw [ih extra]
      cases encodePieces (index + 1 + extra) (rest.drop extra) with
      | error e => rfl
      | ok r => simp [bind, Except.bind, Except.map, pure, Except.pure, size_of_piece hpiece]

/-- **The size of a text is the length of the encoded text**, and a text that has no size is not encoded for the
same reason. -/
theorem size_eq (text : List UInt8) (finalZero forceAscii : Bool) :
    size text finalZero forceAscii = (encode text finalZero forceAscii).map List.length := by
  unfold size encode
  rw [sizePieces_eq]
  cases encodePieces 0 text with
  | error e => rfl
  | ok r =>
    obtain ⟨bytes, wide⟩ := r
    have hcomm : bytes.length + 2 = 2 + bytes.length := Nat.add_comm ..
    cases wide <;> cases forceAscii <;> cases finalZero <;>
      simp [bind, Except.bind, Except.map, pure, Except.pure, throw, throwThe, MonadExceptOf.throw, marker, hcomm]

theorem encode_of_size {finalZero forceAscii : Bool} (h : size text finalZero forceAscii = .ok n) :
    ∃ bytes, encode text finalZero forceAscii = .ok bytes ∧ bytes.length = n := by
  rw [size_eq] at h
  cases hencode : encode text finalZero forceAscii with
  | error e =>
    rw [hencode] at h
    cases h
  | ok bytes =>
    rw [hencode] at h
    exact ⟨bytes, rfl, Except.ok.inj h⟩

end EngineText

/-! ## Tokens -/

variable {α : Type} {n : Int} {e : Expr}

namespace Token

@[simp] theorem bytesOfAll_nil : bytesOfAll [] = [] := rfl

@[simp] theorem bytesOfAll_cons (t : Token) (ts : List Token) : bytesOfAll (t :: ts) = t.bytes ++ bytesOfAll ts := rfl

@[simp] theorem length_byteOf (v : Int) : (byteOf v).bytes.length = 1 := rfl

@[simp] theorem length_wordOf (v : Int) : (wordOf v).bytes.length = 2 := rfl

@[simp] theorem length_dwordOf (v : Int) : (dwordOf v).bytes.length = 4 := rfl

@[simp] theorem bytes_lineEnd (comment : String) : (lineEnd comment).bytes = [] := rfl

@[simp] theorem length_extended (v : Int) : (bytesOfAll (extended v)).length = extendedSize v := by
  unfold extended extendedSize
  split <;> rfl

theorem length_bytesOfAll_map {f : α → Token} {size : Nat} (as : List α)
    (h : ∀ a, (f a).bytes.length = size) : (bytesOfAll (as.map f)).length = size * as.length := by
  induction as with
  | nil => rfl
  | cons a as ih =>
    rw [map_cons, bytesOfAll_cons, length_append, h, ih, length_cons]
    ring

theorem length_bytesOfAll_flatMap {f : α → List Token} {size : α → Int} {as : List α}
    (h : ∀ a ∈ as, ((bytesOfAll (f a)).length : Int) = size a) :
    ((bytesOfAll (as.flatMap f)).length : Int) = total (as.map size) := by
  induction as with
  | nil => rfl
  | cons a as ih =>
    rw [forall_mem_cons] at h
    rw [flatMap_cons, bytesOfAll_append, length_append, Int.natCast_add, h.1, ih h.2]
    rfl

end Token

theorem Record.total_const (as : List α) (size : Int) : total (as.map fun _ => size) = size * as.length := by
  induction as with
  | nil => simp [total]
  | cons a as ih =>
    show size + total (as.map fun _ => size) = _
    rw [ih, length_cons]
    push_cast
    ring

/-- The tokens `x` can be written, and they have `n` bytes. -/
def Prints (x : Except Fault (List Token)) (n : Int) : Prop :=
  ∃ tokens, x = .ok tokens ∧ ((Token.bytesOfAll tokens).length : Int) = n

namespace Prints

variable {x : Except Fault (List Token)} {xs : List (Except Fault (List Token))} {m n : Int}

theorem ok {tokens : List Token} (h : ((Token.bytesOfAll tokens).length : Int) = n) :
    Prints (.ok tokens) n := ⟨tokens, rfl, h⟩

theorem pos_of_ok {v : Int} {ts : List Token} (h : Prints (.ok (Token.byteOf v :: ts)) n) : 0 < n := by
  obtain ⟨_, ⟨⟩, rfl⟩ := h
  rw [Token.bytesOfAll_cons, length_append, Token.length_byteOf]
  omega

theorem pos_of_join {v : Int} {ts : List Token} (h : Prints (joinTokens (.ok (Token.byteOf v :: ts) :: xs)) n) :
    0 < n := by
  obtain ⟨_, hjoin, rfl⟩ := h
  obtain ⟨_, hlists, ⟨⟩⟩ := except_bind_eq_ok hjoin
  rw [List.mapM_cons] at hlists
  obtain ⟨_, ⟨⟩, hlists⟩ := except_bind_eq_ok hlists
  obtain ⟨rest, -, ⟨⟩⟩ := except_bind_eq_ok hlists
  exact pos_of_ok ⟨_, rfl, rfl⟩

theorem cast (h : Prints x m) (hmn : m = n) : Prints x n := hmn ▸ h

theorem of_lays {cells : List Cell} {shown : List String} {tokens : List Token} (hx : x = .ok tokens)
    (h : Lays x cells shown) : Prints x (cellsSize cells) :=
  ⟨tokens, hx, (h tokens hx).spells.length⟩

theorem join_nil : Prints (joinTokens []) 0 := .ok rfl

theorem join_cons (h : Prints x m) (hs : Prints (joinTokens xs) n) : Prints (joinTokens (x :: xs)) (m + n) := by
  obtain ⟨tokens, rfl, rfl⟩ := h
  obtain ⟨rest, hrest, rfl⟩ := hs
  obtain ⟨lists, hlists, ⟨⟩⟩ := except_bind_eq_ok hrest
  refine ⟨tokens ++ lists.flatten, ?_, by rw [bytesOfAll_append, length_append, Int.natCast_add]⟩
  unfold joinTokens
  rw [List.mapM_cons, hlists]
  rfl

theorem mapM {f : α → Except Fault (List Token)} {size : α → Int} {as : List α} (h : ∀ a ∈ as, Prints (f a) (size a)) :
    Prints (do return (← as.mapM f).flatten) (total (as.map size)) := by
  have hjoin : (do return (← as.mapM f).flatten) = joinTokens (as.map f) := by
    unfold joinTokens
    rw [mapM_map]
    rfl
  rw [hjoin]
  clear hjoin
  induction as with
  | nil => exact join_nil
  | cons a as ih =>
    rw [forall_mem_cons] at h
    exact join_cons h.1 (ih h.2)

end Prints

theorem IsWidth.prints (h : IsWidth n) (v : Int) : Prints (do return [← Token.sized v n]) n := by
  obtain ⟨t, ht⟩ := h.sized v
  refine ⟨[t], by rw [ht]; rfl, ?_⟩
  rw [Token.bytesOfAll_cons, Token.bytesOfAll_nil, append_nil]
  exact length_bytes_sized ht

theorem Encodable.prints {text : String} (h : Encodable text) : Prints (zeroText text) (textSize text) := by
  obtain ⟨n, hn⟩ := h
  obtain ⟨bytes, hbytes, hlength⟩ := EngineText.encode_of_size hn
  refine ⟨[.text bytes], ?_, ?_⟩
  · unfold zeroText Token.ofText
    rw [hbytes]
    rfl
  · simp [textSize, hn, Token.bytes, hlength]

/-! ## Values -/

/-- The id of a record is known wherever it is written in an expression. -/
def Expr.IsBound : Expr → Prop
  | record _ id => 0 ≤ id
  | _ => True

theorem Expr.IsLeaf.tokensAs (h : e.IsLeaf) (hbound : e.IsBound) (hwidth : IsWidth width)
    (last : Bool) : ∃ tokens, e.tokensAs last width = .ok tokens := by
  rcases h.exists_eq with ⟨value, rfl⟩ | ⟨number, rfl⟩ | ⟨name, id, rfl⟩
  · obtain ⟨tokens, htokens, -⟩ := hwidth.prints value
    exact ⟨tokens, htokens⟩
  · obtain ⟨tokens, htokens, -⟩ := hwidth.prints 0
    exact ⟨tokens, htokens⟩
  · obtain ⟨tokens, htokens, -⟩ := hwidth.prints id
    have hknown : ¬id < 0 := Int.not_lt.mpr hbound
    exact ⟨tokens, by rw [tokensAs, if_neg hknown, htokens]⟩

namespace VarRead

/-- What a variable read of a stream is made of. Its shift apart, it can be written as soon as the record
that it may call is bound. -/
structure Formed (v : VarRead Expr) : Prop where
  param : ∀ e ∈ v.param, e.IsLeaf
  fields : ∀ field ∈ [v.mask, v.add, v.div, v.mod], ∀ e ∈ field, e.isImmediate = true
  divisor : (v.div.isSome && v.mod.isSome) = false

def CallBound (v : VarRead Expr) : Prop := ∀ e ∈ v.param, e.IsBound

theorem argTokens_ok {v : VarRead Expr} (h : v.Formed) (hbound : v.CallBound) (num : Int) :
    ∃ tokens, argTokens num v.param = .ok tokens := by
  cases hparam : v.param with
  | none => exact ⟨[], rfl⟩
  | some e =>
    have hleaf := h.param e hparam
    simp only [argTokens, hleaf.isValue, if_true]
    exact hleaf.tokensAs (hbound e hparam) (.inl rfl) true

theorem fieldTokens_ok {field : Option Expr} {width : Int} (h : ∀ e ∈ field, e.isImmediate = true)
    (hwidth : IsWidth width) (literal : Int) : ∃ tokens, fieldTokens literal width field = .ok tokens := by
  cases field with
  | none =>
    obtain ⟨tokens, htokens, -⟩ := hwidth.prints literal
    exact ⟨tokens, htokens⟩
  | some e =>
    have himm := h e rfl
    have hbound : e.IsBound := by
      cases e with
      | record => cases himm
      | _ => trivial
    exact (isLeaf_of_isImmediate himm).tokensAs hbound hwidth true

/-- **A read is written if its shift can be**, and nothing else can go wrong. -/
theorem tokensAs_cases {v : VarRead Expr} {width : Int} (h : v.Formed) (hbound : v.CallBound)
    (hwidth : IsWidth width) (last : Bool) :
    (v.ShiftFits ∧ ∃ tokens, (var v).tokensAs last width = .ok tokens) ∨
      (¬v.ShiftFits ∧ (var v).tokensAs last width = .error (.invalidShift v.shift v.num)) := by
  obtain ⟨arg, harg⟩ := argTokens_ok h hbound v.num
  obtain ⟨mask, hmask⟩ := fieldTokens_ok (h.fields v.mask (by simp)) hwidth (fullMask width)
  obtain ⟨add, hadd⟩ := fieldTokens_ok (h.fields v.add (by simp)) hwidth 0
  obtain ⟨divisor, hdivisor⟩ : ∃ tokens, fieldTokens 1 width (v.div <|> v.mod) = .ok tokens := by
    refine fieldTokens_ok ?_ hwidth 1
    cases hdiv : v.div with
    | some e => exact fun _ he => h.fields v.div (by simp) _ (hdiv ▸ he)
    | none => exact h.fields v.mod (by simp)
  have hsingle := h.divisor
  obtain ⟨num, param, shift, vmask, vadd, div, mod⟩ := v
  rw [tokensAs_var, if_neg (by simp [hsingle])]
  by_cases hfits : 0 ≤ shift ∧ shift ≤ maxShift
  · refine .inl ⟨hfits, ?_⟩
    have hcheck : ¬(decide (shift < 0) || decide (maxShift < shift)) = true := by
      simp_all
    rw [if_neg hcheck, harg, hmask, hadd, hdivisor]
    split <;> exact ⟨_, rfl⟩
  · refine .inr ⟨hfits, if_pos ?_⟩
    simp only [Bool.or_eq_true, decide_eq_true_eq]
    omega

end VarRead

/-! ## Streams -/

/-- What an element of a stream is made of: an operator, a read with the property `read`, or a slot with the
property `slot`. -/
def StreamItem.MadeOf (read : VarRead Expr → Prop) (slot : Slot → Prop) : StreamItem → Prop
  | .op _ => True
  | .operand (.var v) => read v
  | .operand (.store s) | .operand (.load s) => slot s
  | .operand _ => False

theorem StreamItem.MadeOf.mono {read read' : VarRead Expr → Prop} {slot slot' : Slot → Prop} {item : StreamItem}
    (h : item.MadeOf read slot) (hread : ∀ v, read v → read' v) (hslot : ∀ s, slot s → slot' s) :
    item.MadeOf read' slot' := by
  cases item with
  | op => trivial
  | operand e =>
    cases e with
    | var v => exact hread v h
    | store s | load s => exact hslot s h
    | _ => exact h

def streamReads (items : List StreamItem) : List (VarRead Expr) := items.filterMap fun
    | .operand (.var v) => some v
    | _ => none

def Slot.HasRegister (s : Slot) : Prop := s.register?.isSome = true

theorem Slot.HasRegister.tokens {s : Slot} (h : s.HasRegister) (hwidth : IsWidth width) (last : Bool) :
    (∃ tokens, (store s).tokensAs last width = .ok tokens) ∧ ∃ tokens, (load s).tokensAs last width = .ok tokens := by
  obtain ⟨number, hnumber⟩ := Option.isSome_iff_exists.mp h
  obtain ⟨stored, hstored⟩ := hwidth.sized number
  obtain ⟨mask, hmask⟩ := hwidth.sized (VarRead.fullMask width)
  simp only [tokensAs, hnumber, storeTokens, loadTokens, hstored, hmask]
  exact ⟨⟨_, rfl⟩, ⟨_, rfl⟩⟩

def VarRead.Ready (v : VarRead Expr) : Prop := v.Formed ∧ v.CallBound

/-- The read can be written, and its shift too if `fits` is true. -/
def VarRead.Settled (fits : Prop) (v : VarRead Expr) : Prop := v.Ready ∧ (fits → v.ShiftFits)

theorem operand_cases (h : (StreamItem.operand e).MadeOf VarRead.Ready Slot.HasRegister)
    (hwidth : IsWidth width) (last : Bool) :
    ((∀ v, e = .var v → v.ShiftFits) ∧ ∃ tokens, e.tokensAs last width = .ok tokens) ∨
      ∃ v, e = .var v ∧ ¬v.ShiftFits ∧ e.tokensAs last width = .error (.invalidShift v.shift v.num) := by
  cases e with
  | var v =>
    rcases v.tokensAs_cases h.1 h.2 hwidth last with ⟨hfits, hok⟩ | ⟨hfits, herror⟩
    · grind
    · exact .inr ⟨v, rfl, hfits, herror⟩
  | store s => exact .inl ⟨by simp, (Slot.HasRegister.tokens h hwidth last).1⟩
  | load s => exact .inl ⟨by simp, (Slot.HasRegister.tokens h hwidth last).2⟩
  | _ => exact h.elim

/-- **A stream is written, or one of its shifts cannot be.** -/
theorem streamTokens_cases {items : List StreamItem} (hwidth : IsWidth width)
    (h : ∀ item ∈ items, item.MadeOf VarRead.Ready Slot.HasRegister) :
    ((∀ v ∈ streamReads items, v.ShiftFits) ∧ ∃ tokens, streamTokens width items = .ok tokens) ∨
      ∃ v ∈ streamReads items, ¬v.ShiftFits ∧ streamTokens width items = .error (.invalidShift v.shift v.num) := by
  induction items with
  | nil => exact .inl ⟨by simp [streamReads], [], rfl⟩
  | cons item items ih =>
    rw [forall_mem_cons] at h
    cases item with
    | op operator =>
      have hreads : streamReads (.op operator :: items) = streamReads items := rfl
      have htokens : streamTokens width (.op operator :: items) = (do
          return Token.byteOf ((operator.tableCode?.getD 0 : Nat) : Int) :: (← streamTokens width items)) := rfl
      rw [hreads, htokens]
      rcases ih h.2 with ⟨hfits, tokens, hok⟩ | ⟨v, hv, hfits, herror⟩
      · exact .inl ⟨hfits, _, by rw [hok]; rfl⟩
      · exact .inr ⟨v, hv, hfits, by rw [herror]; rfl⟩
    | operand e =>
      have hreads : ∀ v, v ∈ streamReads (.operand e :: items) ↔ e = .var v ∨ v ∈ streamReads items := by
        cases e <;> simp [streamReads, eq_comm]
      have htokens : streamTokens width (.operand e :: items) = (do
          let here ← e.tokensAs items.isEmpty width
          return here ++ lineBreak :: (← streamTokens width items)) := rfl
      rw [htokens]
      -- a read that cannot be written comes before whatever is wrong with the rest
      rcases operand_cases h.1 hwidth items.isEmpty with ⟨hhere, here, hok⟩ | ⟨v, he, hfits, herror⟩
      · rw [hok]
        rcases ih h.2 with ⟨hfits, tokens, hok'⟩ | ⟨v, hv, hfits, herror⟩
        · refine .inl ⟨fun v hv => ?_, _, by rw [hok']; rfl⟩
          rcases (hreads v).mp hv with hv | hv
          · exact hhere v hv
          · exact hfits v hv
        · exact .inr ⟨v, (hreads v).mpr (.inr hv), hfits, by rw [herror]; rfl⟩
      · exact .inr ⟨v, (hreads v).mpr (.inl he), hfits, by rw [herror]; rfl⟩

/-! ## Properties, messages and graphics -/

/-- What a property can be set to. -/
inductive PropertyContent.Formed : PropertyContent → Prop
  | const (value : Int) : Formed (.value (.const value))
  | param (number : Int) : Formed (.value (.paramAt number))
  | string (name : String) {id : Int} (h : 0 ≤ id) : Formed (.value (.string name id))
  | items (items : List Int) : Formed (.items items)

/-- What a property in a table is made of. -/
structure PropertyEntry.Formed (e : PropertyEntry) : Prop where
  width : IsWidth e.size
  content : e.content.Formed

theorem IsWidth.mapM_sized (h : IsWidth n) (items : List Int) : ∃ ts, items.mapM (Token.sized · n) = .ok ts := by
  induction items with
  | nil => exact ⟨[], rfl⟩
  | cons item items ih =>
    obtain ⟨t, ht⟩ := h.sized item
    obtain ⟨ts, hts⟩ := ih
    exact ⟨t :: ts, by rw [List.mapM_cons, ht, hts]; rfl⟩

theorem PropertyEntry.Formed.prints {e : PropertyEntry} (h : e.Formed) : Prints e.tokens (1 + e.valueSize) := by
  obtain ⟨hwidth, hcontent⟩ := h
  obtain ⟨num, size, content⟩ := e
  have hvalue : ∀ value : Expr, (∃ ts, value.tokens size = .ok ts) →
      ∃ ts, tokens ⟨num, size, .value value⟩ = .ok ts := by
    simp_all [tokens]
  have hok : ∃ ts, tokens ⟨num, size, content⟩ = .ok ts := by
    cases hcontent with
    | const value => exact hvalue _ (Expr.IsLeaf.tokensAs (e := .const value) trivial trivial hwidth true)
    | param number => exact hvalue _ (Expr.IsLeaf.tokensAs (e := .paramAt number) trivial trivial hwidth true)
    | @string name id hid =>
      obtain ⟨ts, hts, -⟩ := hwidth.prints id
      simp_all [Expr.tokens, tokensAs, if_neg]
    | items items =>
      obtain ⟨ts, hts⟩ := hwidth.mapM_sized items
      exact ⟨_, by unfold tokens; dsimp only; rw [hts]; rfl⟩
  have hsize : cellsSize (cells ⟨num, size, content⟩) = 1 + valueSize ⟨num, size, content⟩ := by
    cases hcontent with
    | items items => exact (Lowering.PropertyPlans.array items).cellsSize
    | _ => exact congrArg (1 + ·) (Int.add_zero _)
  obtain ⟨ts, hts⟩ := hok
  rw [← hsize]
  exact .of_lays hts (tokens_lays _)

/-- What a message is made of. Parameters come after the data. -/
structure MessageRecord.Formed (m : MessageRecord) : Prop where
  msgId : 0 ≤ m.msgId ∧ m.msgId ≤ 0xFF
  custom : m.msgId = customId → Encodable m.custom
  data : ∀ text ∈ m.data, Encodable text
  params : m.data = none → m.params = []

theorem MessageRecord.Formed.prints {m : MessageRecord} (h : m.Formed) :
    Prints m.tokens (4 + m.params.length + (if m.msgId = customId then textSize m.custom else 0)
      + (m.data.map textSize).getD 0) := by
  have hcustom : Prints (if m.msgId = customId then zeroText m.custom else .ok [])
      (if m.msgId = customId then textSize m.custom else 0) := by
    split
    · rename_i hid
      exact (h.custom hid).prints
    · exact .ok rfl
  have hjoin : ∀ {data : Except Fault (List Token)} {n : Int}, Prints data n → Prints (joinTokens [
      .ok [Token.byteOf 0x0B, Token.byteOf m.severity, Token.byteOf m.lang, Token.byteOf m.msgId],
      if m.msgId = customId then zeroText m.custom else .ok [], data])
      (4 + ((if m.msgId = customId then textSize m.custom else 0) + (n + 0))) := fun hdata =>
    .join_cons (.ok rfl) (.join_cons hcustom (.join_cons hdata .join_nil))
  unfold MessageRecord.tokens
  cases hd : m.data with
  | none =>
    refine (hjoin (n := 0) (.ok rfl)).cast ?_
    rw [h.params hd]
    simp
  | some text =>
    obtain ⟨ts, hts, hlength⟩ := (h.data text hd).prints
    have hdata : Prints (do return (← zeroText text) ++ m.params.map Token.byteOf)
        (textSize text + m.params.length) := by
      refine ⟨ts ++ m.params.map Token.byteOf, by rw [hts]; rfl, ?_⟩
      rw [bytesOfAll_append, length_append, Token.length_bytesOfAll_map _ Token.length_byteOf,
        Int.natCast_add, hlength, Nat.one_mul]
    grind

/-- The references of a graphics table are bound. -/
structure GraphicsRecord.IsBound (t : GraphicsRecord) : Prop where
  cargo : ∀ x ∈ t.cargo, 0 ≤ x.2.id
  default : 0 ≤ t.default.id

theorem GraphicsRef.prints {r : GraphicsRef} (h : 0 ≤ r.id) : Prints r.tokens 2 := by
  obtain ⟨ts, hts, hlength⟩ := IsWidth.prints (n := 2) (.inr (.inl rfl)) r.id
  refine ⟨ts, ?_, hlength⟩
  unfold GraphicsRef.tokens
  rw [Expr.tokens, tokensAs, if_neg (Int.not_lt.mpr h), hts]

theorem GraphicsRecord.IsBound.prints {t : GraphicsRecord} (h : t.IsBound) :
    Prints t.tokens (3 + total (t.ids.map fun id => (Token.extendedSize id : Int)) + 1 + 3 * t.cargo.length + 2) := by
  have hids : ((Token.bytesOfAll (t.ids.flatMap Token.extended)).length : Int) =
      total (t.ids.map fun id => (Token.extendedSize id : Int)) :=
    Token.length_bytesOfAll_flatMap fun id _ => by rw [Token.length_extended]
  have hcargo : Prints (do return (← t.cargo.mapM fun x =>
      return Token.byteOf x.1 :: (← x.2.tokens) ++ [lineBreak]).flatten)
      (total (t.cargo.map fun _ => 3)) := by
    refine .mapM fun x hx => ?_
    obtain ⟨ts, hts, hlength⟩ := GraphicsRef.prints (h.cargo x hx)
    refine ⟨Token.byteOf x.1 :: ts ++ [lineBreak], by rw [hts]; rfl, ?_⟩
    simp [bytesOfAll_append, lineBreak]
    omega
  rw [total_const] at hcargo
  refine (Prints.join_cons (m := 3 + total (t.ids.map fun id => (Token.extendedSize id : Int)) + 1)
    (.ok ?_) (.join_cons hcargo (.join_cons (GraphicsRef.prints h.default) .join_nil))).cast ?_
  · simp [bytesOfAll_append, lineBreak]
    omega
  · omega

/-! ## Decision tables -/

/-- What a decision table is made of, by the properties of the reads and of the slots in its stream. -/
structure TableRecord.Formed (read : VarRead Expr → Prop) (slot : Slot → Prop) (t : TableRecord) : Prop where
  width : IsWidth t.varSize
  size : t.streamSize = cellsSize (t.stream.flatMap (·.cells t.varSize))
  stream : ∀ item ∈ t.stream, item.MadeOf read slot

def TableResult.IsBound : TableResult → Prop
  | callback _ => True
  | ref _ id => 0 ≤ id

/-- A decision table that can be written, the shifts of its reads apart. They can be written too if `fits` is
true. -/
structure TableRecord.Complete (fits : Prop) (t : TableRecord) : Prop
    extends t.Formed (VarRead.Settled fits) Slot.HasRegister where
  results : ∀ range ∈ t.ranges, range.result.IsBound
  default : t.default.IsBound

theorem IsWidth.ranges_prints (h : IsWidth width) (ranges : List TableRange) :
    ∃ ts, (do return (← ranges.mapM (·.tokens width)).flatten : Except Fault (List Token)) = .ok ts := by
  have hrange : ∀ range ∈ ranges, Prints (range.tokens width) (2 + width + width) := by
    intro range _
    obtain ⟨low, hlow⟩ := h.sized range.min
    obtain ⟨high, hhigh⟩ := h.sized range.max
    refine ⟨[Token.wordOf range.result.word, low, high, lineBreak], ?_, ?_⟩
    · unfold TableRange.tokens
      rw [hlow, hhigh]
      rfl
    · have := length_bytes_sized hlow
      have := length_bytes_sized hhigh
      simp [lineBreak]
      omega
  obtain ⟨ts, hts, -⟩ := Prints.mapM hrange
  exact ⟨ts, hts⟩

theorem TableRecord.tokens_cases {t : TableRecord} {fits : Prop} (h : t.Complete fits) :
    ((∀ v ∈ streamReads t.stream, v.ShiftFits) ∧ Prints t.tokens (cellsSize t.cells)) ∨
      ∃ v ∈ streamReads t.stream, ¬v.ShiftFits ∧ t.tokens = .error (.invalidShift v.shift v.num) := by
  have hstream : ∀ item ∈ t.stream, item.MadeOf VarRead.Ready Slot.HasRegister := fun item hitem =>
    (h.stream item hitem).mono (fun _ hv => hv.1) fun _ hs => hs
  obtain ⟨ranges, hranges⟩ := h.width.ranges_prints t.ranges
  rcases streamTokens_cases h.width hstream with ⟨hfits, stream, hok⟩ | ⟨v, hv, hfits, herror⟩
  · refine .inl ⟨hfits, ?_⟩
    obtain ⟨ts, hts, -⟩ : Prints t.tokens _ := .join_cons (.ok rfl) (.join_cons ⟨stream, hok, rfl⟩
      (.join_cons (.ok rfl) (.join_cons ⟨ranges, hranges, rfl⟩ (.join_cons (.ok rfl) .join_nil))))
    exact .of_lays hts t.tokens_lays
  · refine .inr ⟨v, hv, hfits, ?_⟩
    unfold TableRecord.tokens joinTokens
    rw [herror]
    rfl

namespace Record

variable {r : Record} {fits : Prop} {n : Int}

def varReads (r : Record) : List (VarRead Expr) :=
  match r.body with
  | .decisionTable t => streamReads t.stream
  | _ => []

/-- What a record is made of, by the properties of decision tables and graphics tables. -/
def MadeOf (table : TableRecord → Prop) (graphics : GraphicsRecord → Prop) (r : Record) : Prop :=
  match r.body with
  | .grfInfo id name description => id.bytes.length = 4 ∧ Encodable name ∧ Encodable description
  | .propertyTable _ _ entries => ∀ e ∈ entries, e.Formed
  | .decisionTable t => table t
  | .graphicsTable t => graphics t
  | .stringDefinition _ _ _ text => Encodable text
  | .skip _ condition _ => IsWidth condition.size
  | .errorMessage m => m.Formed
  | .deactivation ids => ∀ id ∈ ids, id.bytes.length = 4
  | _ => True

/-- A record that can be written, the shifts of its variables apart. -/
def Complete (fits : Prop) (r : Record) : Prop := r.MadeOf (TableRecord.Complete fits) GraphicsRecord.IsBound

theorem length_grfId (id : GrfId) : (Token.bytesOfAll id.tokens).length = id.bytes.length := by
  have hone : ∀ b : UInt8, (Token.byte b).bytes.length = 1 := fun _ => rfl
  unfold GrfId.tokens
  rw [Token.length_bytesOfAll_map _ hone, Nat.one_mul]

variable (h : r.Complete fits)
include h

theorem prints (hsize : r.size? = some n) (htable : ∀ t, r.body ≠ .decisionTable t) : Prints r.tokens n := by
  obtain ⟨pos, body⟩ := r
  cases body with
  | decisionTable t => exact absurd rfl (htable t)
  | realSprite => cases hsize
  | spriteCount count =>
    cases hsize
    exact .ok rfl
  | grfInfo id name description =>
    cases hsize
    obtain ⟨hid, hname, hdescription⟩ := h
    refine (Prints.join_cons (m := 6) (.ok ?_) (.join_cons hname.prints (.join_cons (m := 0) (.ok rfl)
      (.join_cons hdescription.prints .join_nil)))).cast (by omega)
    simp [bytesOfAll_append, length_grfId, hid, lineBreak]
  | propertyTable feature id entries =>
    cases hsize
    have hentries := Prints.mapM fun e he => PropertyEntry.Formed.prints (h e he)
    exact (Prints.join_cons (m := 7) (.ok rfl) (.join_cons hentries .join_nil)).cast (by omega)
  | spriteTable feature sets sprites =>
    cases hsize
    refine .ok ?_
    rw [bytesOfAll_append, length_append, Int.natCast_add, Token.length_extended]
    rfl
  | spriteGroup g =>
    cases hsize
    refine .ok ?_
    rw [bytesOfAll_append, length_append, Int.natCast_add,
      Token.length_bytesOfAll_map _ fun set : Nat => Token.length_wordOf set, length_append]
    rfl
  | graphicsTable t =>
    cases hsize
    exact GraphicsRecord.IsBound.prints h
  | stringDefinition feature lang id text =>
    cases hsize
    exact (Prints.join_cons (m := 6) (.ok rfl) (.join_cons (Encodable.prints h) .join_nil)).cast (by omega)
  | bytePatchTable patches =>
    cases hsize
    refine .ok ?_
    have hpatches : ((Token.bytesOfAll (patches.flatMap fun p =>
        [Token.byteOf p.param, Token.byteOf p.size] ++ Token.extended p.offset ++ [lineBreak])).length : Int) =
        total (patches.map fun p => (2 + Token.extendedSize p.offset : Int)) := by
      refine Token.length_bytesOfAll_flatMap fun p _ => ?_
      simp [bytesOfAll_append, lineBreak]
      omega
    rw [← hpatches]
    simp [bytesOfAll_append]
    omega
  | skip action condition target =>
    cases hsize
    obtain ⟨value, hvalue⟩ := IsWidth.sized h condition.value
    refine ⟨[Token.byteOf action.code, Token.byteOf condition.param, Token.byteOf condition.size,
      Token.byteOf condition.cond, value, Token.byteOf target], ?_, ?_⟩
    · unfold tokens
      dsimp only
      rw [hvalue]
      rfl
    · have := length_bytes_sized hvalue
      simp
      omega
  | rangeReplace ranges =>
    cases hsize
    refine .ok ?_
    have hranges : ((Token.bytesOfAll (ranges.flatMap fun x =>
        [Token.byteOf x.1, Token.wordOf x.2])).length : Int) = total (ranges.map fun _ => 3) :=
      Token.length_bytesOfAll_flatMap fun x _ => rfl
    rw [total_const] at hranges
    rw [bytesOfAll_append, length_append, Int.natCast_add]
    exact congrArg (2 + ·) hranges
  | errorMessage m =>
    cases hsize
    exact MessageRecord.Formed.prints h
  | paramAssignment a =>
    cases hsize
    refine .ok ?_
    cases a.hasData <;> rfl
  | deactivation ids =>
    cases hsize
    refine .ok ?_
    have hids : ((Token.bytesOfAll (ids.flatMap GrfId.tokens)).length : Int) = total (ids.map fun _ => 4) :=
      Token.length_bytesOfAll_flatMap fun id hid => by rw [length_grfId, h id hid]; rfl
    rw [total_const] at hids
    rw [bytesOfAll_append, length_append, Int.natCast_add, hids]
    rfl
  | jumpTarget label =>
    cases hsize
    exact .ok rfl

theorem size_pos (hsize : r.size? = some n) : 0 < n := by
  obtain ⟨pos, body⟩ := r
  cases body with
  | realSprite => cases hsize
  | decisionTable t =>
    cases hsize
    have hstream : 0 ≤ t.streamSize := by
      have hfilled := (Lowering.writtenAs_decisionTable pos h.width.pos h.size).filled
      rw [h.size]
      refine cellsSize_nonneg fun cell hcell => Int.le_of_lt (hfilled cell ?_)
      simp only [cells, TableRecord.cells, mem_append, hcell, or_true, true_or]
    have hranges : 0 ≤ (t.ranges.length : Int) * (2 + 2 * t.varSize) := by
      have := h.width.pos
      exact Int.mul_nonneg (Int.natCast_nonneg _) (by omega)
    omega
  | skip action condition target =>
    cases hsize
    have := IsWidth.pos h
    omega
  | spriteCount =>
    cases hsize
    omega
  | grfInfo | propertyTable | graphicsTable | stringDefinition | errorMessage =>
    exact (prints h hsize (by simp)).pos_of_join
  | _ => exact (prints h hsize (by simp)).pos_of_ok

/-- **A record is written with as many bytes as announced**, or the shift of one of its variables cannot be
written. -/
theorem tokens_cases (hsize : r.size? = some n) : ((∀ v ∈ r.varReads, v.ShiftFits) ∧ Prints r.tokens n) ∨
      ∃ v ∈ r.varReads, ¬v.ShiftFits ∧ r.tokens = .error (.invalidShift v.shift v.num) := by
  obtain ⟨pos, body⟩ := r
  cases body with
  | decisionTable t =>
    have hlength := (Lowering.writtenAs_decisionTable pos h.width.pos h.size).size?
    obtain rfl := Option.some.inj (hlength.symm.trans hsize)
    exact TableRecord.tokens_cases h
  | _ => exact .inl ⟨by simp [varReads], prints h hsize (by simp)⟩

theorem shiftFits (hfits : fits) : ∀ v ∈ r.varReads, v.ShiftFits := by
  obtain ⟨pos, body⟩ := r
  cases body with
  | decisionTable t =>
    intro v hv
    obtain ⟨item, hitem, hread⟩ := mem_filterMap.mp hv
    split at hread
    · cases hread
      exact (h.stream _ hitem).2 hfits
    · cases hread
  | _ => simp [varReads]

end Record

end Grf
