import Grf.Proofs.Lowering.Drafts
import Grf.Proofs.Lowering.Temporaries
import Grf.Proofs.Record.Numbers

/-! # Texts in records

In a record a text ends with a zero, and what comes after it can only be found by looking for this zero. But a text may
hold zeros itself, which are escaped bytes or code points, or plain characters. So the texts of a record, and what comes
after them, are read back if and only if none of them does (`texts_readBack`).
-/

namespace Grf

open List Token Grf.Parser EngineText

/-- **The size of a text is the length of the encoded text.** Both are found for the same texts, and fail with the same
errors. -/
theorem EngineText.size_eq_length (text : List UInt8) (finalZero forceAscii : Bool) :
    (∀ n, size text finalZero forceAscii = .ok n ↔
      ∃ bytes, encode text finalZero forceAscii = .ok bytes ∧ bytes.length = n) ∧
    ∀ e, size text finalZero forceAscii = .error e ↔ encode text finalZero forceAscii = .error e := by
  rw [size_eq]
  cases encode text finalZero forceAscii with
  | ok bytes => exact ⟨fun n => by simp [Except.map], fun e => by simp [Except.map]⟩
  | error e => exact ⟨fun n => by simp [Except.map], fun e => by simp [Except.map]⟩

/-! ## Reading texts -/

/-- Takes a text, which goes to the first zero. -/
def takeText : Parser (List UInt8)
  | [] => none
  | b :: rest => if b = 0 then some ([], rest) else (takeText rest).map fun x => (b :: x.1, x.2)

def takeTexts : Nat → Parser (List (List UInt8))
  | 0 => pure []
  | n + 1 => do
    let text ← takeText
    let texts ← takeTexts n
    return text :: texts

/-- Takes all bytes that are left, each as a number. -/
def takeAll : Parser (List Int) := fun bytes => some (bytes.map fun b => (b.toNat : Int), [])

/-- Takes a record by its layout, as its texts and the numbers after them. A message has a text if it is not a builtin
one, and may have a data text, which parameters follow. -/
def takeRecord : Parser (List (List UInt8) × List Int) := do
  let action ← takeNumber 1
  if action = 0x0B then
    let _ ← takeNumber 2
    let msgId ← takeNumber 1
    let custom ← takeTexts (if msgId = 0xFF then 1 else 0)
    let rest ← get
    let data ← takeTexts (if rest.isEmpty then 0 else 1)
    let params ← takeAll
    return (custom ++ data, params)
  else
    let _ ← takeNumber 5
    let texts ← takeTexts (if action = 0x08 then 2 else 1)
    return (texts, [])

abbrev zeroEnded (texts : List (List UInt8)) : List UInt8 := texts.flatMap (· ++ [0])

variable {text bytes rest : List UInt8} {params : List Int}

theorem reads_text (h : 0 ∉ text) : Reads takeText (text ++ [0]) text := by
  intro rest
  induction text with
  | nil => rfl
  | cons b text ih =>
    rw [mem_cons, not_or] at h
    exact (if_neg (Ne.symm h.1)).trans (congrArg (Option.map fun x => (b :: x.1, x.2)) (ih h.2))

theorem reads_texts {texts : List (List UInt8)} (h : ∀ text ∈ texts, 0 ∉ text) :
    Reads (takeTexts texts.length) (zeroEnded texts) texts := by
  induction texts with
  | nil => exact .pure []
  | cons text texts ih =>
    rw [forall_mem_cons] at h
    exact (reads_text h.1).bind (ih h.2).map

theorem takeText_zeroless (h : takeText.run bytes = some (text, rest)) : 0 ∉ text := by
  induction bytes generalizing text with
  | nil => cases h
  | cons b bytes ih =>
    change (if b = 0 then _ else _) = _ at h
    split at h
    · cases h
      exact not_mem_nil
    · rename_i hb
      obtain ⟨x, hx, ⟨⟩⟩ := Option.map_eq_some_iff.mp h
      exact not_mem_cons_of_ne_of_not_mem (Ne.symm hb) (ih hx)

theorem takeTexts_zeroless {n : Nat} {texts : List (List UInt8)}
    (h : (takeTexts n).run bytes = some (texts, rest)) : ∀ text ∈ texts, 0 ∉ text := by
  induction n generalizing bytes texts with
  | zero =>
    cases h
    simp
  | succ n ih =>
    obtain ⟨x, hx, h⟩ := bind_eq_some h
    obtain ⟨y, hy, ⟨⟩⟩ := bind_eq_some h
    exact forall_mem_cons.mpr ⟨takeText_zeroless hx, ih hy⟩

/-- Whatever the bytes are, no text with a zero is read from them. -/
theorem takeRecord_zeroless {texts : List (List UInt8)}
    (h : takeRecord.run bytes = some ((texts, params), rest)) : ∀ text ∈ texts, 0 ∉ text := by
  obtain ⟨action, -, h⟩ := bind_eq_some h
  split at h
  · obtain ⟨_, -, h⟩ := bind_eq_some h
    obtain ⟨_, -, h⟩ := bind_eq_some h
    obtain ⟨custom, hcustom, h⟩ := bind_eq_some h
    obtain ⟨_, -, h⟩ := bind_eq_some h
    obtain ⟨data, hdata, h⟩ := bind_eq_some h
    obtain ⟨_, -, ⟨⟩⟩ := bind_eq_some h
    exact forall_mem_append.mpr ⟨takeTexts_zeroless hcustom, takeTexts_zeroless hdata⟩
  · obtain ⟨_, -, h⟩ := bind_eq_some h
    obtain ⟨x, hx, ⟨⟩⟩ := bind_eq_some h
    exact takeTexts_zeroless hx

/-- The head of a file or the definition of a string. -/
theorem takeRecord_texts {action : UInt8} {head : List UInt8} {texts : List (List UInt8)} (haction : action ≠ 0x0B)
    (hhead : head.length = 5) (htexts : texts.length = if action = 0x08 then 2 else 1)
    (h : ∀ text ∈ texts, 0 ∉ text) :
    takeRecord.run ([action] ++ (head ++ zeroEnded texts)) = some ((texts, []), []) := by
  have hne : ¬littleEndian [action] = 0x0B := fun h => haction (UInt8.toNat_inj.mp h)
  have hcount : (if littleEndian [action] = 0x08 then 2 else 1) = texts.length := by
    rw [htexts]
    exact if_congr (UInt8.toNat_inj (b := 8)) rfl rfl
  have hreads : Reads takeRecord ([action] ++ (head ++ zeroEnded texts)) (texts, []) := by
    have haction : Reads (takeNumber 1) [action] _ := .number rfl rfl
    refine haction.bind ?_
    rw [if_neg hne, hcount]
    exact (Reads.number hhead rfl).bind (reads_texts h).map
  simpa using hreads []

/-- A message. -/
theorem takeRecord_message {severity lang msgId : UInt8} {custom data : List (List UInt8)} {params : List UInt8}
    (hcustom : custom.length = if msgId = 0xFF then 1 else 0) (hdata : data.length ≤ 1) (hparams : data = [] → params = [])
    (h : ∀ text ∈ custom ++ data, 0 ∉ text) :
    takeRecord.run ([0x0B] ++ ([severity, lang] ++ ([msgId] ++ (zeroEnded custom ++ (zeroEnded data ++ params))))) =
      some ((custom ++ data, params.map fun b => (b.toNat : Int)), []) := by
  have hcount : (if littleEndian [msgId] = 0xFF then 1 else 0) = custom.length := by
    rw [hcustom]
    exact if_congr (UInt8.toNat_inj (b := 0xFF)) rfl rfl
  have hrest : (if (zeroEnded data ++ params).isEmpty then 0 else 1) = data.length := by
    rcases Nat.le_one_iff_eq_zero_or_eq_one.mp hdata with h | h
    · obtain rfl := length_eq_zero_iff.mp h
      rw [hparams rfl]
      rfl
    · obtain ⟨text, rfl⟩ := length_eq_one_iff.mp h
      simp [zeroEnded]
  obtain ⟨hzeros, hzeros'⟩ := forall_mem_append.mp h
  have haction : Reads (takeNumber 1) [0x0B] 0x0B := .number rfl rfl
  have hfixed : Reads (takeNumber 2) [severity, lang] _ := .number rfl rfl
  have hid : Reads (takeNumber 1) [msgId] _ := .number rfl rfl
  rw [takeRecord, haction.run_bind, if_pos rfl, hfixed.run_bind, hid.run_bind, hcount, (reads_texts hzeros).run_bind]
  show (takeTexts (if (zeroEnded data ++ params).isEmpty then 0 else 1) >>= fun data => takeAll >>= fun params =>
    pure (custom ++ data, params)).run (zeroEnded data ++ params) = _
  rw [hrest, (reads_texts hzeros').run_bind]
  rfl

/-! ## Records with texts -/

/-- A text as it is encoded in a record, without the zero that ends it. -/
def encodedText (text : String) : List UInt8 := ((EngineText.encode (Text.bytesOf text) false false).toOption).getD []

theorem zeroText_eq {text : String} (h : Encodable text) : zeroText text = .ok [.text (encodedText text ++ [0])] := by
  obtain ⟨n, hn⟩ := h
  obtain ⟨bytes, hbytes, -⟩ := encode_of_size hn
  have hplain : encode (Text.bytesOf text) true false = (encode (Text.bytesOf text) false false).map (· ++ [0]) := by
    unfold encode
    cases encodePieces 0 (Text.bytesOf text) with
    | error e => rfl
    | ok x =>
      simp only [bind, Except.bind, Bool.and_false]
      exact congrArg Except.ok (by simp)
  unfold zeroText ofText encodedText
  rw [hplain] at hbytes ⊢
  cases hencode : encode (Text.bytesOf text) false false with
  | error e =>
    rw [hencode] at hbytes
    cases hbytes
  | ok plain => rfl

namespace Record

variable {pos : Position}

def texts (r : Record) : List String :=
  match r.body with
  | .grfInfo _ name description => [name, description]
  | .stringDefinition _ _ _ text => [text]
  | .errorMessage m => (if m.msgId = MessageRecord.customId then [m.custom] else []) ++ m.data.toList
  | _ => []

/-- The texts of a record and the numbers `params` after them are read from its bytes, to the last byte, if and only if
no text holds a zero. -/
def ReadsBack (r : Record) (params : List Int) : Prop := ∃ tokens, r.tokens = .ok tokens ∧
    (takeRecord.run (Token.bytesOfAll tokens) = some ((r.texts.map encodedText, params), []) ↔
      ∀ text ∈ r.texts, 0 ∉ encodedText text)

theorem readsBack_of_reads {r : Record} {tokens : List Token} (htokens : r.tokens = .ok tokens)
    (h : (∀ text ∈ r.texts.map encodedText, 0 ∉ text) →
      takeRecord.run (bytesOfAll tokens) = some ((r.texts.map encodedText, params), [])) : r.ReadsBack params :=
  ⟨tokens, htokens, fun hread _ htext => takeRecord_zeroless hread _ (mem_map_of_mem htext),
    fun hzeros => h (forall_mem_map.mpr hzeros)⟩

theorem readsBack_info {id : GrfId} {name description : String} (hid : id.bytes.length = 4) (hname : Encodable name)
    (hdescription : Encodable description) : ReadsBack ⟨pos, .grfInfo id name description⟩ [] := by
  have htokens : tokens ⟨pos, .grfInfo id name description⟩ = .ok ([byteOf 0x08, byteOf 8] ++ id.tokens ++
      [lineBreak] ++ ([.text (encodedText name ++ [0])] ++ ([lineBreak] ++ [.text (encodedText description ++ [0])]))) := by
    unfold tokens
    dsimp only
    rw [zeroText_eq hname, zeroText_eq hdescription]
    rfl
  have hbytes : bytesOfAll id.tokens = id.bytes := by
    simp [GrfId.tokens, bytesOfAll, flatMap_map, bytes]
  refine readsBack_of_reads htokens fun hzeros => ?_
  rw [← @takeRecord_texts 0x08 (8 :: id.bytes) _ (by decide) (by rw [length_cons, hid]) rfl hzeros]
  simp [bytesOfAll_append, hbytes, texts, bytes, lineBreak, byteOf]

theorem readsBack_definition {feature lang id : Int} {text : String} (h : Encodable text) :
    ReadsBack ⟨pos, .stringDefinition feature lang id text⟩ [] := by
  have htokens : tokens ⟨pos, .stringDefinition feature lang id text⟩ = .ok [byteOf 0x04, byteOf feature,
      byteOf (lang + 0x80), byteOf 1, wordOf id, .text (encodedText text ++ [0])] := by
    unfold tokens
    dsimp only
    rw [zeroText_eq h]
    rfl
  exact readsBack_of_reads htokens (@takeRecord_texts 0x04 (bytesOfAll [byteOf feature,
    byteOf (lang + 0x80), byteOf 1, wordOf id]) _ (by decide) rfl rfl)

/-- A message whose parameters are bytes. -/
theorem readsBack_message {m : MessageRecord} (h : m.Formed) (hparams : ∀ p ∈ m.params, 0 ≤ p ∧ p ≤ 0xFF) :
    ReadsBack ⟨pos, .errorMessage m⟩ m.params := by
  have hcustom : ∃ tokens, (if m.msgId = MessageRecord.customId then zeroText m.custom else .ok []) = .ok tokens ∧
      bytesOfAll tokens =
        zeroEnded ((if m.msgId = MessageRecord.customId then [m.custom] else []).map encodedText) := by
    split
    · rename_i hid
      exact ⟨_, zeroText_eq (h.custom hid), rfl⟩
    · exact ⟨[], rfl, rfl⟩
  obtain ⟨custom, hcustom, hcustomBytes⟩ := hcustom
  obtain ⟨tokens, htokens, hbytes⟩ : ∃ tokens, m.tokens = .ok tokens ∧ bytesOfAll tokens =
      [0x0B] ++ (bytesOfAll [byteOf m.severity, byteOf m.lang] ++ ((byteOf m.msgId).bytes ++ (bytesOfAll custom ++
          (zeroEnded (m.data.toList.map encodedText) ++ bytesOfAll (m.params.map byteOf))))) := by
    unfold MessageRecord.tokens
    rw [hcustom]
    cases hd : m.data with
    | none =>
      rw [h.params hd]
      exact ⟨_, rfl, by simp [byteOf, bytes]⟩
    | some data =>
      dsimp only
      rw [zeroText_eq (h.data data hd)]
      exact ⟨_, rfl, by simp [bytesOfAll_append, byteOf, bytes]⟩
  refine readsBack_of_reads htokens fun hzeros => ?_
  have hnumbers : ∀ params : List Int, (∀ p ∈ params, 0 ≤ p ∧ p ≤ 0xFF) →
      (bytesOfAll (params.map byteOf)).map (fun b => (b.toNat : Int)) = params := by
    intro params hparams
    induction params with
    | nil => rfl
    | cons p params ih =>
      rw [forall_mem_cons] at hparams
      exact cons_eq_cons.mpr ⟨toNat_byteOf hparams.1, ih hparams.2⟩
  have hcount : ((if m.msgId = MessageRecord.customId then [m.custom] else []).map encodedText).length =
      if UInt8.ofBitVec (BitVec.ofInt 8 m.msgId) = 0xFF then 1 else 0 := by
    rw [length_map]
    exact (apply_ite List.length _ _ _).trans (if_congr (byteOf_eq_iff h.msgId).symm rfl rfl)
  have hdata : (m.data.toList.map encodedText).length ≤ 1 := by
    cases m.data <;> simp
  have hnone : m.data.toList.map encodedText = [] → bytesOfAll (m.params.map byteOf) = [] := by
    intro hnone
    have hnone : m.data = none := by simpa using hnone
    rw [h.params hnone]
    rfl
  rw [texts, map_append] at hzeros ⊢
  rw [hbytes, hcustomBytes]
  refine (takeRecord_message hcount hdata hnone hzeros).trans ?_
  rw [hnumbers _ hparams]

end Record

namespace Lowering

variable {c c' : Context} {pos : Position}

theorem mapM_operandParam {α : Type} {f : α → Expr} {at' : α → Position} {as : List α} {params : List (List Record × Int)}
    (hc : c.InRange) (h : as.mapM (fun a => operandParam (f a) (at' a)) c = .ok params c') :
    ∀ x ∈ params, (0 ≤ x.2 ∧ x.2 ≤ 0xFF) ∧ ∃ pos steps, x.1 = planned pos steps := by
  induction as generalizing c params with
  | nil =>
    obtain ⟨rfl, rfl⟩ := pure_eq_ok.mp h
    simp
  | cons a as ih =>
    obtain ⟨x, d, rest, hx, hrest, rfl⟩ := mapM_cons_eq_ok.mp h
    obtain ⟨hext, -, hnumber, -⟩ := operandParam_spec hc hx
    obtain ⟨steps, hsteps⟩ := operandParam_planned hx
    exact forall_mem_cons.mpr ⟨⟨hnumber, _, steps, hsteps⟩, ih (hext.inRange hc) hrest⟩

/-- The data of a message is what it was given, and its parameters have numbers that are bytes. -/
theorem lowerMessage_params {m : Message} {rs : List Record} (hc : c.InRange) (h : lowerMessage m c = .ok rs c') :
    ∀ r ∈ rs, ∀ record, r.body = .errorMessage record →
      record.data = m.data ∧ ∀ p ∈ record.params, 0 ≤ p ∧ p ≤ 0xFF := by
  rw [lowerMessage_eq] at h
  obtain ⟨_, d, hchecks, h⟩ := bind_eq_ok.mp h
  obtain ⟨_, htakes, -⟩ := messageChecks_program.hands_of_pure _ _ _ hc hchecks
  obtain ⟨params, e, hparams, h⟩ := bind_eq_ok.mp h
  obtain ⟨records, hrecords, rfl⟩ := bind_pure_eq_ok.mp h
  have hall := mapM_operandParam (htakes.inRange hc) hparams
  intro r hr record hbody
  rcases mem_append.mp hr with hr | hr
  · -- the records before a message are assignments and their patches
    obtain ⟨x, hx, hr⟩ := mem_flatMap.mp hr
    obtain ⟨pos, steps, hsteps⟩ := (hall x hx).2
    rw [hsteps] at hr
    obtain ⟨s, -, hr⟩ := mem_flatMap.mp hr
    unfold AssignPlan.records Record.withPatches at hr
    split at hr <;> simp only [mem_cons, not_mem_nil, or_false] at hr
    · cases hr ▸ hbody
    · rcases hr with rfl | rfl <;> cases hbody
  · obtain ⟨lang, msgId, custom, rfl, -⟩ := messageRecords_yields m _ _ _ _ hrecords r hr
    cases hbody
    refine ⟨rfl, fun p hp => ?_⟩
    obtain ⟨x, hx, rfl⟩ := mem_map.mp hp
    exact (hall x hx).1

/-- **Texts are read back from records, with what comes after them, if they hold no zeros.** This is so for the name and
the description of a file, the text of a string, and the custom text and the data of a message. Whatever texts are
accepted, the record is written, and it is read back if and only if none of them holds a zero. -/
theorem texts_readBack (hc : c.InRange) :
    (∀ id name description pos r, id.bytes.length = 4 → grfInfo id name description pos = .ok r →
      r.texts = [name, description] ∧ r.ReadsBack []) ∧
    (∀ feature lang id text pos r, stringDefinition feature lang id text pos c = .ok r c' →
      r.texts = [text] ∧ r.ReadsBack []) ∧
    ∀ m rs, lowerMessage m c = .ok rs c' →
      ∀ r ∈ rs, ∀ record, r.body = .errorMessage record → record.data = m.data ∧ r.ReadsBack record.params := by
  refine ⟨fun id name description pos r hid h => ?_, fun feature lang id text pos r h => ?_, fun m rs h r hr record hbody => ?_⟩
  · obtain ⟨hname, hdescription, rfl⟩ := grfInfo_eq_ok.mp h
    exact ⟨rfl, Record.readsBack_info hid hname hdescription⟩
  · obtain ⟨-, rfl, htext⟩ := stringDefinition_eq_ok h
    exact ⟨rfl, Record.readsBack_definition htext⟩
  · obtain ⟨hdata, hparams⟩ := lowerMessage_params hc h r hr record hbody
    have hdraft : r.Drafted True := lowerMessage_drafted m _ _ _ h r hr
    obtain ⟨at', body⟩ := r
    obtain rfl : body = _ := hbody
    exact ⟨hdata, Record.readsBack_message hdraft hparams⟩

/-- A file with an escaped zero in its name cannot be read back, one without zeros can be. -/
theorem texts_readBack_escaped :
    let id : GrfId := ⟨[0x41, 0x42, 0x43, 0x44]⟩
    ∃ r r' tokens tokens', grfInfo id "a" "b" {} = .ok r ∧ grfInfo id "a\\00" "b" {} = .ok r' ∧
      r.tokens = .ok tokens ∧ r'.tokens = .ok tokens' ∧
      takeRecord.run (Token.bytesOfAll tokens) = some ((["a", "b"].map encodedText, []), []) ∧
      takeRecord.run (Token.bytesOfAll tokens') ≠ some ((["a\\00", "b"].map encodedText, []), []) := by
  intro id
  have hread := @texts_readBack (.create 0 none none) (.create 0 none none) (Context.create_inRange 0 none none)
  have ha : Encodable "a" := ⟨2, by decide +kernel⟩
  have hb : Encodable "b" := ⟨2, by decide +kernel⟩
  have hzero : Encodable "a\\00" := ⟨3, by decide +kernel⟩
  obtain ⟨r, hr⟩ : ∃ r, grfInfo id "a" "b" {} = .ok r := ⟨_, grfInfo_eq_ok.mpr ⟨ha, hb, rfl⟩⟩
  obtain ⟨r', hr'⟩ : ∃ r, grfInfo id "a\\00" "b" {} = .ok r := ⟨_, grfInfo_eq_ok.mpr ⟨hzero, hb, rfl⟩⟩
  obtain ⟨htexts, tokens, htokens, hiff⟩ := hread.1 id _ _ _ r rfl hr
  obtain ⟨htexts', tokens', htokens', hiff'⟩ := hread.1 id _ _ _ r' rfl hr'
  rw [htexts] at hiff
  rw [htexts'] at hiff'
  refine ⟨r, r', tokens, tokens', hr, hr', htokens, htokens', hiff.mpr (by decide +kernel), fun h => ?_⟩
  exact absurd (hiff'.mp h) (by decide +kernel)

end Lowering

end Grf
