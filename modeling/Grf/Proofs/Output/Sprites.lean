import Grf.Proofs.Output.Tracked

/-! # The sprites of records

Each record stands for one sprite. An output that checks its sizes writes a record if and only if it accepts the size
and the record prints as many bytes (`Output.Checks.writeAll_ok_iff`), so two outputs differ in what they write only
by the sizes they accept. The recorder keeps the sprites of the records, one for each (`Recorder.forM_shows`).
-/

namespace Grf

open List Record Output Writing Recorder

/-- A sprite of a sequence: a pseudo sprite with its bytes, or a reference to a sprite of the graphics section. -/
inductive OutputSprite
  | pseudo (bytes : List UInt8)
  | reference (num : Int)
deriving DecidableEq, Repr

/-- What a record writes: a pseudo sprite token by token, or a reference. -/
inductive OutputContent
  | pseudo (tokens : List Token)
  | reference (num : Int)

def OutputContent.sprite : OutputContent → OutputSprite
  | pseudo tokens => .pseudo (Token.bytesOfAll tokens)
  | reference num => .reference num

open Writing (Brings)

def Record.content? (r : Record) : Option OutputContent :=
  match r.body with
  | .realSprite _ num => some (.reference num)
  | _ => r.tokens.toOption.map .pseudo

theorem Record.content?_of_size? {r : Record} {n : Int} (h : r.size? = some n) :
    r.content? = r.tokens.toOption.map .pseudo := by
  obtain ⟨pos, body⟩ := r
  cases body <;> cases h <;> rfl

namespace Writing

variable {σ α : Type} {o o' : σ}

/-- Whether a computation succeeds with a result and an output that pass a test. -/
def succeeds (m : Writing σ α) (o : σ) (test : α → σ → Bool) : Bool :=
  match m o with
  | .ok a o' => test a o'
  | .error _ _ => false

theorem eq_ok_of_succeeds {m : Writing σ α} {test : α → σ → Bool} (h : succeeds m o test = true) :
    ∃ a o', m o = .ok a o' ∧ test a o' = true := by
  unfold succeeds at h
  cases hm : m o with
  | ok a o' =>
    rw [hm] at h
    exact ⟨a, o', rfl, h⟩
  | error f o' =>
    rw [hm] at h
    cases h

end Writing

section

variable {σ : Type} [Output σ] {o o' : σ}

theorem Output.pseudo_eq_ok {n : Int} {x : Except Fault (List Token)} {u : Unit} : pseudo n x o = .ok u o' ↔
      ∃ tokens o₁ o₂, x = .ok tokens ∧ start n o = .ok () o₁ ∧
        tokens.forM print o₁ = .ok () o₂ ∧ finish o₂ = .ok u o' := by
  unfold pseudo
  rw [bind_eq_ok]
  constructor
  · rintro ⟨⟨⟩, o₁, hstart, h⟩
    obtain ⟨tokens, o₁', hlift, h⟩ := bind_eq_ok.mp h
    obtain ⟨hx, rfl⟩ := lift_eq_ok.mp hlift
    obtain ⟨⟨⟩, o₂, hprint, hfinish⟩ := bind_eq_ok.mp h
    exact ⟨tokens, o₁, o₂, hx, hstart, hprint, hfinish⟩
  · rintro ⟨tokens, o₁, o₂, hx, hstart, hprint, hfinish⟩
    refine ⟨(), o₁, hstart, bind_eq_ok.mpr ⟨tokens, o₁, lift_eq_ok.mpr ⟨hx, rfl⟩, ?_⟩⟩
    exact bind_eq_ok.mpr ⟨(), o₂, hprint, hfinish⟩

theorem Record.write_eq_ok {r : Record} (h : r.write o = .ok () o') :
    (∃ num, r.content? = some (.reference num) ∧ reference num o = .ok () o') ∨
      ∃ n tokens, r.size? = some n ∧ r.tokens = .ok tokens ∧ r.content? = some (.pseudo tokens) ∧
        pseudo n (.ok tokens) o = .ok () o' := by
  cases hsize : r.size? with
  | none =>
    obtain ⟨pos, body⟩ := r
    cases body <;> cases hsize
    exact .inl ⟨_, rfl, h⟩
  | some n =>
    rw [write_of_size? hsize] at h
    obtain ⟨tokens, -, -, htokens, -⟩ := pseudo_eq_ok.mp h
    have hcontent := r.content?_of_size? hsize
    rw [htokens] at h hcontent
    exact .inr ⟨n, tokens, rfl, htokens, hcontent, h⟩

/-- The run of a list of records, from what one record does: `R` tells how contents take one output to the next. -/
theorem Record.forM_run {R : List OutputContent → σ → σ → Prop} (hnil : ∀ o : σ, R [] o o)
    (hcons : ∀ {c cs o o₁ o'}, R [c] o o₁ → R cs o₁ o' → R (c :: cs) o o')
    (hwrite : ∀ {r : Record} {o o' : σ}, r.write o = .ok () o' → ∃ c, r.content? = some c ∧ R [c] o o')
    {records : List Record} (h : records.forM write o = .ok () o') :
    ∃ contents, records.map content? = contents.map some ∧ R contents o o' := by
  induction records generalizing o with
  | nil =>
    cases h
    exact ⟨[], rfl, hnil _⟩
  | cons r records ih =>
    obtain ⟨⟨⟩, o₁, hr, hrest⟩ := bind_eq_ok.mp h
    grind

end

/-! ## Outputs that check sizes -/

/-- A record is fit to be written: its size is accepted, and it prints as many bytes. -/
def Record.Writable (accepts : Int → Prop) (r : Record) : Prop := ∀ n, r.size? = some n → accepts n ∧ Prints r.tokens n

/-- An output that takes only sizes that `accepts` tells, and closes a sprite only if its size is met. -/
structure Output.Checks (σ : Type) [Output σ] (tracker : σ → Tracker) (accepts : Int → Prop) : Prop
    extends Output.Counts σ tracker accepts where
  accepted : ∀ size (o o' : σ), Output.start size o = .ok () o' → accepts size
  met : ∀ (size : Int) (printed : Nat) (o o' : σ), tracker o = ⟨some (size, printed)⟩ →
    Output.finish o = .ok () o' → size = printed

namespace Output.Checks

variable {σ : Type} [Output σ] {tracker : σ → Tracker} {accepts : Int → Prop} {o o' : σ} {r : Record}
  {records : List Record}
variable (hc : Checks σ tracker accepts) (ho : tracker o = {})
include hc ho

theorem writable_of_write (h : r.write o = .ok () o') : r.Writable accepts := by
  intro n hsize
  rw [write_of_size? hsize] at h
  obtain ⟨tokens, o₁, o₂, htokens, hstart, hprint, hfinish⟩ := pseudo_eq_ok.mp h
  have hn := hc.accepted n o o₁ hstart
  obtain ⟨⟨⟩, o₁', hstart', ho₁⟩ := hc.start n hn o ho
  cases hstart.symm.trans hstart'
  obtain ⟨⟨⟩, o₂', hprint', ho₂⟩ := hc.printAll tokens n 0 o₁ ho₁
  cases hprint.symm.trans hprint'
  have hmet := hc.met n _ o₂ o' ho₂ hfinish
  rw [Nat.zero_add] at hmet
  exact ⟨hn, tokens, htokens, hmet.symm⟩

theorem write_of_writable (h : r.Writable accepts) : ∃ o', r.write o = .ok () o' ∧ tracker o' = {} := by
  cases hsize : r.size? with
  | none =>
    obtain ⟨pos, body⟩ := r
    cases body <;> cases hsize
    obtain ⟨⟨⟩, hwrite⟩ := hc.reference _ o ho
    exact hwrite
  | some n =>
    obtain ⟨hn, hprints⟩ := h n hsize
    rw [write_of_size? hsize]
    obtain ⟨⟨⟩, hpseudo⟩ := hc.pseudo hn hprints o ho
    exact hpseudo

theorem write_tracker (h : r.write o = .ok () o') : tracker o' = {} := by
  obtain ⟨o₁, hwrite, ho₁⟩ := hc.write_of_writable ho (hc.writable_of_write ho h)
  cases h.symm.trans hwrite
  exact ho₁

theorem writable_of_forM
    (h : records.forM write o = .ok () o') : (∀ r ∈ records, r.Writable accepts) ∧ tracker o' = {} := by
  induction records generalizing o with
  | nil =>
    cases h
    exact ⟨fun _ hr => absurd hr not_mem_nil, ho⟩
  | cons r records ih =>
    obtain ⟨⟨⟩, o₁, hwrite, hrest⟩ := bind_eq_ok.mp h
    grind [hc.write_tracker, hc.writable_of_write]

theorem forM_of_writable
    (h : ∀ r ∈ records, r.Writable accepts) : ∃ o', records.forM write o = .ok () o' ∧ tracker o' = {} := by
  induction records generalizing o with
  | nil => exact ⟨o, rfl, ho⟩
  | cons r records ih =>
    rw [forall_mem_cons] at h
    obtain ⟨o₁, hwrite, ho₁⟩ := hc.write_of_writable ho h.1
    obtain ⟨o', hrest, ho'⟩ := ih ho₁ h.2
    exact ⟨o', bind_eq_ok.mpr ⟨(), o₁, hwrite, hrest⟩, ho'⟩

/-- **Records are written to the end if and only if each of them is fit for it.** -/
theorem writeAll_ok_iff : (∃ e o', writeAll records o = .ok e o') ↔ ∀ r ∈ records, r.Writable accepts := by
  constructor
  · rintro ⟨e, o', hall⟩
    obtain ⟨⟨⟩, o₁, hforM, -⟩ := bind_eq_ok.mp hall
    exact (hc.writable_of_forM ho hforM).1
  · intro hrecords
    obtain ⟨o₁, hforM, ho₁⟩ := hc.forM_of_writable ho hrecords
    obtain ⟨e, o', hclose, -⟩ := hc.close o₁ ho₁
    exact ⟨e, o', bind_eq_ok.mpr ⟨(), o₁, hforM, hclose⟩⟩

end Output.Checks

theorem Tracker.finish_eq_ok {size : Int} {printed : Nat} {t : Tracker}
    (h : (⟨some (size, printed)⟩ : Tracker).finish = .ok t) : size = printed := by
  by_contra hne
  simp_all [finish]

namespace Listing

theorem checks : Output.Checks Listing Listing.tracker fun _ => True where
  toCounts := tracks.toCounts
  accepted _ _ _ _ := trivial
  met size printed o o' ho h := by
    obtain ⟨t, ht, -⟩ := tracked_eq_ok.mp h
    rw [ho] at ht
    exact Tracker.finish_eq_ok ht

end Listing

namespace Container

theorem checks : Output.Checks Container Container.tracker fun n => 0 < n ∧ n ≤ 0xFFFF where
  toCounts := tracks.toCounts
  accepted size o o' h := by
    by_contra hsize
    obtain ⟨o₁, herror⟩ := tracks.refuse size hsize o
    rw [herror] at h
    cases h
  met size printed o o' ho h := by
    obtain ⟨t, ht, -⟩ := tracked_eq_ok.mp h
    rw [ho] at ht
    exact Tracker.finish_eq_ok ht

end Container

namespace Recorder

variable {o o' : Recorder} {u : Unit} {tokens : List Token} {records : List Record}

theorem start_eq_ok {size : Int} :
    start size o = .ok u o' ↔ (0 ≤ size ∧ size ≤ maxSize) ∧ ∃ t, o.tracker.start size = .ok t ∧
      o' = { o with tracker := t, current := #[] } := by
  unfold start
  rw [bind_eq_ok]
  by_cases hsize : 0 ≤ size ∧ size ≤ maxSize
  · have htest : (decide (size < 0) || decide (maxSize < size)) = false := by
      grind
    simp only [htest, Bool.false_eq_true, if_false, hsize, true_and, and_self]
    constructor
    · rintro ⟨⟨⟩, o₁, htrack, hmodify⟩
      obtain ⟨t, ht, rfl⟩ := updated_eq_ok.mp htrack
      obtain rfl := modify_eq_ok.mp hmodify
      exact ⟨t, ht, rfl⟩
    · rintro ⟨t, ht, rfl⟩
      exact ⟨(), _, updated_eq_ok.mpr ⟨t, ht, rfl⟩, modify_eq_ok.mpr rfl⟩
  · have htest : (decide (size < 0) || decide (maxSize < size)) = true := by
      simp only [Bool.or_eq_true, decide_eq_true_eq]
      omega
    simp only [htest, if_true, hsize, false_and, iff_false, not_exists]
    rintro ⟨⟩ o₁ ⟨-, ⟨⟩⟩

theorem print_eq_ok {token : Token} : print token o = .ok u o' ↔ ∃ t, o.tracker.addToken token = .ok t ∧
      o' = { o with tracker := t, current := o.current ++ token.bytes } :=
  tracked_eq_ok

theorem finish_eq_ok : finish o = .ok u o' ↔ ∃ t, o.tracker.finish = .ok t ∧
      o' = { o with tracker := t, sprites := o.sprites.push o.current.toList, current := #[] } :=
  tracked_eq_ok

theorem start_brings {size : Int} (h : 0 ≤ size ∧ size ≤ maxSize) :
    Brings tracker (start size) {} ⟨some (size, 0)⟩ := by
  intro o ho
  refine ⟨(), _, start_eq_ok.mpr ⟨h, _, ?_, rfl⟩, rfl⟩
  rw [ho, Tracker.start_none]

theorem print_brings (size : Int) (printed : Nat) (token : Token) :
    Brings tracker (print token) ⟨some (size, printed)⟩ ⟨some (size, printed + token.bytes.length)⟩ := by
  intro o ho
  refine ⟨(), _, print_eq_ok.mpr ⟨_, ?_, rfl⟩, rfl⟩
  rw [ho, Tracker.addToken_current]

theorem finish_brings (printed : Nat) : Brings tracker finish ⟨some ((printed : Int), printed)⟩ {} := by
  intro o ho
  refine ⟨(), _, finish_eq_ok.mpr ⟨_, ?_, rfl⟩, rfl⟩
  rw [ho, Tracker.finish_exact]

theorem checks : Output.Checks Recorder tracker fun n => 0 ≤ n ∧ n ≤ maxSize where
  start _ h := start_brings h
  print := print_brings
  finish := finish_brings
  reference num := by
    have hmodify : Brings tracker
        (modify fun o => { o with references := (o.sprites.size, num) :: o.references }) {} {} := .modify fun _ => rfl
    exact hmodify.bind fun _ => (start_brings (by decide)).bind fun _ =>
      (print_brings 5 0 (.byte Container.referenceInfo)).bind fun _ =>
      (print_brings 5 1 (Token.dwordOf num)).bind fun _ => finish_brings 5
  close := by
    have hmodify : Brings tracker (modify fun o => { o with closed := true }) {} {} := .modify fun _ => rfl
    exact hmodify.bind fun _ => .pure none
  accepted _ _ _ h := (start_eq_ok.mp h).1
  met size printed o o' ho h := by
    obtain ⟨t, ht, -⟩ := finish_eq_ok.mp h
    rw [ho] at ht
    exact Tracker.finish_eq_ok ht

theorem printAll_keeps (h : tokens.forM print o = .ok u o') : o'.sprites = o.sprites ∧ o'.references = o.references ∧
      o'.current.toList = o.current.toList ++ Token.bytesOfAll tokens := by
  induction tokens generalizing o with
  | nil =>
    cases h
    exact ⟨rfl, rfl, (append_nil _).symm⟩
  | cons token tokens ih =>
    obtain ⟨⟨⟩, o₁, hprint, hrest⟩ := bind_eq_ok.mp h
    obtain ⟨t, -, rfl⟩ := print_eq_ok.mp hprint
    grind [Token.bytesOfAll_cons]

theorem pseudo_keeps {n : Int} (h : pseudo n (.ok tokens) o = .ok u o') :
    o'.sprites = o.sprites.push (Token.bytesOfAll tokens) ∧ o'.references = o.references := by
  obtain ⟨tokens', o₁, o₂, ⟨⟩, hstart, hprint, hfinish⟩ := pseudo_eq_ok.mp h
  obtain ⟨-, t, -, rfl⟩ := start_eq_ok.mp hstart
  obtain ⟨hsprites, hreferences, hcurrent⟩ := printAll_keeps hprint
  obtain ⟨t', -, rfl⟩ := finish_eq_ok.mp hfinish
  exact ⟨by rw [hsprites, hcurrent]; rfl, hreferences⟩

theorem reference_keeps {num : Int} (h : reference num o = .ok u o') :
    o'.sprites = o.sprites.push (Container.referenceInfo :: (Token.dwordOf num).bytes) ∧
      o'.references = (o.sprites.size, num) :: o.references := by
  replace h := modify_bind_eq_ok.mp h
  obtain ⟨⟨⟩, o₁, hstart, h⟩ := bind_eq_ok.mp h
  obtain ⟨-, t, -, rfl⟩ := start_eq_ok.mp hstart
  obtain ⟨⟨⟩, o₂, hinfo, h⟩ := bind_eq_ok.mp h
  obtain ⟨t₂, -, rfl⟩ := print_eq_ok.mp hinfo
  obtain ⟨⟨⟩, o₃, hnum, hfinish⟩ := bind_eq_ok.mp h
  obtain ⟨t₃, -, rfl⟩ := print_eq_ok.mp hnum
  obtain ⟨t₄, -, rfl⟩ := finish_eq_ok.mp hfinish
  exact ⟨rfl, rfl⟩

def spriteBytes : OutputSprite → List UInt8
  | .pseudo bytes => bytes
  | .reference num => Container.referenceInfo :: (Token.dwordOf num).bytes

def referenceNum? : OutputSprite → Option Int
  | .pseudo _ => none
  | .reference num => some num

/-- The sprites that were recorded: a reference at each place that is kept as one. -/
def entries (o : Recorder) : List OutputSprite :=
  o.sprites.toList.mapIdx fun i bytes =>
    match o.references.lookup i with
    | some num => .reference num
    | none => .pseudo bytes

/-- The recorder shows `sprites`. -/
structure Shows (o : Recorder) (sprites : List OutputSprite) : Prop where
  bytes : o.sprites.toList = sprites.map spriteBytes
  references : ∀ i, o.references.lookup i = sprites[i]?.bind referenceNum?

namespace Shows

variable {sprites : List OutputSprite}
variable (h : o.Shows sprites)
include h

theorem size : o.sprites.size = sprites.length := by
  rw [← Array.length_toList, h.bytes, length_map]

theorem entries_eq : o.entries = sprites := by
  unfold entries
  rw [h.bytes]
  apply ext_getElem?
  intro i
  rw [getElem?_mapIdx, getElem?_map, h.references]
  cases sprites[i]? with
  | none => rfl
  | some sprite => cases sprite <;> rfl

theorem concat_pseudo {bytes : List UInt8} (hsprites : o'.sprites = o.sprites.push bytes)
    (hreferences : o'.references = o.references) : o'.Shows (sprites ++ [.pseudo bytes]) where
  bytes := by
    rw [hsprites, Array.toList_push, h.bytes, map_append]
    rfl
  references i := by
    rw [hreferences, h.references]
    rcases Nat.lt_trichotomy i sprites.length with hlt | rfl | hgt
    · rw [getElem?_append_left hlt]
    · rw [getElem?_concat_length, getElem?_eq_none (Nat.le_refl _)]
      rfl
    grind

theorem concat_reference {num : Int}
    (hsprites : o'.sprites = o.sprites.push (Container.referenceInfo :: (Token.dwordOf num).bytes))
    (hreferences : o'.references = (o.sprites.size, num) :: o.references) :
    o'.Shows (sprites ++ [.reference num]) where
  bytes := by
    rw [hsprites, Array.toList_push, h.bytes, map_append]
    rfl
  references i := by
    rw [hreferences, h.size, lookup_cons]
    rcases Nat.lt_trichotomy i sprites.length with hlt | rfl | hgt
    · rw [beq_false_of_ne (Nat.ne_of_lt hlt), getElem?_append_left hlt, ← h.references]
    · rw [beq_self_eq_true, getElem?_concat_length]
      rfl
    grind [h.references]

end Shows

/-- **The recorder shows the sprites of the records**, in order. -/
theorem forM_shows {sprites : List OutputSprite} (ho : o.Shows sprites) (h : records.forM write o = .ok () o') :
    ∃ contents : List OutputContent, records.map content? = contents.map some ∧
      o'.Shows (sprites ++ contents.map OutputContent.sprite) := by
  obtain ⟨contents, hcontents, hshows⟩ := forM_run
    (R := fun (contents : List OutputContent) (o o' : Recorder) => ∀ sprites, o.Shows sprites → o'.Shows (sprites ++ contents.map OutputContent.sprite))
    (fun o sprites ho => by rwa [map_nil, append_nil])
    (fun hc hcs sprites ho => by
      grind)
    (fun hr => by
      rcases write_eq_ok hr with ⟨num, hcontent, hwrite⟩ | ⟨n, tokens, -, -, hcontent, hwrite⟩
      · obtain ⟨hbytes, hreferences⟩ := reference_keeps hwrite
        exact ⟨_, hcontent, fun sprites ho => ho.concat_reference hbytes hreferences⟩
      · obtain ⟨hbytes, hreferences⟩ := pseudo_keeps hwrite
        exact ⟨_, hcontent, fun sprites ho => ho.concat_pseudo hbytes hreferences⟩) h
  exact ⟨contents, hcontents, hshows sprites ho⟩

theorem writeAll_shows {e : Option Error} (h : writeAll records ({} : Recorder) = .ok e o') :
    e = none ∧ ∃ contents : List OutputContent, records.map content? = contents.map some ∧
      o'.Shows (contents.map OutputContent.sprite) := by
  obtain ⟨⟨⟩, o₁, hforM, ⟨⟩⟩ := bind_eq_ok.mp h
  have hempty : ({} : Recorder).Shows [] := ⟨rfl, fun _ => rfl⟩
  obtain ⟨contents, hcontents, hshows⟩ := forM_shows hempty hforM
  exact ⟨rfl, contents, hcontents, hshows.bytes, hshows.references⟩

end Recorder

end Grf
