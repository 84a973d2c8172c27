import Grf.Proofs.Lowering.Followers
import Grf.Proofs.Record.Sizes

/-! # What lowerings make

A lowering makes records that can be written as soon as references are bound and scratch slots have
registers. `Record.Drafted` says what such a record is made of. For properties that are strings this needs the
ids that strings have or can get to be numbers, which they stay in every lowering (`Program.numbered`).
-/

namespace Grf

open List

/-! ## Drafts -/

def IsStringId (id : Int) : Prop := 0xD000 ≤ id ∧ id ≤ 0xD3FF

/-- The ids that strings have or can get are in the range of such ids. -/
structure StringTable.Numbered (t : StringTable) : Prop where
  ids : ∀ p ∈ t.ids, IsStringId p.2
  free : ∀ id ∈ t.pool.free, IsStringId id

def Context.Numbered (c : Context) : Prop := ∀ t ∈ c.strings, t.Numbered

/-- What a read is before records are bound: it names a record only to call it. -/
structure VarRead.Drafted (fits : Prop) (v : VarRead Expr) : Prop extends v.Formed where
  shift : fits → v.ShiftFits
  call : ∀ name id, v.param = some (.record name id) → v.num = procedureNum

def LoadsStored (items : List StreamItem) : Prop :=
  ∀ n, .operand (.load (.spill n)) ∈ items → .operand (.store (.spill n)) ∈ items

/-- A decision table before its records are bound. -/
structure TableRecord.Drafted (fits : Prop) (t : TableRecord) : Prop
    extends t.Formed (VarRead.Drafted fits) Slot.IsSpill where
  loads : LoadsStored t.stream

def Record.Drafted (fits : Prop) (r : Record) : Prop := r.MadeOf (TableRecord.Drafted fits) fun _ => True

abbrev AllDrafted (fits : Prop) (rs : List Record) : Prop := ∀ r ∈ rs, r.Drafted fits

section Records

variable {fits : Prop} {rs rs' : List Record}

theorem AllDrafted.nil : AllDrafted fits [] := fun _ h => nomatch h

theorem AllDrafted.cons {r : Record} (h : r.Drafted fits) (hs : AllDrafted fits rs) : AllDrafted fits (r :: rs) :=
  forall_mem_cons.mpr ⟨h, hs⟩

theorem AllDrafted.append (h : AllDrafted fits rs) (h' : AllDrafted fits rs') : AllDrafted fits (rs ++ rs') :=
  forall_mem_append.mpr ⟨h, h'⟩

theorem AllDrafted.flatMap {α : Type} {as : List α} {f : α → List Record} (h : ∀ a ∈ as, AllDrafted fits (f a)) :
    AllDrafted fits (as.flatMap f) := by
  grind

theorem AllDrafted.withPatches {r : Record} (h : r.Drafted fits) (patches : List Patch) :
    AllDrafted fits (r.withPatches patches) := by
  unfold Record.withPatches
  split
  · exact .cons h .nil
  · exact .cons trivial (.cons h .nil)

end Records

namespace Lowering

variable {fits : Prop} {pos : Position} {feature : Int}

theorem popGlobal_free {p p' : Pool} {id : Int} (h : p.popGlobal pos = .ok (id, p')) :
    id ∈ p.free ∧ ∀ x ∈ p'.free, x ∈ p.free := by
  obtain ⟨⟨free, hfree⟩, -, rfl⟩ := Pool.popGlobal_eq_ok h
  exact ⟨by simp [hfree], fun x hx => mem_of_mem_erase hx⟩

theorem resolve_numbered {t t' : StringTable} {name : String} {id : Int} (ht : t.Numbered)
    (h : t.resolve name pos = .ok (id, t')) : t'.Numbered ∧ IsStringId id := by
  rcases resolve_eq_ok h with ⟨hid, rfl⟩ | ⟨-, pool, hpool, rfl⟩
  · obtain ⟨before, after, hids, -⟩ := lookup_eq_some_iff.mp hid
    exact ⟨ht, ht.ids (name, id) (by simp [hids])⟩
  · obtain ⟨hmem, hfree⟩ := popGlobal_free hpool
    have hnumber := ht.free id hmem
    exact ⟨⟨forall_mem_cons.mpr ⟨hnumber, ht.ids⟩, fun x hx => ht.free x (hfree x hx)⟩, hnumber⟩

theorem numbered_lasting (effects : Set Effect) : Lasting effects fun c d => c.Numbered → d.Numbered where
  refl _ h := h
  trans h h' hc := h' (h hc)
  update hf c hc := by
    rw [Context.Numbered, hf.strings]
    exact hc
  pools _ _ _ _ _ h := h
  resolve hs hresolve hc t ht := Option.mem_some.mp ht ▸ (resolve_numbered (hc _ hs) hresolve).1

/-- The ids of strings stay numbers. -/
theorem Program.numbered {α : Type} {m : Lowering α} {P : List Int → α → Prop} {c c' : Context} {a : α}
    (h : Program Set.univ m P) (hc : c.Numbered) (hok : m c = .ok a c') :
    c'.Numbered ∧ ∀ name id, c'.textId? name = some id → IsStringId id := by
  have hend := h.lasting (numbered_lasting _) c hc
  rw [endState_of_ok hok] at hend
  refine ⟨hend, fun name id hid => ?_⟩
  obtain ⟨table, htable, hlookup⟩ := Option.bind_eq_some_iff.mp hid
  obtain ⟨before, after, hids, -⟩ := lookup_eq_some_iff.mp hlookup
  exact (hend table htable).ids (name, id) (by simp [hids])

theorem allDrafted_planned (steps : List Step) : AllDrafted fits (planned pos steps) :=
  .flatMap fun s _ => AllDrafted.withPatches (r := ⟨pos, .paramAssignment s.plan.assignment⟩) trivial _

theorem lowerAssignment_drafted {target value : Expr} :
    Yields (lowerAssignment target value pos) (AllDrafted fits) := by
  intro c rs c' hok
  obtain ⟨steps, rfl⟩ := lowerAssignment_planned hok
  exact allDrafted_planned steps

/-! ## Strings and messages -/

theorem IsCheckedText.drafted {id : Int} {R : Record} (h : IsCheckedText id R) : R.Drafted fits := by
  obtain ⟨feature, lang, text, hbody, htext⟩ := h
  unfold Record.Drafted Record.MadeOf
  rwa [hbody]

theorem grfInfo_eq_ok {id : GrfId} {name description : String} {r : Record} : grfInfo id name description pos = .ok r ↔
      Encodable name ∧ Encodable description ∧ r = ⟨pos, .grfInfo id name description⟩ := by
  constructor
  · intro h
    unfold grfInfo at h
    cases hname : EngineText.size (Text.bytesOf name) true false with
    | error e =>
      simp only [hname] at h
      cases h
    | ok n =>
      cases hdescription : EngineText.size (Text.bytesOf description) true false with
      | error e =>
        simp only [hname, hdescription] at h
        cases h
      | ok m =>
        simp only [hname, hdescription] at h
        cases h
        exact ⟨⟨n, hname⟩, ⟨m, hdescription⟩, rfl⟩
  · rintro ⟨⟨n, hname⟩, ⟨m, hdescription⟩, rfl⟩
    simp only [grfInfo, hname, hdescription]
    rfl

theorem messageChecks_yields (m : Message) : Yields (messageChecks m) fun _ =>
    (m.data = none → m.params = []) ∧ ∀ text ∈ m.data, Encodable text := by
  refine .after fun _ => .after fun _ => Yields.failIf.bind fun _ hparams => ?_
  cases hd : m.data with
  | none =>
    refine .pure ⟨fun _ => ?_, by simp⟩
    simpa [hd] using hparams
  | some data =>
    exact fun c u c' hok => ⟨by simp, fun _ htext => Option.mem_some.mp htext ▸ checkText_yields _ _ _ c u c' hok⟩

theorem lowerMessage_drafted (m : Message) : Yields (lowerMessage m) (AllDrafted fits) := by
  rw [lowerMessage_eq]
  refine (messageChecks_yields m).bind fun _ hchecks => ?_
  refine (Yields.mapM (T := fun _ x => AllDrafted fits x.1) (fun x c y c' hok => ?_) _).bind fun params hparams =>
    (messageRecords_yields m _).bind fun records hrecords => .pure (.append (.flatMap fun x hx => ?_) fun r hr => ?_)
  · grind [operandParam_planned, allDrafted_planned]
  · exact ((forall₂_and_left _ _).mp (hparams.flip.imp fun _ _ h => ⟨h, h⟩)).1 x hx
  · obtain ⟨lang, msgId, custom, rfl, hid, hcustom⟩ := hrecords r hr
    refine ⟨hid, hcustom, hchecks.2, fun hnone => ?_⟩
    grind [hparams.length_eq]

/-! ## Properties, sprites and deactivations -/

theorem lowerProperty_drafted (fits : Prop) (prop : Property) :
    Settles (fun _ => IsStringId) (lowerProperty feature prop pos) fun p =>
      p.entry.Formed ∧ AllDrafted fits p.definitions ∧ AllDrafted fits p.computations := by
  refine .after .failIf fun _ => Settles.check.bind fun _ => ?_
  have hwidth : (prop.size ≠ 1 && prop.size ≠ 2 && prop.size ≠ 4) = false → IsWidth prop.size := by
    intro hsize
    simp only [Bool.and_eq_false_iff, decide_eq_false_iff_not, not_not] at hsize
    unfold IsWidth
    omega
  cases prop.value with
  | constant value => exact .after .failIf fun _ => .pure fun h => ⟨⟨hwidth h, .const value⟩, .nil, .nil⟩
  | computed value =>
    dsimp only
    split
    · exact .after .failIf fun _ => .pure fun h => ⟨⟨hwidth h, .const _⟩, .nil, .nil⟩
    · refine (Settles.of_program operandParam_program operandParam_yields).bind fun x => .pure fun hx h => ?_
      obtain ⟨steps, -, hrecords⟩ := hx
      exact ⟨⟨hwidth h, .param x.2⟩, .nil, hrecords ▸ allDrafted_planned _⟩
  | string name =>
    refine .after .failIf fun _ => resolveString_settles.bind fun x => .pure fun hx h => ?_
    exact ⟨⟨hwidth h, .string name (Int.le_trans (by decide) hx.1.1)⟩, fun R hR => (hx.2 R hR).drafted, .nil⟩
  | array items =>
    exact .after .failIf fun _ => .after (.idle_forM fun _ _ => .failIf) fun _ =>
      .pure fun h => ⟨⟨hwidth h, .items items⟩, .nil, .nil⟩
  | missing => exact .fail

theorem lowerProperties_drafted {id : Int} {props : List Property} :
    Settles (fun _ => IsStringId) (lowerProperties feature id props pos) (AllDrafted fits) := by
  unfold lowerProperties
  split
  · exact .pure .nil
  · refine .after .failIf fun _ => .after .failIf fun _ => .after .failIf fun _ => ?_
    refine (Settles.mapM (fun prop => lowerProperty_drafted fits prop) props).bind fun lowered => .pure fun hlowered => ?_
    have hall : ∀ p ∈ lowered, p.entry.Formed ∧ AllDrafted fits p.definitions ∧ AllDrafted fits p.computations :=
      fun p hp => (exists_left_of_forall₂ hlowered hp).elim fun _ h => h.2
    have hdefinitions : AllDrafted fits (lowered.flatMap (·.definitions)) :=
      AllDrafted.flatMap fun p hp => (hall p hp).2.1
    have hcomputations : AllDrafted fits (lowered.flatMap (·.computations)) :=
      AllDrafted.flatMap fun p hp => (hall p hp).2.2
    refine (hdefinitions.append hcomputations).append (AllDrafted.withPatches ?_ _)
    intro e he
    obtain ⟨p, hp, rfl⟩ := mem_map.mp he
    exact (hall p hp).1

theorem drafted_of_sprites {n : Nat} {rs : List Record} (h : AreSprites n rs) : AllDrafted fits rs := by
  intro r hr
  have hkind := h.2 r hr
  obtain ⟨pos, body⟩ := r
  cases body <;> first | exact trivial | cases hkind

theorem lowerSpriteSets_drafted {sets : List SpriteSet} : Yields (lowerSpriteSets feature sets pos) (AllDrafted fits) :=
  .after fun _ => .after fun _ => .after fun _ => .after fun _ => (lowerSets_areSprites sets).bind
    fun _ hx => .after fun _ => .pure (.cons trivial (drafted_of_sprites hx))

theorem lowerSpriteGroup_drafted {g : SpriteGroup} : Yields (lowerSpriteGroup g) (AllDrafted fits) :=
  .after fun _ => .after fun _ => .after fun _ => .after fun _ => .after fun _ => .after fun _ => .pure (.cons trivial .nil)

theorem lowerGraphics_drafted {g : Graphics} : Yields (lowerGraphics g) (AllDrafted fits) :=
  .after fun _ => .after fun _ => .after fun _ => .after fun _ => .after fun _ => .after fun _ => .pure (.cons trivial .nil)

theorem lowerReplace_drafted {blocks : List ReplaceBlock} : Yields (lowerReplace blocks pos) (AllDrafted fits) := by
  intro c rs c' hok
  obtain ⟨ranges, sprites, rfl, hsprites⟩ := lowerReplace_yields blocks c rs c' hok
  exact .cons trivial (drafted_of_sprites hsprites)

theorem length_pairs {digits : List (Option Nat)} {bytes : List UInt8} (h : GrfId.parse.pairs digits = some bytes) :
    digits.length = 2 * bytes.length := by
  fun_induction GrfId.parse.pairs digits generalizing bytes with
  | case1 =>
    cases h
    rfl
  | case2 high low rest ih =>
    obtain ⟨others, hothers, rfl⟩ := Option.map_eq_some_iff.mp h
    grind
  | case3 => cases h

theorem length_parse {s : String} {id : GrfId} (h : GrfId.parse s pos = .ok id) : id.bytes.length = 4 := by
  grind [GrfId.parse, length_pairs, length_map]

theorem lowerDeactivate_drafted {ids : List String} : Yields (lowerDeactivate ids pos) (AllDrafted fits) := by
  intro c rs c' hok
  obtain ⟨ids, rfl, hids⟩ := lowerDeactivate_yields ids c rs c' hok
  refine .cons (fun id hid => ?_) .nil
  grind [length_parse]

end Lowering

end Grf
