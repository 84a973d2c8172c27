import Grf.Lowering.Conditional
import Grf.Proofs.Lowering.Success
import Grf.Proofs.Pool.Partition
import Grf.Proofs.Record.Layout

/-! # What lowering takes from the pools

Lowering takes temporary parameters and labels from pools, and gives them back when it closes the frame they were taken
in. `Pool.Took` says what has happened to a pool in between, and `Context.Extends` says it of the whole state. An id in
use stays in use until its frame is closed, and an id that is handed out is not in use: this is why no lowering writes
to a temporary parameter that holds a value for records around it. `Ensures held m P` is the form of specification.
-/

namespace Grf

open List

namespace Pool

variable {p q r : Pool} {ids ids' : List Int} {id : Int} {stacked : Prop} {pos : Position}

/-- The pool `p'` is the pool `p` after `ids` have been handed out in the current frame. -/
structure Took (p : Pool) (ids : List Int) (p' : Pool) : Prop where
  wasFree : ∀ id ∈ ids, id ∈ p.free
  fresh : ∀ id ∈ ids, id ∉ p.inUse
  inUse : ∀ id, id ∈ p'.inUse ↔ id ∈ ids ∨ id ∈ p.inUse
  free : ∀ id ∈ p'.free, id ∈ p.free
  frames : p'.frames = p.frames.modifyHead (· ++ ids)

/-- The ids have left the free stack, from its top if it is `stacked`. -/
structure Lent (stacked : Prop) (p : Pool) (ids : List Int) (p' : Pool) : Prop extends Took p ids p' where
  perm : p.free.Perm (ids ++ p'.free)
  order : stacked → p.free = ids ++ p'.free

def Restores (R : Pool → List Int → Pool → Prop) : Prop :=
  ∀ p ids q, R p.save ids q → ∃ r, q.restore = .ok r ∧ R p [] r ∧ r.issued = q.issued

theorem exists_trans {R : Pool → List Int → Pool → Prop}
    (hR : ∀ {p q r ids ids'}, R p ids q → R q ids' r → R p (ids ++ ids') r) :
    (∃ ids, R p ids q) → (∃ ids, R q ids r) → ∃ ids, R p ids r :=
  fun ⟨_, h⟩ ⟨_, h'⟩ => ⟨_, hR h h'⟩

namespace Took

theorem depth_eq (h : p.Took ids q) : q.depth = p.depth := by
  unfold depth
  rw [h.frames, length_modifyHead]

theorem refl (p : Pool) : p.Took [] p where
  wasFree := by simp
  fresh := by simp
  inUse := by simp
  free := by simp
  frames := by cases p.frames <;> simp

theorem trans (h : p.Took ids q) (h' : q.Took ids' r) : p.Took (ids ++ ids') r where
  wasFree := by
    grind [h.wasFree, h.free, h'.wasFree]
  fresh := by
    intro id hid
    rcases mem_append.mp hid with hid | hid
    · exact h.fresh id hid
    · exact fun hp => h'.fresh id hid ((h.inUse id).mpr (.inr hp))
  inUse := by
    intro id
    rw [h'.inUse, h.inUse, mem_append]
    tauto
  free := fun id hid => h.free id (h'.free id hid)
  frames := by
    rw [h'.frames, h.frames]
    cases p.frames <;> simp

theorem restore (h : p.save.Took ids q) :
    ∃ r, q.restore = .ok r ∧ p.Took [] r ∧ r.free = ids ++ q.free ∧ r.issued = q.issued := by
  have hframes : q.frames = ids :: p.frames := by simpa [save] using h.frames
  unfold Pool.restore
  rw [hframes]
  refine ⟨_, rfl, ⟨by simp, by simp, fun id => ?_, ?_, by cases p.frames <;> simp⟩, rfl, rfl⟩
  · grind [h.inUse, h.fresh, save]
  · exact forall_mem_append.mpr ⟨h.wasFree, h.free⟩

theorem restores : Restores Took := by
  intro p ids q h
  grind [h.restore]

end Took

namespace Lent

theorem refl (stacked : Prop) (p : Pool) : p.Lent stacked [] p :=
  { Took.refl p with perm := .refl _, order := fun _ => rfl }

theorem trans (h : p.Lent stacked ids q) (h' : q.Lent stacked ids' r) : p.Lent stacked (ids ++ ids') r :=
  { h.toTook.trans h'.toTook with
    perm := by
      rw [append_assoc]
      exact h.perm.trans (h'.perm.append_left ids)
    order := fun hs => by rw [h.order hs, h'.order hs, append_assoc] }

theorem restores (stacked : Prop) : Restores (Lent stacked) := by
  intro p ids q h
  obtain ⟨r, hr, htook, hfree, hissued⟩ := h.toTook.restore
  exact ⟨r, hr, { htook with perm := hfree ▸ h.perm, order := fun hs => (h.order hs).trans hfree.symm }, hissued⟩

end Lent

theorem orFault_eq_ok {α : Type} {x : Except Fault α} {a : α} : orFault x = .ok a ↔ x = .ok a := by
  cases x <;> simp [orFault]

theorem popGlobal_eq_ok (h : p.popGlobal pos = .ok (id, q)) :
    (∃ free, p.free = id :: free) ∧ id ∉ p.inUse ∧ q = p.handOut id pos := by
  unfold popGlobal at h
  split at h
  · cases h
  · rename_i free hfree
    obtain ⟨q', htake, ⟨⟩⟩ := except_bind_eq_ok h
    obtain ⟨hid, rfl⟩ := take_eq_ok.mp (orFault_eq_ok.mp htake)
    grind [handOut]

theorem popUnique_eq_ok (h : p.popUnique pos = .ok (id, q)) :
    (p.free.find? fun id => !p.issued.contains id) = some id ∧ id ∉ p.inUse ∧ q = (p.handOut id pos).record id := by
  obtain ⟨-, -, h⟩ := except_bind_eq_ok h
  split at h
  · cases h
  · rename_i new hnew
    obtain ⟨q', htake, ⟨⟩⟩ := except_bind_eq_ok h
    obtain ⟨hid, rfl⟩ := take_eq_ok.mp (orFault_eq_ok.mp htake)
    exact ⟨hnew, hid, rfl⟩

theorem handOut_lent (hmem : id ∈ p.free) (hid : id ∉ p.inUse) (horder : stacked → p.free = id :: p.free.erase id) :
    p.Lent stacked [id] ((p.handOut id pos).record id) := by
  rw [record_eq]
  exact {
    wasFree := by simpa using hmem
    fresh := by simpa using hid
    inUse := fun x => by simp [handOut, taken]
    free := fun x hx => mem_of_mem_erase hx
    frames := rfl
    perm := perm_cons_erase hmem
    order := horder }

theorem pop_lent (h : p.pop pos = .ok (id, q)) : p.Lent True [id] q := by
  obtain ⟨-, -, h⟩ := except_bind_eq_ok h
  obtain ⟨⟨top, q'⟩, hpop, ⟨⟩⟩ := except_bind_eq_ok h
  obtain ⟨⟨free, hfree⟩, hid, rfl⟩ := popGlobal_eq_ok hpop
  exact handOut_lent (by simp [hfree]) hid fun _ => by rw [hfree, erase_cons_head]

theorem popUnique_lent (h : p.popUnique pos = .ok (id, q)) : p.Lent False [id] q := by
  obtain ⟨hfind, hid, rfl⟩ := popUnique_eq_ok h
  exact handOut_lent (mem_of_find?_eq_some hfind) hid False.elim

end Pool

/-! ## Contexts -/

def IsTemporary (n : Int) : Prop := 0x40 ≤ n ∧ n ≤ 0x7F

instance (n : Int) : Decidable (IsTemporary n) := inferInstanceAs (Decidable (_ ∧ _))

namespace Context

def textId? (c : Context) (name : String) : Option Int := c.strings.bind (·.ids.lookup name)

/-- The pools hold the ids they are meant for, and no number of records to skip is a label. -/
structure InRange (c : Context) : Prop where
  temps : ∀ id ∈ c.tempParams.free, IsTemporary id
  held : ∀ id ∈ c.tempParams.inUse, IsTemporary id
  shortLabels : ∀ id ∈ c.shortLabels.free, 0x10 ≤ id ∧ id ≤ 0x7F
  longLabels : ∀ id ∈ c.longLabels.free, 0x80 ≤ id ∧ id ≤ 0xFF
  limit : c.maxInlineSkip < firstShortLabel

theorem InRange.limit_lt {c : Context} (h : c.InRange) : c.maxInlineSkip < 0x80 := lt_trans h.limit (by decide)

/-- The state `c'` is the state `c` after some lowering that has closed every frame it opened. -/
structure Extends (c c' : Context) : Prop where
  limit : c'.maxInlineSkip = c.maxInlineSkip
  depth : c'.depth = c.depth
  temps : ∃ ids, c.tempParams.Took ids c'.tempParams
  shortLabels : ∃ ids, c.shortLabels.Took ids c'.shortLabels
  longLabels : ∃ ids, c.longLabels.Took ids c'.longLabels
  texts : ∀ name id, c.textId? name = some id → c'.textId? name = some id

variable {c d e : Context}

theorem Extends.refl (c : Context) : c.Extends c where
  limit := rfl
  depth := rfl
  temps := ⟨[], .refl _⟩
  shortLabels := ⟨[], .refl _⟩
  longLabels := ⟨[], .refl _⟩
  texts := fun _ _ h => h

theorem Extends.trans (h : c.Extends d) (h' : d.Extends e) : c.Extends e where
  limit := h'.limit.trans h.limit
  depth := h'.depth.trans h.depth
  temps := Pool.exists_trans Pool.Took.trans h.temps h'.temps
  shortLabels := Pool.exists_trans Pool.Took.trans h.shortLabels h'.shortLabels
  longLabels := Pool.exists_trans Pool.Took.trans h.longLabels h'.longLabels
  texts := fun name id hid => h'.texts name id (h.texts name id hid)

/-- The pools of `c'` are those of `c` after a lowering that has closed every frame it opened, as far as
the given relations tell. -/
structure DrawsBy (T S L : Pool → List Int → Pool → Prop) (c c' : Context) : Prop where
  depth : c'.depth = c.depth
  temps : ∃ ids, T c.tempParams ids c'.tempParams
  shortLabels : ∃ ids, S c.shortLabels ids c'.shortLabels
  longLabels : ∃ ids, L c.longLabels ids c'.longLabels

theorem Extends.inUse (h : c.Extends d) {t : Int} (ht : t ∈ c.tempParams.inUse) : t ∈ d.tempParams.inUse := by
  obtain ⟨ids, hids⟩ := h.temps
  exact (hids.inUse t).mpr (.inr ht)

theorem Extends.inRange (h : c.Extends d) (hc : c.InRange) : d.InRange where
  temps := by
    obtain ⟨ids, hids⟩ := h.temps
    exact fun id hid => hc.temps id (hids.free id hid)
  held := by
    obtain ⟨ids, hids⟩ := h.temps
    grind [hids.inUse, hc.temps, hids.wasFree, hc.held]
  shortLabels := by
    obtain ⟨ids, hids⟩ := h.shortLabels
    exact fun id hid => hc.shortLabels id (hids.free id hid)
  longLabels := by
    obtain ⟨ids, hids⟩ := h.longLabels
    exact fun id hid => hc.longLabels id (hids.free id hid)
  limit := h.limit ▸ hc.limit

theorem mem_free_ofRange {name : String} {first last id : Int}
    (h : id ∈ (Pool.ofRange name first last).free) : first ≤ id ∧ id ≤ last := by
  simp only [Pool.ofRange, Pool.idsFrom, mem_map, mem_range] at h
  omega

theorem create_inRange (limit : Int) (strings : Option StringTable) (sprites : Option SpriteRegistry) :
    (create limit strings sprites).InRange where
  temps := fun _ h => mem_free_ofRange h
  held := fun _ h => nomatch h
  shortLabels := fun _ h => mem_free_ofRange h
  longLabels := fun _ h => mem_free_ofRange h
  limit := by
    show inlineLimit limit < firstShortLabel
    unfold inlineLimit firstShortLabel
    omega

end Context

namespace Lowering

variable {α : Type} {c c' : Context}

section Pops

variable {pos : Position} {id : Int}

theorem popTemp_eq_ok (hc : c.InRange) (h : popTemp pos c = .ok id c') :
    c.Extends c' ∧ IsTemporary id ∧ id ∉ c.tempParams.inUse ∧ id ∈ c'.tempParams.inUse := by
  obtain ⟨⟨_, pool⟩, hpop, ⟨⟩⟩ := lift_bind_eq_ok.mp h
  have hlent := Pool.pop_lent hpop
  exact ⟨{ Context.Extends.refl c with temps := ⟨[id], hlent.toTook⟩ }, hc.temps id (hlent.wasFree id (by simp)),
    hlent.fresh id (by simp), (hlent.inUse id).mpr (by simp)⟩

theorem popLongLabel_eq_ok (hc : c.InRange) (h : popLongLabel pos c = .ok id c') : c.Extends c' ∧ 0x80 ≤ id := by
  obtain ⟨⟨_, pool⟩, hpop, ⟨⟩⟩ := lift_bind_eq_ok.mp h
  have hlent := Pool.popUnique_lent hpop
  exact ⟨{ Context.Extends.refl c with longLabels := ⟨[id], hlent.toTook⟩ },
    (hc.longLabels id (hlent.wasFree id (by simp))).1⟩

end Pops

/-- Started while the temporary parameters `held` are in use, the lowering `m` extends the state, and
its result has the property `P`. -/
def Ensures (held : Int → Prop) (m : Lowering α) (P : α → Prop) : Prop :=
  ∀ c a c', c.InRange → (∀ t, held t → t ∈ c.tempParams.inUse) → m c = .ok a c' → c.Extends c' ∧ P a

theorem saveTemps_inRange (h : c.InRange) : (saveTemps c).InRange :=
  ⟨h.temps, h.held, h.shortLabels, h.longLabels, h.limit⟩

theorem restoreTemps_extends {d : Context} (hext : (saveTemps c).Extends d) (h : restoreTemps d = .ok c') :
    c.Extends c' ∧ c'.shortLabels = d.shortLabels ∧ c'.longLabels = d.longLabels := by
  obtain ⟨ids, htook⟩ := hext.temps
  obtain ⟨pool, hpool, hback, -⟩ := htook.restore
  unfold restoreTemps at h
  rw [hpool] at h
  cases h
  exact ⟨{ hext with temps := ⟨[], hback⟩ }, rfl, rfl⟩

theorem enterConditional_inRange (h : c.InRange) : (enterConditional c).InRange := by
  unfold enterConditional
  split
  · exact ⟨h.temps, h.held, h.shortLabels, h.longLabels, h.limit⟩
  · exact ⟨h.temps, h.held, h.shortLabels, h.longLabels, h.limit⟩

theorem enterConditional_fields (c : Context) :
    (enterConditional c).maxInlineSkip = c.maxInlineSkip ∧ (enterConditional c).depth = c.depth + 1 ∧
      (enterConditional c).tempParams.inUse = c.tempParams.inUse := by
  unfold enterConditional
  split <;> exact ⟨rfl, rfl, rfl⟩

/-- The frames of a conditional are closed as they were opened. Inside of another conditional the labels
stay taken. -/
theorem exitConditional_draws {T S L : Pool → List Int → Pool → Prop} {d : Context} (hT : Pool.Restores T)
    (hS : Pool.Restores S) (hL : Pool.Restores L) (h : (enterConditional c).DrawsBy T S L d) :
    ∃ e, exitConditional d = .ok e ∧ c.DrawsBy T S L e ∧ e.longLabels.issued = d.longLabels.issued ∧
      (if 0 < c.depth then e.shortLabels = d.shortLabels
        else S c.shortLabels [] e.shortLabels ∧ L c.longLabels [] e.longLabels) ∧
      e.maxInlineSkip = d.maxInlineSkip ∧ e.strings = d.strings := by
  obtain ⟨hdepth, ⟨tids, htemps⟩, ⟨sids, hshort⟩, ⟨lids, hlong⟩⟩ := h
  have hdepth : d.depth - 1 = c.depth := by
    rw [hdepth, (enterConditional_fields c).2.1, Nat.add_sub_cancel]
  unfold enterConditional at htemps hshort hlong
  unfold exitConditional
  by_cases hin : 0 < c.depth
  · have hinside : c.inConditional = true := by simpa [Context.inConditional] using hin
    rw [if_pos hinside] at htemps hshort hlong
    obtain ⟨temps, hrestore, hback, -⟩ := hT _ _ _ htemps
    refine ⟨{ d with depth := c.depth, tempParams := temps }, ?_, ?_, rfl, by rw [if_pos hin], rfl, rfl⟩
    · simp only [hrestore, hdepth]
      exact if_pos hinside
    · exact ⟨rfl, ⟨[], hback⟩, ⟨sids, hshort⟩, ⟨lids, hlong⟩⟩
  · have houtside : ¬c.inConditional = true := by simpa [Context.inConditional] using hin
    rw [if_neg houtside] at htemps hshort hlong
    obtain ⟨temps, hrestore, hback, -⟩ := hT _ _ _ htemps
    obtain ⟨short, hrestoreShort, hbackShort, -⟩ := hS _ _ _ hshort
    obtain ⟨long, hrestoreLong, hbackLong, hissued⟩ := hL _ _ _ hlong
    refine ⟨{ d with depth := c.depth, tempParams := temps, longLabels := long, shortLabels := short }, ?_,
      ⟨rfl, ⟨[], hback⟩, ⟨[], hbackShort⟩, ⟨[], hbackLong⟩⟩, hissued, ?_, rfl, rfl⟩
    · simp only [hrestore, hdepth]
      refine (if_neg houtside).trans ?_
      rw [hrestoreLong, hrestoreShort]
      rfl
    simp_all

theorem exitConditional_extends {d : Context} (hext : (enterConditional c).Extends d) (h : exitConditional d = .ok c') :
    c.Extends c' ∧ (0 < c.depth → c'.shortLabels = d.shortLabels) ∧ c'.longLabels.issued = d.longLabels.issued := by
  obtain ⟨e, hexit, hdraws, hissued, hlabels, hlimit, hstrings⟩ := exitConditional_draws Pool.Took.restores
    Pool.Took.restores Pool.Took.restores ⟨hext.depth, hext.temps, hext.shortLabels, hext.longLabels⟩
  obtain rfl := Except.ok.inj (h.symm.trans hexit)
  have htexts : ∀ name id, c.textId? name = some id → c'.textId? name = some id := by
    intro name id hid
    unfold Context.textId?
    rw [hstrings]
    refine hext.texts name id ?_
    unfold enterConditional
    split <;> exact hid
  refine ⟨{ hdraws with limit := ?_, texts := htexts }, fun hin => ?_, hissued⟩
  · rw [hlimit, hext.limit, (enterConditional_fields c).1]
  · rwa [if_pos hin] at hlabels

end Lowering

end Grf
