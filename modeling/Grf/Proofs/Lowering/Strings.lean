import Grf.Lowering.Strings
import Grf.Proofs.Engine.Straight
import Grf.Proofs.Lowering.Frames

/-! # Resolving strings

A string that is resolved has an id from then on, and no later resolution changes it. The records that
define its wordings have this id.
-/

namespace Grf.Lowering

variable {c c' : Context} {pos : Position} {name : String} {feature id : Int} {rs : List Record}

theorem resolve_eq_ok {t t' : StringTable} (h : t.resolve name pos = .ok (id, t')) :
    t.ids.lookup name = some id ∧ t' = t ∨ t.ids.lookup name = none ∧
      ∃ pool, t.pool.popGlobal pos = .ok (id, pool) ∧ t' = { t with pool, ids := (name, id) :: t.ids } := by
  unfold StringTable.resolve at h
  split at h
  · cases h
  · cases hid : t.ids.lookup name with
    | some known =>
      rw [hid] at h
      cases h
      exact .inl ⟨rfl, rfl⟩
    | none =>
      rw [hid] at h
      obtain ⟨⟨id', pool⟩, hpool, ⟨⟩⟩ := except_bind_eq_ok h
      exact .inr ⟨rfl, pool, hpool, rfl⟩

theorem resolve_lookup {t t' : StringTable} (h : t.resolve name pos = .ok (id, t')) :
    t'.ids.lookup name = some id ∧ ∀ other i, t.ids.lookup other = some i → t'.ids.lookup other = some i := by
  rcases resolve_eq_ok h with ⟨hid, rfl⟩ | ⟨hid, pool, -, rfl⟩
  · exact ⟨hid, fun _ _ h => h⟩
  · refine ⟨by simp, fun other i hi => ?_⟩
    have hne : other ≠ name := by
      rintro rfl
      cases hid.symm.trans hi
    grind

theorem stringDefinition_eq_ok {lang : Int} {text : String} {r : Record}
    (h : stringDefinition feature lang id text pos c = .ok r c') :
    c = c' ∧ r = ⟨pos, .stringDefinition feature lang id text⟩ ∧ Encodable text := by
  obtain ⟨-, h⟩ := failIf_bind_eq_ok.mp h
  cases hsize : EngineText.size (Text.bytesOf text) true false with
  | error e =>
    rw [hsize] at h
    simp at h
  | ok n =>
    rw [hsize] at h
    obtain ⟨rfl, rfl⟩ := pure_eq_ok.mp h
    exact ⟨rfl, rfl, n, hsize⟩

theorem mapM_stringDefinition_eq_ok {wordings : List Wording}
    (h : wordings.mapM (fun t => stringDefinition feature t.lang id t.text pos) c = .ok rs c') :
    c = c' ∧ ∀ r ∈ rs, ∃ lang text, r = ⟨pos, .stringDefinition feature lang id text⟩ ∧ Encodable text := by
  induction wordings generalizing c rs with
  | nil =>
    obtain ⟨rfl, rfl⟩ := pure_eq_ok.mp h
    exact ⟨rfl, by simp⟩
  | cons t wordings ih =>
    obtain ⟨r, d, rest, hr, hrest, rfl⟩ := mapM_cons_eq_ok.mp h
    obtain ⟨rfl, rfl, htext⟩ := stringDefinition_eq_ok hr
    obtain ⟨rfl, hall⟩ := ih hrest
    exact ⟨rfl, List.forall_mem_cons.mpr ⟨⟨_, _, rfl, htext⟩, hall⟩⟩

theorem stringTable_eq_ok {table : StringTable} {d : Context} (h : stringTable name pos c = .ok table d) :
    c = d ∧ c.strings = some table := by
  replace h := get_bind_eq_ok.mp h
  cases hs : c.strings with
  | none =>
    rw [hs] at h
    simp at h
  | some known =>
    rw [hs] at h
    obtain ⟨rfl, rfl⟩ := pure_eq_ok.mp h
    exact ⟨rfl, rfl⟩

/-- **A string that is resolved has its id**, and its wordings are defined with it. -/
theorem resolveString_spec (h : resolveString feature name pos c = .ok (id, rs) c') :
    c.Extends c' ∧ c'.textId? name = some id ∧
      ∀ r ∈ rs, ∃ lang text, r = ⟨pos, .stringDefinition feature lang id text⟩ ∧ Encodable text := by
  obtain ⟨table, d, htable, h⟩ := bind_eq_ok.mp h
  obtain ⟨rfl, hstrings⟩ := stringTable_eq_ok htable
  obtain ⟨⟨id', table'⟩, hresolve, h⟩ := lift_bind_eq_ok.mp h
  obtain ⟨hid, hkeep⟩ := resolve_lookup hresolve
  replace h := modify_bind_eq_ok.mp h
  have hext : c.Extends { c with strings := some table' } := { Context.Extends.refl c with
      texts := fun other i hi => by
        grind [Context.textId?] }
  have htext : ({ c with strings := some table' } : Context).textId? name = some id' := hid
  replace h := get_bind_eq_ok.mp h
  split at h
  · obtain ⟨⟨⟩, rfl⟩ := pure_eq_ok.mp h
    exact ⟨hext, htext, by simp⟩
  · obtain ⟨wordings, -, h⟩ := lift_bind_eq_ok.mp h
    obtain ⟨records, d, hmap, h⟩ := bind_eq_ok.mp h
    obtain ⟨rfl, hrecords⟩ := mapM_stringDefinition_eq_ok hmap
    replace h := modify_bind_eq_ok.mp h
    obtain ⟨⟨⟩, rfl⟩ := pure_eq_ok.mp h
    refine ⟨hext.trans ?_, ?_, hrecords⟩
    · split
      · exact .refl _
      · exact { Context.Extends.refl _ with }
    · split <;> exact htext

end Grf.Lowering
