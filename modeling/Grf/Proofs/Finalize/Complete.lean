import Grf.Proofs.Finalize.Patches

/-! # Finished records

Binding fills in the ids of the records that a table calls and that are its results, and the last pass gives a
register to each slot that is stored to, which the reads of the slot share. So a record that could be bound
has become one that can be written (`finalize_complete`).
-/

namespace Grf

open List Option

/-- A decision table whose references are bound and whose slots wait for registers. -/
structure TableRecord.Bound (fits : Prop) (t : TableRecord) : Prop
    extends t.Formed (VarRead.Settled fits) Slot.IsSpill where
  loads : LoadsStored t.stream
  results : ∀ range ∈ t.ranges, range.result.IsBound
  default : t.default.IsBound

def Record.Bound (fits : Prop) (r : Record) : Prop := r.MadeOf (TableRecord.Bound fits) GraphicsRecord.IsBound

namespace Lowering

variable {fits : Prop} {pos : Position} {rs out : List Record} {c c' : Context}

theorem settled_of_drafted {v : VarRead Expr} (h : v.Drafted fits)
    (hcall : ∀ name id, v.param ≠ some (.record name id)) : v.Settled fits := by
  refine ⟨⟨h.toFormed, fun e he => ?_⟩, h.shift⟩
  cases e with
  | record name id => exact absurd he (hcall name id)
  | _ => trivial

theorem settled_of_boundAs {item item' : StreamItem} (h : item.BoundAs item')
    (hitem : item.MadeOf (VarRead.Drafted fits) Slot.IsSpill) : item'.MadeOf (VarRead.Settled fits) Slot.IsSpill := by
  cases h with
  | call hparam hid =>
    refine ⟨⟨⟨fun e he => mem_some.mp he ▸ trivial, hitem.fields, hitem.divisor⟩, fun e he => ?_⟩, hitem.shift⟩
    exact mem_some.mp he ▸ hid
  | same hcall =>
    cases item with
    | op => trivial
    | operand e =>
      cases e with
      | var v => exact settled_of_drafted hitem fun name id hparam => hcall v name id rfl (hitem.call name id hparam) hparam
      | store s | load s => exact hitem
      | _ => exact hitem.elim

theorem loadsStored_of_boundAs {items items' : List StreamItem} (h : Forall₂ StreamItem.BoundAs items items')
    (hloads : LoadsStored items) : LoadsStored items' := by
  intro n hload
  obtain ⟨item, hitem, hbound⟩ := exists_left_of_forall₂ h hload
  cases hbound with
  | same =>
    obtain ⟨item', hitem', hbound⟩ := exists_right_of_forall₂ h (hloads n hitem)
    cases hbound with
    | same => exact hitem'

theorem bound_of_boundAs {R R' : Record} (h : R.BoundAs R') (hR : R.Drafted fits) : R'.Bound fits := by
  cases h with
  | @table pos t stream ranges default hstream hranges hdefault =>
    refine ⟨⟨hR.width, ?_, fun item' hitem' => ?_⟩, loadsStored_of_boundAs hstream hR.loads, fun range hrange => ?_,
      hdefault⟩
    · rw [hR.size, flatMap_eq_of_forall₂ (hstream.imp fun _ _ hitem => hitem.becomes.cells t.varSize)]
    · obtain ⟨item, hitem, hbound⟩ := exists_left_of_forall₂ hstream hitem'
      exact settled_of_boundAs hbound (hR.stream item hitem)
    · obtain ⟨_, _, hresult⟩ := exists_left_of_forall₂ hranges hrange
      exact hresult
  | graphics hcargo hid => exact ⟨hcargo, hid⟩
  | same htable hgraphics =>
    obtain ⟨pos, body⟩ := R
    cases body with
    | decisionTable t => exact absurd rfl (htable t)
    | graphicsTable t => exact absurd rfl (hgraphics t)
    | _ => exact hR

/-- **Each slot of a table has a register** when the reads have got those of the stores. -/
theorem assignLoad_hasRegister {read : VarRead Expr → Prop} {items : List StreamItem}
    {stores : List (StreamItem × Option (Nat × Int))} (h : Forall₂ StreamItem.StoredAs items stores)
    (hitems : ∀ item ∈ items, item.MadeOf read Slot.IsSpill) (hloads : LoadsStored items) :
    ∀ item ∈ stores.map fun x => assignLoad (stores.filterMap (·.2)) x.1, item.MadeOf read Slot.HasRegister := by
  intro item hitem
  obtain ⟨x, hx, rfl⟩ := mem_map.mp hitem
  obtain ⟨before, hbefore, hstored⟩ := exists_left_of_forall₂ h hx
  have hmade := hitems before hbefore
  cases hstored with
  | spill | unassigned => exact isSome_some
  | same hstore =>
    cases before with
    | op => trivial
    | operand e =>
      cases e with
      | var v => exact hmade
      | store s =>
        obtain ⟨register, rfl⟩ := hstore s rfl
        exact isSome_some
      | load s =>
        obtain ⟨n, rfl⟩ := hmade
        -- the slot is stored to, and the store has got a register
        obtain ⟨x, hx, hstored⟩ := exists_right_of_forall₂ h (hloads n hbefore)
        cases hstored with
        | spill _ register =>
          have hlookup : ((stores.filterMap (·.2)).lookup n).isSome := by
            rw [lookup_isSome_iff]
            exact ⟨(n, register), mem_filterMap.mpr ⟨_, hx, rfl⟩, by simp⟩
          obtain ⟨register', hregister'⟩ := isSome_iff_exists.mp hlookup
          simp only [assignLoad, hregister']
          exact isSome_some
        | same hother =>
          obtain ⟨_, ⟨⟩⟩ := hother _ rfl
      | _ => exact hmade.elim

theorem complete_of_preparedAs {R R' : Record} (h : R.PreparedAs R') (hR : R.Bound fits) : R'.Complete fits := by
  cases h with
  | @table pos t stores h =>
    refine ⟨⟨hR.width, ?_, assignLoad_hasRegister h hR.stream hR.loads⟩, hR.results, hR.default⟩
    refine hR.size.trans (congrArg cellsSize (flatMap_eq_of_forall₂ (forall₂_map_right_iff.mpr ?_)))
    exact h.imp fun _ _ hitem => (hitem.becomes _).cells t.varSize
  | same htable =>
    obtain ⟨pos, body⟩ := R
    cases body with
    | decisionTable t => exact absurd rfl (htable t)
    | _ => exact hR

theorem complete_withId {R : Record} (h : R.Complete fits) (r : Registry) : (R.withId r).Complete fits := by
  obtain ⟨pos, body⟩ := R
  cases body with
  | decisionTable t => exact ⟨⟨h.width, h.size, h.stream⟩, h.results, h.default⟩
  | spriteGroup g => trivial
  | _ => exact h

/-- **Finished records can be written**, the shifts of their variables apart. -/
theorem finalize_complete (h : finalize rs c = .ok out c') (hdrafted : AllDrafted fits rs) :
    ∀ R ∈ out, R.Complete fits := by
  intro R' hR'
  obtain ⟨R, hR, B, hbound, P, r, hprepared, rfl⟩ := exists_left_of_forall₂ (finalize_shapes h) hR'
  exact complete_withId (complete_of_preparedAs hprepared (bound_of_boundAs hbound (hdrafted R hR))) r

end Lowering

end Grf
