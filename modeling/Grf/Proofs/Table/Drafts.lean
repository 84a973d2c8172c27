import Grf.Proofs.Lowering.Drafts

/-! # What decision tables are made of

The operands of a table are reads of variables and scratch slots, each stored to before it is read. So the tables of a
switch can be written as soon as they are bound (`lowerSwitch_drafted`), unless a shift has been added to a constant and
the sum has wrapped around.
-/

namespace Grf

open List Grf.Expr

def Switch.Declared (fits : Prop) (s : Switch) : Prop := ∀ e ∈ s.expressions, e.Everywhere (Expr.Declared fits)

namespace VarRead

variable {fits : Prop}

theorem shiftFits_of_eq_zero {v : VarRead Expr} (h : v.shift = 0) : v.ShiftFits := by
  unfold ShiftFits maxShift
  omega

theorem drafted_mask {num : Int} {mask : Expr} (h : mask.isImmediate = true) :
    VarRead.Drafted fits { num, mask := some mask } where
  param _ he := nomatch he
  fields := by simpa using h
  divisor := rfl
  shift _ := shiftFits_of_eq_zero rfl
  call _ _ hparam := nomatch hparam

theorem drafted_call (name : String) : VarRead.Drafted fits (procedureCall (.recordRef name)) where
  param _ he := Option.mem_some.mp he ▸ trivial
  fields := by simp [procedureCall]
  divisor := rfl
  shift _ := shiftFits_of_eq_zero rfl
  call _ _ _ := rfl

end VarRead

namespace Lowering

variable {T : String → Int → Prop} {fits : Prop} {pos : Position}

theorem OperandOf.drafted {e : Expr} {v : VarRead Expr} {before : List Record} (h : OperandOf T pos e v before)
    (he : e.Declared fits) : v.Drafted fits := by
  cases h with
  | const | param | string => exact VarRead.drafted_mask rfl
  | record name id => exact VarRead.drafted_call name
  | read h harg =>
    refine ⟨⟨fun e he => isLeaf_of_isImmediate (harg e he).isImmediate, h.immediate, h.divisor⟩, he, ?_⟩
    exact fun name id hrecord => (harg _ hrecord).field.elim

variable {width : Int} {e : Expr} {slot : Nat} {stream : Stream} {before : List Record}

/-- **The operands of a declared expression** can be bound. -/
theorem StreamOf.drafted (h : StreamOf T width pos e slot stream before) (he : e.Everywhere (Expr.Declared fits)) :
    ∀ item ∈ stream.items, item.MadeOf (VarRead.Drafted fits) Slot.IsSpill := by
  have hself {a : Expr} (ha : a.Everywhere (Expr.Declared fits)) : a.Declared fits := ha a a.self_mem_walk
  refine h.forall_mem (everywhere_inherited _) he (fun _ _ => trivial) (fun _ _ _ h ha => h.drafted (hself ha))
    (fun v hv ha => ?_) (fun _ h => h.elim (fun h => (hself h).elim) id) fun _ h => h.elim (fun h => (hself h).elim) id
  exact ⟨⟨fun _ h => Option.mem_some.mp h ▸ trivial, hv.immediate, hv.divisor⟩, hself ha, by simp [Table.indirect]⟩

theorem StreamOf.loadsStored (h : StreamOf T width pos e slot stream before)
    (he : e.Everywhere (Expr.Declared fits)) : LoadsStored stream.items := by
  induction h with
  | operand => exact fun n hload => nomatch mem_singleton.mp hload
  | store | load => exact (he _ (self_mem_walk _)).elim
  | indirect harg _ _ _ _ ih =>
    have harg := ih ((everywhere_var.mp he).2 _ harg)
    intro n hload
    simpa using harg n (by simpa using hload)
  | simple _ _ _ _ ihr ihl =>
    obtain ⟨-, hleft, hright⟩ := everywhere_binary.mp he
    intro n hload
    simp only [Stream.items_append, Stream.items_ofOp, mem_append, mem_singleton, reduceCtorEq, or_false] at hload ⊢
    exact hload.imp (ihl hleft n) (ihr hright n)
  | spilled _ _ _ _ ihr ihl =>
    obtain ⟨-, hleft, hright⟩ := everywhere_binary.mp he
    intro n hload
    simp only [Stream.items_append, Stream.items_ofOp, Stream.items_ofOperand, mem_append,
      mem_singleton, reduceCtorEq, or_false, StreamItem.operand.injEq, load.injEq] at hload
    rcases hload with (hload | hload) | ⟨⟨⟩⟩
    · simp [ihr hright n hload]
    · simp [ihl hleft n hload]
    · simp

theorem TableOf.drafted {s : Switch} {rs : List Record} (h : TableOf T s rs) (hs : s.Declared fits) :
    AllDrafted fits rs := by
  obtain @⟨part, e, head, ranges, default, he, hpart, -, hwidth, hstream, -⟩ := h
  have hexpr : part.expr.Everywhere (Expr.Declared fits) := by
    rcases hpart with hpart | hpart
    · exact hpart ▸ hs e he
    · exact hpart ▸ (declared_pervades fits 4).fold (hs e he)
  have hdeclared : (part.expr.forTable part.varSize).Everywhere (Expr.Declared fits) := declared_forTable hexpr
  have hbefore : AllDrafted fits head.before := hstream.forall_before allDrafted_planned fun _ _ _ _ h => h.drafted
  refine hbefore.append (AllDrafted.withPatches ?_ _)
  exact ⟨⟨hwidth, hstream.placed.1.size, hstream.drafted hdeclared⟩, hstream.loadsStored hdeclared⟩

/-- **The tables of a switch can be bound.** -/
theorem lowerSwitch_drafted {s : Switch} (hs : s.Declared fits) : Yields (lowerSwitch s) (AllDrafted fits) := by
  intro c rs c' hok
  obtain ⟨parts, rfl, hparts⟩ := (lowerSwitch_tablesOf s).yields c rs c' hok
  intro r hr
  obtain ⟨part, hpart, hr⟩ := mem_flatten.mp hr
  exact (hparts part hpart).drafted hs r hr

end Lowering

end Grf
