import Grf.Proofs.Lowering.Program

/-! # Ids are given back on every path

A lowering may fail in the middle of any number of frames. However it ends, the pools have handed out ids of the
current frame only, from the top of the free stack if the pool is one of `pop` (`Context.DrawsFor`). A frame that is
closed puts its ids back on top in the order in which they were handed out, so that the stack is as it was. Every
program draws from the pools in this way (`Program.drawing`).
-/

namespace Grf

namespace Context

variable {c d e : Context} {effects : Set Effect}

/-- The state `c'` is reached from `c` by a lowering that has closed every frame it opened. Only some
lowerings take labels that no conditional gives back. -/
structure DrawsFor (effects : Set Effect) (c c' : Context) : Prop
    extends DrawsBy (Pool.Lent True) (Pool.Lent True) (Pool.Lent False) c c' where
  labels : .labels ∉ effects → c.depth = 0 →
    c.shortLabels.Lent True [] c'.shortLabels ∧ c.longLabels.Lent False [] c'.longLabels

theorem drawsFor_of_tame {f : Context → Context} (h : Tame effects f) (c : Context) : DrawsFor effects c (f c) where
  depth := h.depth c
  temps := ⟨[], (h.tempParams c).symm ▸ .refl _ _⟩
  shortLabels := ⟨[], (h.shortLabels c).symm ▸ .refl _ _⟩
  longLabels := ⟨[], (h.longLabels c).symm ▸ .refl _ _⟩
  labels _ _ := ⟨(h.shortLabels c).symm ▸ .refl _ _, (h.longLabels c).symm ▸ .refl _ _⟩

theorem drawsFor_strings (c : Context) (table : Option StringTable) :
    DrawsFor effects c { c with strings := table } where
  depth := rfl
  temps := ⟨[], .refl _ _⟩
  shortLabels := ⟨[], .refl _ _⟩
  longLabels := ⟨[], .refl _ _⟩
  labels _ _ := ⟨.refl _ _, .refl _ _⟩

theorem DrawsFor.refl (c : Context) : DrawsFor effects c c := drawsFor_strings c c.strings

theorem DrawsFor.trans (h : DrawsFor effects c d) (h' : DrawsFor effects d e) : DrawsFor effects c e where
  depth := h'.depth.trans h.depth
  temps := Pool.exists_trans Pool.Lent.trans h.temps h'.temps
  shortLabels := Pool.exists_trans Pool.Lent.trans h.shortLabels h'.shortLabels
  longLabels := Pool.exists_trans Pool.Lent.trans h.longLabels h'.longLabels
  labels hl h0 :=
    have hback := h.labels hl h0
    have hback' := h'.labels hl (h.depth.trans h0)
    ⟨hback.1.trans hback'.1, hback.2.trans hback'.2⟩

/-- The pools of `c'` hold what those of `c` hold. The free lists of temporary parameters and of labels
for the ends of runs have the same order, so the same ids are handed out next. -/
structure SamePools (c c' : Context) : Prop where
  tempFree : c'.tempParams.free = c.tempParams.free
  tempDepth : c'.tempParams.depth = c.tempParams.depth
  shortFree : c'.shortLabels.free = c.shortLabels.free
  shortDepth : c'.shortLabels.depth = c.shortLabels.depth
  longFree : c'.longLabels.free.Perm c.longLabels.free
  longDepth : c'.longLabels.depth = c.longLabels.depth
  depth : c'.depth = c.depth

end Context

namespace Lowering

variable {α β : Type} {c d : Context} {m : Lowering α} {pos : Position} {effects : Set Effect}

theorem endState_bracket {enter : Context → Context} {exit : Context → Except Fault Context}
    (h : exit (endState m (enter c)) = .ok d) : endState (bracket enter exit m) c = d := by
  grind [endState, bracket]

/-- However `m` ends, it draws from the pools as it should. -/
def Drawing (effects : Set Effect) (m : Lowering α) : Prop := ∀ c : Context, c.DrawsFor effects (endState m c)

namespace Drawing

theorem pure (a : α) : Drawing effects (Pure.pure a) := fun c => .refl c

theorem throw (e : Failure) : Drawing effects (MonadExcept.throw e : Lowering α) := fun c => .refl c

theorem bind {f : α → Lowering β} (hm : Drawing effects m) (hf : ∀ a, Drawing effects (f a)) :
    Drawing effects (m >>= f) := by
  intro c
  have hdraws := hm c
  cases hr : m c with
  | ok a d =>
    rw [endState_of_ok hr] at hdraws
    rw [endState_bind_of_ok hr]
    exact hdraws.trans (hf a d)
  | error e d =>
    rw [endState_of_error hr] at hdraws
    rwa [endState_bind_of_error hr]

theorem look {f : Context → Lowering α} (hf : ∀ c, Drawing effects (f c)) :
    Drawing effects (get >>= f) := fun c => hf c c

theorem lift (x : Except Failure α) : Drawing effects (Lowering.lift x) := by
  cases x with
  | ok a => exact .pure a
  | error e => exact .throw e

theorem stringTable {name : String} : Drawing effects (stringTable name pos) := by
  refine .look fun c => ?_
  cases c.strings with
  | none => exact .throw _
  | some table => exact .pure table

theorem resolving {f : Int → Except Failure (List Wording) → Lowering α} {name : String}
    (hf : ∀ id texts, Drawing effects (f id texts)) :
    Drawing effects (Lowering.stringTable name pos >>= fun table =>
      Lowering.lift (table.resolve name pos) >>= fun x =>
        modify (fun c => { c with strings := some x.2 }) >>= fun _ => f x.1 (x.2.wordings name pos)) :=
  stringTable.bind fun _ => (Drawing.lift _).bind fun _ =>
    .bind (fun c => Context.drawsFor_strings c _) fun _ => hf _ _

theorem withTemps_given_back (h : Drawing effects m) (c : Context) : c.DrawsFor effects (endState (withTemps m) c) ∧
      c.tempParams.Lent True [] (endState (withTemps m) c).tempParams := by
  have hdraws := h (saveTemps c)
  obtain ⟨ids, hids⟩ := hdraws.temps
  obtain ⟨p, hp, hlent, -⟩ := Pool.Lent.restores True _ _ _ hids
  have hend : endState (withTemps m) c = { endState m (saveTemps c) with tempParams := p } :=
    endState_bracket (by rw [restoreTemps, hp]; rfl)
  rw [hend]
  exact ⟨⟨⟨hdraws.depth, ⟨[], hlent⟩, hdraws.shortLabels, hdraws.longLabels⟩, hdraws.labels⟩, hlent⟩

theorem conditional (h : Drawing (insert .labels effects) m) :
    Drawing effects (bracket enterConditional exitConditional m) := by
  intro c
  obtain ⟨d, hexit, hdraws, -, hlabels, -⟩ := exitConditional_draws
    (Pool.Lent.restores True) (Pool.Lent.restores True) (Pool.Lent.restores False) (h (enterConditional c)).toDrawsBy
  rw [endState_bracket hexit]
  refine { hdraws with labels := fun _ h0 => ?_ }
  rwa [if_neg (by omega)] at hlabels

end Drawing

/-- **Every program draws from the pools as it should**, whether it succeeds or fails. -/
theorem Program.drawing {P : List Int → α → Prop} (h : Program effects m P) : Drawing effects m := by
  induction h with
  | pure h => exact .pure _
  | throw e => exact .throw e
  | bind hm hf ihm ihf => exact ihm.bind fun a => ihf [] a
  | mono h hQ ih => exact ih
  | look hf ih => exact .look ih
  | update hf => exact Context.drawsFor_of_tame hf
  | popTemp pos =>
    exact fun c => endState_lift_bind (.refl c) fun _ h =>
      { Context.DrawsFor.refl c with temps := ⟨_, Pool.pop_lent h⟩ }
  | @popShortLabel effects pos hlabels =>
    exact fun c => endState_lift_bind (.refl c) fun _ h =>
      { (.refl c : c.DrawsFor effects c) with
        shortLabels := ⟨_, Pool.pop_lent h⟩, labels := fun hnot => absurd hlabels hnot }
  | @popLongLabel effects pos hlabels =>
    exact fun c => endState_lift_bind (.refl c) fun _ h =>
      { (.refl c : c.DrawsFor effects c) with
        longLabels := ⟨_, Pool.popUnique_lent h⟩, labels := fun hnot => absurd hlabels hnot }
  | resolving name pos hf ih => exact .resolving ih
  | withTemps h hframes ih => exact fun c => (ih.withTemps_given_back c).1
  | conditional h hframes ih => exact ih.conditional

/-- **A declaration outside of conditionals gives the pools back**, whether its lowering succeeds or
fails. -/
theorem lower_gives_back (d : Declaration) (c : Context) (h : c.depth = 0) : c.SamePools (endState d.lower c) := by
  obtain ⟨m, heq, hm⟩ := lower_program d (Set.Subset.refl _)
  rw [heq]
  obtain ⟨hdraws, htemps⟩ := hm.drawing.withTemps_given_back c
  have hlabels : Effect.labels ∉ ({.spriteSets, .definitions, .frames} : Set Effect) := by simp
  obtain ⟨hshort, hlong⟩ := hdraws.labels hlabels h
  exact {
    tempFree := (htemps.order trivial).symm
    tempDepth := htemps.depth_eq
    shortFree := (hshort.order trivial).symm
    shortDepth := hshort.depth_eq
    longFree := hlong.perm.symm
    longDepth := hlong.depth_eq
    depth := hdraws.depth }

/-- The body of the loop fails, when a label and a temporary parameter are in use. -/
theorem lower_gives_back_after_failure :
    let branch : IfBranch Declaration := {
      cond := some (.binary .eq (.binary .add (.paramAt 2) (.const 1)) (.const 3))
      body := [.deactivate ["A"] {}], pos := {} }
    let d : Declaration := .loop (.paramAt 1) [.conditional [branch] {}] {}
    let c := Context.create 0 none none
    succeeds d.lower c (fun _ _ => true) = false ∧ (endState d.lower c).longLabels.issued = [0x80] ∧
      (endState d.lower c).tempParams.issued = [0x40] ∧ c.SamePools (endState d.lower c) := by
  intro branch d c
  refine ⟨by decide +kernel, by decide +kernel, by decide +kernel, lower_gives_back d c rfl⟩

end Lowering

end Grf
