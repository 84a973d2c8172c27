import Grf.Proofs.Conditional.Builds
import Grf.Proofs.Table.Emits

/-! # Named records of declarations

What conditionals and loops add to the records of their bodies has nothing to do with named records. So a property of
named records that can be composed (`Composes`) holds of declarations if it holds of those that hold no others
(`lowerAll_relates`). One such property is what is left to bind (`lowerAll_emits`).
-/

namespace Grf.Lowering

open List Declaration

/-- A property of the records that are made in going from a registry to another one, which does not depend
on detached records and holds of records one after the other. -/
structure Composes (W : Registry → List Record → Registry → Prop) : Prop where
  nil : ∀ r, W r [] r
  append : ∀ {r rs r' rs' r''}, W r rs r' → W r' rs' r'' → W r (rs ++ rs') r''
  congr : ∀ {r rs rs' r'}, W r rs r' → Record.attached rs' = Record.attached rs → W r rs' r'

variable {W : Registry → List Record → Registry → Prop} {c c' : Context} {ds : List Declaration} {rs rs' : List Record}

theorem Composes.of_detached (hW : Composes W) {m : Lowering (List Record)} (h : Detached m AllDetached) :
    Relates m W :=
  Relates.of_detached h fun r _ hrs => hW.congr (hW.nil r) (Record.attached_of_detached hrs)

theorem framed_relates {d : Declaration} {body : Lowering (List Record)} (hbody : Relates body W) :
    Relates (framed d body) W := by
  refine Relates.bracket (fun c => ⟨rfl, rfl⟩) (fun c c' h => ?_) (.after (.step log_program) fun _ _ => hbody)
  obtain ⟨temps, -, ⟨⟩⟩ := except_bind_eq_ok h
  exact ⟨rfl, rfl⟩

/-- Of the declarations that hold no others, only those of decision tables, sprite groups and graphics tables
have to do with named records. -/
theorem simple_relates (hW : Composes W) {d : Declaration} (hd : d.IsSimple)
    (hswitch : ∀ s, d = .switch s → Relates (lowerSwitch s) W)
    (hgroup : ∀ g, Relates (lowerSpriteGroup g) W) (hgraphics : ∀ g, Relates (lowerGraphics g) W) :
    Relates d.lower W := by
  cases d with
  | spriteGroup group => exact framed_relates (hgroup group)
  | switch table => exact framed_relates (hswitch table rfl)
  | graphics table => exact framed_relates (hgraphics table)
  | _ => exact hW.of_detached (lower_detached hd fun h => h)

theorem Steady.definitions (h : Steady c c') : c'.scratch = c.scratch ∧ c'.registry = c.registry :=
  ⟨h _ (.scratch (by simp)), h _ (.registry (by simp))⟩

theorem Runs.relates (hW : Composes W) {steps : List Stage} (h : Runs c steps c')
    (hsteps : ∀ s ∈ steps, Relates s.decl.lower W) :
    c'.scratch = c.scratch ∧ W c.registry (steps.flatMap Stage.records) c'.registry := by
  induction h with
  | nil h => exact ⟨h.definitions.1, h.definitions.2 ▸ hW.nil _⟩
  | @cons c c' s steps h hs hrest ih =>
    obtain ⟨hstep, hsteps⟩ := forall_mem_cons.mp hsteps
    obtain ⟨hscratch, hfirst⟩ := hstep _ _ _ hs.lower
    grind [h.definitions, hW.append]

theorem attached_of_pads (h : Pads Record.IsGlue rs rs') : Record.attached rs' = Record.attached rs := by
  induction h with
  | nil => rfl
  | keep _ ih => grind [Record.attached]
  | insert hr _ ih => exact (filter_cons_of_neg (by simp [Record.isAttached_eq_false.mpr hr.1])).trans ih

/-- **What composes holds of declarations if it holds of those that hold no others.** -/
theorem lowerAll_relates (hW : Composes W) (hsimple : ∀ d ∈ walkAll ds, d.IsSimple → Relates d.lower W)
    (hc : c.InRange) (h : lowerAll ds c = .ok rs c') : c'.scratch = c.scratch ∧ W c.registry rs c'.registry := by
  obtain ⟨s, -, hassembled⟩ := lowerAll_builds ds hc h
  obtain ⟨steps, hleaves, hruns, -, hpads⟩ := hassembled.runs
  obtain ⟨hscratch, hall⟩ := hruns.relates hW fun s hs => hsimple s.decl
    (mem_walkAll_of_mem_leaves ds (hleaves ▸ mem_map_of_mem hs)) (hruns.made s hs).simple
  exact ⟨hscratch, hW.congr hall (attached_of_pads hpads)⟩

theorem writes_composes : Composes Writes where
  nil r := .detached (by simp)
  append := Writes.append
  congr := Writes.congr

/-- **What declarations leave to bind.** -/
theorem lowerAll_emits (hc : c.InRange) (h : lowerAll ds c = .ok rs c') :
    c'.scratch = c.scratch ∧ Writes c.registry rs c'.registry :=
  lowerAll_relates writes_composes (fun _ _ hd => simple_relates writes_composes hd
    (fun _ _ => lowerSwitch_emits) (fun _ => lowerSpriteGroup_emits) fun _ => lowerGraphics_emits) hc h

theorem lowerAll_written {limit : Int} {strings : Option StringTable} {sprites : Option SpriteRegistry}
    (h : lowerAll ds (Context.create limit strings sprites) = .ok rs c) :
    c.scratch = [] ∧ ∃ steps, Spelled c.registry rs steps ∧ c.registry.Written steps [] [] := by
  obtain ⟨hscratch, hwrites⟩ := lowerAll_emits (Context.create_inRange limit strings sprites) h
  obtain ⟨steps, hspelled, hwritten⟩ := hwrites.written Registry.written_empty
  exact ⟨hscratch, steps, hspelled, hwritten⟩

end Grf.Lowering
