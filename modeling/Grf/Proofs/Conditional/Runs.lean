import Grf.Proofs.Conditional.Scaffold
import Grf.Proofs.Declaration.Flow
import Grf.Proofs.Lowering.Drafts

/-! # Declarations are lowered in the order of their leaves

Lowering comes to the declarations that hold no others in the order in which they are written. What it does in between
has nothing to do with named records, sprite sets or strings (`Steady`), and the records it adds can be written as they
are (`Record.IsGlue`). By `RunsTo`, whatever lasts can be followed from one declaration to the next without looking at
conditionals and loops again.
-/

namespace Grf

open List

/-- A record that has nothing to do with named records, and that can be written as it is. -/
def Record.IsGlue (r : Record) : Prop := r.Detached ∧ ∀ fits, r.Drafted fits

theorem Record.glue_constantAssignment (target value : Int) (pos : Position) :
    (constantAssignment target value pos).IsGlue := ⟨trivial, fun _ => trivial⟩

theorem Record.glue_ofLabel (label : Int) (pos : Position) : (ofLabel label pos).IsGlue := ⟨trivial, fun _ => trivial⟩

theorem Record.glue_jumpTo (label : Int) (pos : Position) : (jumpTo label pos).IsGlue :=
  ⟨trivial, fun _ => .inl (Eq.refl (1 : Int))⟩

namespace Lowering

variable {c c' d e : Context} {pos : Position} {rs out xs : List Record} {test : SkipCondition}

theorem lowerCondition_glue {cond : Expr} {x : List Record × SkipCondition}
    (h : lowerCondition cond pos c = .ok x c') : (∀ r ∈ x.1, r.IsGlue) ∧ IsWidth x.2.size := by
  obtain ⟨condition, message, size, code, value, hsize, heq⟩ := lowerCondition_eq cond pos
  rw [heq] at h
  obtain ⟨_, _, -, h⟩ := bind_eq_ok.mp h
  obtain ⟨y, hoperand, rfl⟩ := bind_pure_eq_ok.mp h
  obtain ⟨steps, hsteps⟩ := operandParam_planned hoperand
  refine ⟨fun r hr => ?_, hsize.imp_right .inr⟩
  have hr : r ∈ planned pos steps := hsteps ▸ hr
  exact ⟨allDetached_planned steps r hr, fun fits => allDrafted_planned steps r hr⟩

theorem spans_of_covers {limit : Nat} {taken : Int → Prop} {ws : List (Wrap Record)}
    (h : Forall₂ (Wrap.Covers limit test taken) (SkipRun.split xs) ws) : Spans ws xs := by
  have hsum : ∀ {runs : List SkipRun} {ws : List (Wrap Record)}, Forall₂ (Wrap.Covers limit test taken) runs ws →
      (ws.map Wrap.length).sum = (runs.flatMap (·.records)).length := by
    intro runs ws h
    induction h with
    | nil => rfl
    | cons hw _ ih => simp [hw.length, ih]
  have := hsum h
  rwa [SkipRun.split_records] at this

theorem Guards.pads {ws : List (Wrap Record)} (h : Guards c test xs ws c') (hsize : IsWidth test.size) :
    Pads Record.IsGlue xs (wrapAll ws xs) := by
  refine (pads_wrapAll (spans_of_covers h.covers)).mono ?_
  rintro r ⟨w, hw, hr⟩
  obtain ⟨run, hcovers⟩ := exists_covers h.covers w hw
  cases hcovers with
  | alone => simp [Wrap.inserted] at hr
  | counted =>
    obtain rfl := mem_singleton.mp hr
    exact ⟨trivial, fun _ => hsize⟩
  | labelled pos action label =>
    have hr' : r = ⟨pos, .skip action test label⟩ ∨ r = .ofLabel label pos := by
      simpa [Wrap.inserted] using hr
    rcases hr' with rfl | rfl
    · exact ⟨trivial, fun _ => hsize⟩
    · exact Record.glue_ofLabel label pos

/-- The lowering of a declaration, with the states before and after it. -/
structure Stage where
  decl : Declaration
  before : Context
  records : List Record
  after : Context

/-- The declaration holds no others. -/
structure Stage.Made (s : Stage) : Prop where
  simple : s.decl.IsSimple
  lower : s.decl.lower s.before = .ok s.records s.after

/-- Steps one after the other, from the state `c` to `c'`. Between them nothing changes that lasts. -/
inductive Runs : Context → List Stage → Context → Prop
  | nil {c c' : Context} (h : Steady c c') : Runs c [] c'
  | cons {c c' : Context} {s : Stage} {steps : List Stage} (h : Steady c s.before) (hs : s.Made)
      (hrest : Runs s.after steps c') : Runs c (s :: steps) c'

namespace Runs

variable {steps steps' : List Stage}

theorem before (hsteady : Steady c d) (h : Runs d steps c') : Runs c steps c' := by
  cases h with
  | nil h => exact .nil (hsteady.trans h)
  | cons h hs hrest => exact .cons (hsteady.trans h) hs hrest

theorem append (h : Runs c steps d) (h' : Runs d steps' c') : Runs c (steps ++ steps') c' := by
  induction h with
  | nil h => exact h'.before h
  | cons h hs _ ih => exact .cons h hs (ih h')

theorem made (h : Runs c steps c') : ∀ s ∈ steps, s.Made := by
  induction h with
  | nil => simp
  | cons _ hs _ ih => exact forall_mem_cons.mpr ⟨hs, ih⟩

end Runs

/-- The records `rs` are those of the declarations `leaves` and glue between them. The declarations are lowered
inside of `n` conditionals at least. -/
def RunsTo (n : Nat) (leaves : List Declaration) (c : Context) (rs : List Record) (c' : Context) : Prop :=
  ∃ steps : List Stage, steps.map Stage.decl = leaves ∧ Runs c steps c' ∧ (∀ s ∈ steps, n ≤ s.before.depth) ∧
    Pads Record.IsGlue (steps.flatMap Stage.records) rs

namespace RunsTo

variable {n m : Nat} {ds ds' : List Declaration} {rs' : List Record}

theorem nil (h : Steady c c') : RunsTo n [] c [] c' := ⟨[], rfl, .nil h, by simp, .nil⟩

theorem leaf {decl : Declaration} (hd : decl.IsSimple) (h : decl.lower c = .ok rs c') : RunsTo c.depth [decl] c rs c' :=
  ⟨[⟨decl, c, rs, c'⟩], rfl, .cons (.refl c) ⟨hd, h⟩ (.nil (.refl c')), by simp, by simpa using .refl rs⟩

theorem append (h : RunsTo n ds c rs d) (h' : RunsTo n ds' d rs' c') : RunsTo n (ds ++ ds') c (rs ++ rs') c' := by
  obtain ⟨steps, rfl, hruns, hdepth, hpads⟩ := h
  obtain ⟨steps', rfl, hruns', hdepth', hpads'⟩ := h'
  refine ⟨steps ++ steps', map_append, hruns.append hruns', ?_, ?_⟩
  · exact forall_mem_append.mpr ⟨hdepth, hdepth'⟩
  · rw [flatMap_append]
    exact hpads.append hpads'

theorem around (hbefore : Steady c d) (h : RunsTo n ds d rs e) (hafter : Steady e c')
    (hpads : Pads Record.IsGlue rs out) : RunsTo n ds c out c' := by
  obtain ⟨steps, hleaves, hruns, hdepth, hrs⟩ := h
  have hall := (hruns.before hbefore).append (.nil hafter)
  rw [append_nil] at hall
  exact ⟨steps, hleaves, hall, hdepth, hrs.trans hpads⟩

theorem mono (h : RunsTo n ds c rs c') (hle : m ≤ n) : RunsTo m ds c rs c' := by
  obtain ⟨steps, hleaves, hruns, hdepth, hpads⟩ := h
  exact ⟨steps, hleaves, hruns, fun s hs => hle.trans (hdepth s hs), hpads⟩

end RunsTo

end Lowering

end Grf
