import Grf.Proofs.Table.Emits
import Grf.Proofs.Table.Patches

/-! # Scratch slots of decision tables

Slots are made for the operands that have to be computed first, and their registers come last, when
all tables are there. So if the expressions of a switch name no registers themselves, no slot of its
tables has one (`Lowering.TableOf.isOpen`).
-/

namespace Grf

open List

def Expr.Open : Expr → Prop
  | binary _ left right => left.Open ∧ right.Open
  | not operand => operand.Open
  | var ⟨_, some arg, _, _, _, _, _⟩ => arg.Open
  | store slot => slot.register? = none
  | _ => True
termination_by structural e => e

def Switch.Open (s : Switch) : Prop :=
  s.expr.Open ∧ (∀ range ∈ s.ranges, ∀ e ∈ range.result, e.Open) ∧ ∀ e ∈ s.default, e.Open

def StreamItem.slot? : StreamItem → Option Slot
  | .operand (.store slot) => some slot
  | _ => none

def Record.stores (R : Record) : List Slot :=
  match R.body with
  | .decisionTable t => t.stream.filterMap (·.slot?)
  | _ => []

def Record.Open (R : Record) : Prop := ∀ slot ∈ R.stores, slot.register? = none

namespace Expr

theorem open_simplifiable : Simplifiable Open where
  const _ := trivial
  binary _ _ _ := Iff.rfl
  var {v v'} _ harg h := by
    obtain ⟨num, arg, shift, mask, add, div, mod⟩ := v
    obtain ⟨num', arg', shift', mask', add', div', mod'⟩ := v'
    obtain rfl : arg' = arg := harg
    cases arg' <;> exact h

theorem open_fold {e : Expr} (h : e.Open) : e.fold.Open := by
  induction e using byParts with
  | const | param | string | record | bare => trivial
  | binary op left right ihl ihr => exact fold_binary_of ⟨ihl h.1, ihr h.2⟩ fun _ => trivial
  | not operand ih => exact fold_not_of (ih h) fun _ => trivial
  | var num arg shift mask add div mod ih => exact ih h
  | store => exact h
  | load => trivial

theorem open_simplify {e : Expr} {width : Int} (h : e.Open) : (e.simplify width).Open := by
  induction e using byParts with
  | const | param | string | record | bare => trivial
  | binary op left right ihl ihr => exact open_simplifiable.simplifyBinary (ihl h.1) (ihr h.2)
  | not operand ih => exact open_simplifiable.simplifyBinary (ih h) trivial
  | var num arg shift mask add div mod ih => exact ih h
  | store => exact h
  | load => trivial

end Expr

theorem Expr.open_inherited : Expr.Inherited Expr.Open where
  binary h := h
  arg {v arg} harg h := by
    obtain ⟨num, param, shift, mask, add, div, mod⟩ := v
    obtain rfl : param = some arg := harg
    exact h

namespace Lowering

variable {T : String → Int → Prop} {pos : Position} {width : Int} {e : Expr} {slot : Nat} {stream : Stream}
  {before : List Record}

theorem StreamOf.isOpen (h : StreamOf T width pos e slot stream before) (he : e.Open) :
    ∀ item ∈ stream.items, ∀ kept ∈ item.slot?, kept.register? = none := by
  refine h.forall_mem Expr.open_inherited he (by simp [StreamItem.slot?]) (by simp [StreamItem.slot?])
    (by simp [StreamItem.slot?]) (fun kept h kept' hkept => ?_) (by simp [StreamItem.slot?])
  obtain rfl := Option.some.inj hkept
  rcases h with h | ⟨n, rfl⟩
  · exact h
  · rfl

theorem open_of_stores {R : Record} (h : R.stores = []) : R.Open := by
  grind [Record.Open]

theorem stores_of_detached {R : Record} (h : R.Detached) : R.stores = [] := by
  obtain ⟨pos, body⟩ := R
  cases body <;> first | exact h.elim | rfl

theorem TableOf.isOpen {s : Switch} {rs : List Record} (h : TableOf T s rs) (hs : s.Open) : ∀ R ∈ rs, R.Open := by
  obtain @⟨part, e, head, ranges, default, he, hpart, -, -, hstream, -⟩ := h
  have hopen : e.Open := by
    obtain ⟨hexpr, hranges, hdefault⟩ := hs
    simp only [Switch.expressions, mem_append, mem_cons, mem_filterMap, Option.mem_toList] at he
    rcases he with (rfl | ⟨range, hrange, he⟩) | he
    · exact hexpr
    · exact hranges range hrange e he
    · exact hdefault e he
  have hpartOpen : part.expr.Open := by
    grind [Expr.open_fold]
  have htable : ∀ slot ∈ head.stream.items.filterMap (·.slot?), slot.register? = none := by
    intro slot hslot
    obtain ⟨item, hitem, hslot⟩ := mem_filterMap.mp hslot
    exact hstream.isOpen (Expr.open_simplify (Expr.open_fold hpartOpen)) item hitem slot hslot
  intro R hR
  rcases mem_append.mp hR with hR | hR
  · exact open_of_stores (stores_of_detached (hstream.detached R hR))
  · unfold Record.withPatches at hR
    split at hR
    · obtain rfl := mem_singleton.mp hR
      exact htable
    · rcases mem_cons.mp hR with rfl | hR
      · exact open_of_stores rfl
      · obtain rfl := mem_singleton.mp hR
        exact htable

end Lowering

end Grf
