import Mathlib.Logic.Relation
import Grf.Graph

/-! # Reachable nodes

`reach` explores a graph from a queue of nodes. It finds exactly the nodes that a path through unseen
nodes leads to (`mem_reach`). For the references of a graph taken in either direction, these are the
other nodes of the weakly connected component (`mem_connected`).
-/

namespace Grf.Graph

open List

open Relation

def StepIn (near : Nat → Nat → Bool) (unseen : List Nat) (v w : Nat) : Prop := near v w = true ∧ w ∈ unseen

variable {p : Nat → Bool} {l : List Nat} {w : Nat}

theorem mem_partition_fst : w ∈ (l.partition p).1 ↔ w ∈ l ∧ p w = true := by
  rw [partition_eq_filter_filter, mem_filter]

theorem mem_partition_snd : w ∈ (l.partition p).2 ↔ w ∈ l ∧ p w = false := by
  simp

/-- **The exploration finds the nodes that a path through unseen nodes leads to.** -/
theorem mem_reach {near : Nat → Nat → Bool} {unseen queue : List Nat} :
    w ∈ reach near unseen queue ↔ ∃ v ∈ queue, ReflTransGen (StepIn near unseen) v w := by
  fun_induction reach near unseen queue generalizing w with
  | case1 => simp
  | case2 unseen v queue parts =>
    rename_i ih
    constructor
    · intro hw
      rcases mem_cons.mp hw with rfl | hw
      · exact ⟨w, by simp, .refl⟩
      · obtain ⟨u, hu, hpath⟩ := ih.mp hw
        have hpath' : ReflTransGen (StepIn near unseen) u w :=
          ReflTransGen.mono (fun a b hab => ⟨hab.1, (mem_partition_snd.mp hab.2).1⟩) u w hpath
        rcases mem_append.mp hu with hu | hu
        · exact ⟨u, by simp [hu], hpath'⟩
        · obtain ⟨hunseen, hnear⟩ := mem_partition_fst.mp hu
          exact ⟨v, by simp, .head ⟨hnear, hunseen⟩ hpath'⟩
    · rintro ⟨u, hu, hpath⟩
      -- every node on the way is found, since what is near `v` is put into the queue
      induction hpath with
      | refl =>
        rcases mem_cons.mp hu with rfl | hu
        · simp
        · exact mem_cons_of_mem _ (ih.mpr ⟨u, mem_append_left _ hu, .refl⟩)
      | @tail a b _ hab hfound =>
        by_cases hnear : near v b = true
        · have hb : b ∈ queue ++ parts.1 := mem_append_right _ (mem_partition_fst.mpr ⟨hab.2, hnear⟩)
          exact mem_cons_of_mem _ (ih.mpr ⟨b, hb, .refl⟩)
        · rcases mem_cons.mp hfound with rfl | hfound
          · exact absurd hab.1 hnear
          · obtain ⟨u', hu', hpath'⟩ := ih.mp hfound
            have hb : b ∈ parts.2 := mem_partition_snd.mpr ⟨hab.2, by simpa using hnear⟩
            exact mem_cons_of_mem _ (ih.mpr ⟨u', hu', hpath'.tail ⟨hab.1, hb⟩⟩)

variable {α : Type} {g : Graph α} {v w : Nat}

def Closed (g : Graph α) : Prop := ∀ e ∈ g.edges, e.1 < g.data.size ∧ e.2 < g.data.size

/-- Two nodes are in the same weakly connected component: edges, taken in either direction, lead
from one to the other. -/
def Linked (g : Graph α) : Nat → Nat → Prop := ReflTransGen fun v w => g.adjacent v w = true

theorem Linked.refl (g : Graph α) (v : Nat) : g.Linked v v := ReflTransGen.refl

theorem Linked.symm (h : g.Linked v w) : g.Linked w v := by
  induction h with
  | refl => exact .refl g v
  | @tail a b _ hab ih => exact ReflTransGen.head ((Bool.or_comm _ _).trans hab) ih

theorem Linked.trans {u : Nat} (h : g.Linked u v) (h' : g.Linked v w) : g.Linked u w := ReflTransGen.trans h h'

theorem Closed.of_adjacent (hg : g.Closed) (h : g.adjacent v w = true) : w < g.data.size := by
  rcases Bool.or_eq_true _ _ ▸ h with h | h
  · exact (hg _ (contains_iff_mem.mp h)).2
  · exact (hg _ (contains_iff_mem.mp h)).1

theorem mem_nodes : v ∈ g.nodes ↔ v < g.data.size := mem_range

/-- **The nodes connected to a node are the others of its component.** -/
theorem mem_connected (hg : g.Closed) : w ∈ g.connected v ↔ w ≠ v ∧ g.Linked v w := by
  have hunseen : ∀ {u : Nat}, u ∈ g.nodes.filter (· != v) ↔ u < g.data.size ∧ u ≠ v := by
    intro u
    rw [mem_filter, mem_nodes, bne_iff_ne]
  -- a path from `v` need not come back to `v`
  have hpath : g.Linked v w → w = v ∨ w < g.data.size ∧
      ReflTransGen (StepIn g.adjacent (g.nodes.filter (· != v))) v w := by
    intro h
    induction h with
    | refl => exact .inl rfl
    | @tail a b _ hab ih =>
      by_cases hb : b = v
      · exact .inl hb
      · have hnode := hg.of_adjacent hab
        have hstep : StepIn g.adjacent (g.nodes.filter (· != v)) a b := ⟨hab, hunseen.mpr ⟨hnode, hb⟩⟩
        rcases ih with rfl | ⟨-, ih⟩
        · exact .inr ⟨hnode, .single hstep⟩
        · exact .inr ⟨hnode, ih.tail hstep⟩
  unfold connected
  rw [mem_filter, hunseen, contains_iff_mem, mem_reach]
  simp only [mem_singleton, exists_eq_left]
  constructor
  · rintro ⟨⟨hnode, hne⟩, h⟩
    exact ⟨hne, ReflTransGen.mono (fun a b hab => hab.1) v w h⟩
  grind

theorem mem_component (hg : g.Closed) : w ∈ v :: g.connected v ↔ g.Linked v w := by
  grind [mem_connected, Linked.refl]

theorem nodup_component (hg : g.Closed) : (v :: g.connected v).Nodup := by
  refine nodup_cons.mpr ⟨fun h => ((mem_connected hg).mp h).1 rfl, ?_⟩
  exact (nodup_range.filter _).filter _

end Grf.Graph
