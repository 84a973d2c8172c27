import Grf.Proofs.Lowering.Keeps

/-! # The ways through declarations

At most one branch of a conditional is taken, and the body of a loop is gone through any number of times. A `Flow` has
these choices, and a path through it is a list of its leaves with their positions in the order in which they are
written. On paths without loops the positions increase (`Path.pairwise_lt`). Leaves outside of conditionals and loops
are on every path (`filterMap_fst_of_path`).
-/

namespace Grf

open List

variable {α β : Type}

/-- Where control can go. -/
inductive Flow (α : Type)
  | done
  | leaf (a : α)
  | append (first second : Flow α)
  /-- One of the two, and the other one is passed over. -/
  | either (first second : Flow α)
  /-- Any number of turns. -/
  | loop (body : Flow α)

namespace Flow

def leaves : Flow α → List α
  | done => []
  | leaf a => [a]
  | append first second => first.leaves ++ second.leaves
  | either first second => first.leaves ++ second.leaves
  | loop body => body.leaves

def Loopless : Flow α → Prop
  | done => True
  | leaf _ => True
  | append first second => first.Loopless ∧ second.Loopless
  | either first second => first.Loopless ∧ second.Loopless
  | loop _ => False

/-- A path through a flow, as the leaves it comes to. The first leaf of the flow has the position `k`. -/
inductive Path : Flow α → Nat → List (α × Nat) → Prop
  | done (k : Nat) : Path .done k []
  | leaf (a : α) (k : Nat) : Path (.leaf a) k [(a, k)]
  | append {first second : Flow α} {k : Nat} {p q : List (α × Nat)} (hfirst : Path first k p)
      (hsecond : Path second (k + first.leaves.length) q) : Path (.append first second) k (p ++ q)
  | first {first second : Flow α} {k : Nat} {p : List (α × Nat)} (h : Path first k p) : Path (.either first second) k p
  | second {first second : Flow α} {k : Nat} {p : List (α × Nat)}
      (h : Path second (k + first.leaves.length) p) : Path (.either first second) k p
  | leave (body : Flow α) (k : Nat) : Path (.loop body) k []
  | turn {body : Flow α} {k : Nat} {p q : List (α × Nat)} (hturn : Path body k p)
      (hrest : Path (.loop body) k q) : Path (.loop body) k (p ++ q)

variable {f : Flow α} {k : Nat} {p : List (α × Nat)}

theorem Path.mem_leaves (h : Path f k p) : ∀ x ∈ p, x ∈ f.leaves.zipIdx k := by
  induction h with
  | done | leave => simp
  | leaf a k => simp [leaves]
  | append hfirst hsecond ihf ihs => grind [leaves]
  | first h ih => grind [leaves]
  | second h ih => grind [leaves]
  | turn hturn hrest iht ihr =>
    intro x hx
    rcases mem_append.mp hx with hx | hx
    · exact iht x hx
    · exact ihr x hx

theorem Path.position (h : Path f k p) {x : α × Nat} (hx : x ∈ p) : k ≤ x.2 ∧ x.2 < k + f.leaves.length := by
  obtain ⟨hle, hlt, -⟩ := mem_zipIdx (h.mem_leaves x hx)
  exact ⟨hle, by omega⟩

theorem Path.pairwise_lt (h : Path f k p) (hf : f.Loopless) : p.Pairwise fun x y => x.2 < y.2 := by
  induction h with
  | done => exact .nil
  | leaf => exact pairwise_singleton _ _
  | append hfirst hsecond ihf ihs =>
    refine pairwise_append.mpr ⟨ihf hf.1, ihs hf.2, fun x hx y hy => ?_⟩
    have := (hfirst.position hx).2
    have := (hsecond.position hy).1
    omega
  | first h ih => exact ih hf.1
  | second h ih => exact ih hf.2
  | leave | turn => exact hf.elim

theorem Path.filterMap_eq_nil (h : Path f k p) {count : α → Option β}
    (hnone : ∀ a ∈ f.leaves, count a = none) : (p.map Prod.fst).filterMap count = [] := by
  refine filterMap_eq_nil_iff.mpr fun a ha => ?_
  obtain ⟨x, hx, rfl⟩ := mem_map.mp ha
  exact hnone x.1 (fst_mem_of_mem_zipIdx (h.mem_leaves x hx))

end Flow

namespace Declaration

variable {a d : Declaration} {i k : Nat} {count : Declaration → Option β} {post pre : List (Declaration × Nat)}

mutual

/-- The ways through a declaration. What is never taken is not there. -/
def flow : Declaration → Flow Declaration
  | conditional branches _ => flowBranches branches
  | loop cond body _ =>
    if constantCondition? cond = some false then .done else .loop (flowAll body)
  | d => .leaf d

def flowAll : List Declaration → Flow Declaration
  | [] => .done
  | d :: ds => .append d.flow (flowAll ds)

def flowBranches : List (IfBranch Declaration) → Flow Declaration
  | [] => .done
  | ⟨cond, body, _⟩ :: rest =>
    match cond.map constantCondition? with
    | none | some (some true) => flowAll body
    | some (some false) => flowBranches rest
    | some none => .either (flowAll body) (flowBranches rest)

end

/-- How many frames of conditionals are around what a declaration holds. -/
def nesting : Declaration → Nat
  | conditional .. | loop .. => 1
  | _ => 0

section Branches

variable {cond : Option Expr} {e : Expr} {body : List Declaration} {pos : Position} {rest : List (IfBranch Declaration)}

theorem flowBranches_always (h : ∀ e ∈ cond, constantCondition? e = some true) :
    flowBranches (⟨cond, body, pos⟩ :: rest) = flowAll body := by
  cases cond with
  | none => rfl
  | some e =>
    have he : constantCondition? e = some true := h e rfl
    simp [flowBranches, he]

theorem flowBranches_never (h : constantCondition? e = some false) :
    flowBranches (⟨some e, body, pos⟩ :: rest) = flowBranches rest := by
  simp [flowBranches, h]

theorem flowBranches_either (h : constantCondition? e = none) :
    flowBranches (⟨some e, body, pos⟩ :: rest) = .either (flowAll body) (flowBranches rest) := by
  simp [flowBranches, h]

theorem flowBranches_of_never (h : ∀ b ∈ rest, ∃ e, b.cond = some e ∧ constantCondition? e = some false) :
    flowBranches rest = .done := by
  induction rest with
  | nil => rfl
  | cons b rest ih =>
    obtain ⟨cond, body, pos⟩ := b
    obtain ⟨⟨e, rfl, hconst⟩, hrest⟩ := forall_mem_cons.mp h
    rw [flowBranches_never hconst, ih hrest]

end Branches

mutual

theorem mem_walk_of_mem_leaves (d : Declaration) {a : Declaration} (h : a ∈ d.flow.leaves) : a ∈ d.walk := by
  cases d with
  | conditional branches pos =>
    rw [flow] at h
    exact mem_cons_of_mem _ (mem_walkBranches_of_mem_leaves branches h)
  | loop cond body pos =>
    rw [flow] at h
    split at h
    · simp [Flow.leaves] at h
    · exact mem_cons_of_mem _ (mem_walkAll_of_mem_leaves body h)
  | _ => exact h

theorem mem_walkAll_of_mem_leaves (ds : List Declaration) {a : Declaration} (h : a ∈ (flowAll ds).leaves) :
    a ∈ walkAll ds := by
  cases ds with
  | nil => simp [flowAll, Flow.leaves] at h
  | cons d ds => exact mem_append.mpr ((mem_append.mp h).imp (mem_walk_of_mem_leaves d) (mem_walkAll_of_mem_leaves ds))

theorem mem_walkBranches_of_mem_leaves (branches : List (IfBranch Declaration)) {a : Declaration}
    (h : a ∈ (flowBranches branches).leaves) : a ∈ walkBranches branches := by
  cases branches with
  | nil => simp [flowBranches, Flow.leaves] at h
  | cons b rest =>
    obtain ⟨cond, body, pos⟩ := b
    rw [flowBranches] at h
    split at h
    · exact mem_append_left _ (mem_walkAll_of_mem_leaves body h)
    · exact mem_append_left _ (mem_walkAll_of_mem_leaves body h)
    · exact mem_append_right _ (mem_walkBranches_of_mem_leaves rest h)
    · exact mem_append.mpr
        ((mem_append.mp h).imp (mem_walkAll_of_mem_leaves body) (mem_walkBranches_of_mem_leaves rest))

end

theorem flow_of_simple (h : d.IsSimple) : d.flow = .leaf d := by
  cases d with
  | conditional => exact h.elim
  | loop => exact h.elim
  | _ => rfl

theorem filterMap_fst_of_flow {p : List (Declaration × Nat)} (h : d.flow.Path k p)
    (houtside : d.IsSimple ∨ ∀ a ∈ d.flow.leaves, count a = none) :
    (p.map Prod.fst).filterMap count = d.flow.leaves.filterMap count := by
  rcases houtside with hsimple | hnone
  · rw [flow_of_simple hsimple] at h ⊢
    cases h
    rfl
  · rw [h.filterMap_eq_nil hnone, filterMap_eq_nil_iff.mpr hnone]

theorem filterMap_fst_of_flow_split (h : d.flow.Path k (pre ++ (a, i) :: post))
    (houtside : d.IsSimple ∨ ∀ a ∈ d.flow.leaves, count a = none) :
    (pre.map Prod.fst).filterMap count = (d.flow.leaves.take (i - k)).filterMap count := by
  rcases houtside with hsimple | hnone
  · rw [flow_of_simple hsimple] at h ⊢
    generalize hp : pre ++ (a, i) :: post = p at h
    cases h
    -- the path has one leaf only
    cases pre with
    | nil =>
      obtain ⟨-, rfl⟩ := Prod.ext_iff.mp (List.cons.inj hp).1
      simp
    | cons x pre => simp at hp
  · have hpath := h.filterMap_eq_nil hnone
    rw [map_append, filterMap_append, append_eq_nil_iff] at hpath
    rw [hpath.1, filterMap_eq_nil_iff.mpr fun x hx => hnone x (mem_of_mem_take hx)]

/-- **Leaves that stand outside of conditionals and loops are on every path.** What counts before a leaf
on a path is what counts before it in the order in which the leaves are written. -/
theorem filterMap_fst_of_path {ds : List Declaration} (h : (flowAll ds).Path k (pre ++ (a, i) :: post))
    (houtside : ∀ d ∈ ds, d.IsSimple ∨ ∀ a ∈ d.flow.leaves, count a = none) :
    (pre.map Prod.fst).filterMap count = ((flowAll ds).leaves.take (i - k)).filterMap count := by
  induction ds generalizing k pre with
  | nil =>
    generalize hpath : pre ++ (a, i) :: post = path at h
    cases h
    simp at hpath
  | cons d ds ih =>
    obtain ⟨hd, hds⟩ := forall_mem_cons.mp houtside
    generalize hpath : pre ++ (a, i) :: post = path at h
    cases h with
    | @append _ _ _ p q hfirst hsecond =>
      have hlater : ∀ rest, pre = p ++ rest → q = rest ++ (a, i) :: post →
          (pre.map Prod.fst).filterMap count = ((flowAll (d :: ds)).leaves.take (i - k)).filterMap count := by
        rintro rest rfl rfl
        have hlength : d.flow.leaves.length ≤ i - k := by
          have : k + d.flow.leaves.length ≤ i := (hsecond.position (x := (a, i)) (by simp)).1
          omega
        rw [map_append, filterMap_append, filterMap_fst_of_flow hfirst hd, ih hsecond hds]
        show _ = ((d.flow.leaves ++ (flowAll ds).leaves).take (i - k)).filterMap count
        rw [take_append, take_of_length_le hlength, filterMap_append, Nat.sub_add_eq]
      rcases append_eq_append_iff.mp hpath with ⟨rest, rfl, hrest⟩ | ⟨rest, hpre, hrest⟩
      · cases rest with
        | nil => exact hlater [] (by simp) (by simpa using hrest.symm)
        | cons x rest =>
          obtain ⟨rfl, rfl⟩ := List.cons.inj hrest
          have hlength : i - k ≤ d.flow.leaves.length := by
            have : i < k + d.flow.leaves.length := (hfirst.position (x := (a, i)) (by simp)).2
            omega
          rw [filterMap_fst_of_flow_split hfirst hd]
          show _ = ((d.flow.leaves ++ (flowAll ds).leaves).take (i - k)).filterMap count
          rw [take_append_of_le_length hlength]
      · exact hlater rest hpre hrest

end Declaration

end Grf
