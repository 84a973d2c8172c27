import Grf.Proofs.Finalize.Binding
import Grf.Proofs.Record.Sizes

/-! # What finalizing does to a record

Binding puts ids into the references of a record (`Record.BoundAs`), and the last pass gives registers to its
slots (`Record.PreparedAs`). So each record of the output has been bound, prepared, and given the id of its
definition (`finalize_shapes`). Binding counts references down and gives out ids, but it changes no reference
between definitions (`KeepsGraph`).
-/

namespace Grf

open List

theorem forall₂_trans {α β γ : Type} {R : α → β → Prop} {S : β → γ → Prop} {as : List α} {bs : List β} {cs : List γ}
    (h : Forall₂ R as bs) (h' : Forall₂ S bs cs) : Forall₂ (fun a c => ∃ b, R a b ∧ S b c) as cs := by
  induction h generalizing cs with
  | nil => exact forall₂_nil_left_iff.mp h' ▸ .nil
  | cons hR _ ih =>
    cases h' with
    | cons hS h' => exact .cons ⟨_, hR, hS⟩ (ih h')

theorem filterMap_eq_of_forall₂ {α β γ : Type} {f : α → Option γ} {g : β → Option γ} {as : List α} {bs : List β}
    (h : Forall₂ (fun a b => f a = g b) as bs) : as.filterMap f = bs.filterMap g := by
  induction h with
  | nil => rfl
  | cons hab _ ih => rw [filterMap_cons, filterMap_cons, hab, ih]

namespace StreamItem

/-- An element of a stream as it is written in the end: a call has the id of its record, and a slot has
another state. -/
inductive Becomes : StreamItem → StreamItem → Prop
  | same (item : StreamItem) : Becomes item item
  | call {v : VarRead Expr} {name : String} {id : Int} (h : v.param = some (.record name id)) (id' : Int) :
      Becomes (.operand (.var v)) (.operand (.var { v with param := some (.record name id') }))
  | store (kept kept' : Slot) : Becomes (.operand (.store kept)) (.operand (.store kept'))
  | load (kept kept' : Slot) : Becomes (.operand (.load kept)) (.operand (.load kept'))

/-- An element of a stream whose call has been bound. -/
inductive BoundAs : StreamItem → StreamItem → Prop
  | call {v : VarRead Expr} {name : String} {id id' : Int} (hparam : v.param = some (.record name id))
      (hid : 0 ≤ id') : BoundAs (.operand (.var v)) (.operand (.var { v with param := some (.record name id') }))
  | same {item : StreamItem} (h : ∀ v name id, item = .operand (.var v) → v.num = VarRead.procedureNum →
      v.param ≠ some (.record name id)) : BoundAs item item

/-- A store gets a register, and any other element of a stream stays what it is. -/
inductive StoredAs : StreamItem → StreamItem × Option (Nat × Int) → Prop
  | spill (n : Nat) (register : Int) :
      StoredAs (.operand (.store (.spill n))) (.operand (.store (.register register)), some (n, register))
  | unassigned (register : Int) :
      StoredAs (.operand (.store .unassigned)) (.operand (.store (.register register)), none)
  | same {item : StreamItem} (h : ∀ slot, item = .operand (.store slot) → ∃ register, slot = .register register) :
      StoredAs item (item, none)

variable {item item' : StreamItem}

theorem Becomes.cells (h : item.Becomes item') (width : Int) : item.cells width = item'.cells width := by
  cases h with
  | call h id' =>
    simp only [StreamItem.cells, Expr.cells_read, h]
    rfl
  | _ => rfl

theorem BoundAs.becomes (h : item.BoundAs item') : item.Becomes item' := by
  cases h with
  | call hparam _ => exact .call hparam _
  | same => exact .same _

theorem StoredAs.becomes {x : StreamItem × Option (Nat × Int)} (h : item.StoredAs x) (registers : List (Nat × Int)) :
    item.Becomes (Lowering.assignLoad registers x.1) := by
  cases h with
  | spill | unassigned => exact .store ..
  | same =>
    dsimp only
    unfold Lowering.assignLoad
    split
    · split <;> exact .load ..
    · exact .same _

end StreamItem

namespace Record

/-- A record whose references have been bound. -/
inductive BoundAs : Record → Record → Prop
  | table {pos : Position} {t : TableRecord} {stream : List StreamItem} {ranges : List TableRange}
      {default : TableResult} (hstream : Forall₂ StreamItem.BoundAs t.stream stream)
      (hranges : Forall₂ (fun _ range => range.result.IsBound) t.ranges ranges) (hdefault : default.IsBound) :
      BoundAs ⟨pos, .decisionTable t⟩ ⟨pos, .decisionTable { t with stream, ranges, default }⟩
  | graphics {pos : Position} {t : GraphicsRecord} {cargo : List (Int × GraphicsRef)} {id : Int}
      (hcargo : ∀ x ∈ cargo, 0 ≤ x.2.id) (hid : 0 ≤ id) :
      BoundAs ⟨pos, .graphicsTable t⟩ ⟨pos, .graphicsTable { t with cargo, default := { t.default with id } }⟩
  | same {R : Record} (htable : ∀ t, R.body ≠ .decisionTable t) (hgraphics : ∀ t, R.body ≠ .graphicsTable t) :
      BoundAs R R

/-- A record whose slots have got registers. -/
inductive PreparedAs : Record → Record → Prop
  | table {pos : Position} {t : TableRecord} {stores : List (StreamItem × Option (Nat × Int))}
      (h : Forall₂ StreamItem.StoredAs t.stream stores) :
      PreparedAs ⟨pos, .decisionTable t⟩ ⟨pos, .decisionTable { t with
        stream := stores.map fun x => Lowering.assignLoad (stores.filterMap (·.2)) x.1 }⟩
  | same {R : Record} (h : ∀ t, R.body ≠ .decisionTable t) : PreparedAs R R

end Record

theorem Context.registry_foldl (register : Nat) (nodes : List Nat) (c : Context) :
    (nodes.foldl (fun c node => c.reserveScratch register node) c).registry = c.registry := by
  induction nodes generalizing c with
  | nil => rfl
  | cons node nodes ih => exact ih _

/-! ## Binding and the graph -/

/-- Two registries with the same references between their definitions. -/
structure Registry.SameGraph (r r' : Registry) : Prop where
  edges : r'.graph.edges = r.graph.edges
  size : r'.size = r.size

namespace Registry.SameGraph

variable {r r' : Registry} {node : Nat} {d : Definition} {pos : Position}

theorem refl (r : Registry) : r.SameGraph r := ⟨rfl, rfl⟩

theorem trans {s : Registry} (h : r.SameGraph s) (h' : s.SameGraph r') : r.SameGraph r' :=
  ⟨h'.edges.trans h.edges, h'.size.trans h.size⟩

theorem modify (r : Registry) (node : Nat) (f : Definition → Definition) : r.SameGraph (r.modify node f) :=
  ⟨rfl, Array.size_modify⟩

theorem release (h : r.release node d = .ok r') : r.SameGraph r' := by
  unfold Registry.release at h
  split_ifs at h
  · cases h
    exact refl r
  · dsimp only at h
    split at h
    · cases h
      exact (modify r node _).trans ⟨rfl, rfl⟩
    · cases h

theorem removeRef (h : r.removeRef node d = .ok r') : r.SameGraph r' := by
  grind [Registry.removeRef, modify, trans, release]

theorem bindRef {name : String} {id : Int} (h : r.bindRef name pos = .ok (id, r')) : r.SameGraph r' ∧ 0 ≤ id := by
  obtain ⟨⟨node, d⟩, -, h⟩ := except_bind_eq_ok h
  obtain ⟨r₁, hremove, ⟨⟩⟩ := except_bind_eq_ok h
  grind [removeRef, Registry.removeRef, Definition.isBound]

theorem bind {id : Int} (h : r.bind node pos = .ok (id, r')) : r.SameGraph r' := by
  unfold Registry.bind at h
  split at h
  · cases h
  rename_i d _
  split_ifs at h
  obtain ⟨⟨id, pool⟩, -, h⟩ := except_bind_eq_ok h
  have hbound : r.SameGraph ((r.setIdPool d.feature pool).modify node fun _ => { d with id }) :=
    trans (s := r.setIdPool d.feature pool) ⟨rfl, rfl⟩ (modify _ node _)
  dsimp only at h
  split_ifs at h
  · obtain ⟨r₁, hrelease, ⟨⟩⟩ := except_bind_eq_ok h
    exact hbound.trans (release hrelease)
  · cases h
    exact hbound

end Registry.SameGraph

namespace Lowering

open Registry

variable {α β : Type} {pos : Position} {rs out : List Record} {c c' : Context}

/-- The lowering `m` leaves the graph of references as it is, and its result has the property `q`. -/
def KeepsGraph (m : Lowering α) (q : α → Prop) : Prop := Relates m fun r a r' => r.SameGraph r' ∧ q a

namespace KeepsGraph

variable {q : α → Prop} {q' : β → Prop}

theorem pure {a : α} (h : q a) : KeepsGraph (pure a) q := Relates.pure fun r => ⟨.refl r, h⟩

theorem bind {m : Lowering α} {f : α → Lowering β} (hm : KeepsGraph m q) (hf : ∀ a, q a → KeepsGraph (f a) q') :
    KeepsGraph (m >>= f) q' := by
  intro c b c' hok
  obtain ⟨a, d, ha, hb⟩ := bind_eq_ok.mp hok
  obtain ⟨hscratch, hgraph, hq⟩ := hm c a d ha
  obtain ⟨hscratch', hgraph', hq'⟩ := hf a hq d b c' hb
  exact ⟨hscratch'.trans hscratch, hgraph.trans hgraph', hq'⟩

theorem mapM {f : α → Lowering β} {T : α → β → Prop} (hf : ∀ a, KeepsGraph (f a) (T a)) (as : List α) :
    KeepsGraph (as.mapM f) (Forall₂ T as) := by
  induction as with
  | nil => exact .pure .nil
  | cons a as ih =>
    rw [List.mapM_cons]
    exact (hf a).bind fun b hb => ih.bind fun bs hbs => .pure (.cons hb hbs)

end KeepsGraph

theorem bindRef_keepsGraph {name : String} : KeepsGraph (bindRef name pos) (0 ≤ ·) := by
  intro c id c' h
  obtain ⟨⟨id, registry⟩, hbind, h⟩ := lift_bind_eq_ok.mp h
  obtain ⟨rfl, rfl⟩ := pure_eq_ok.mp h
  exact ⟨rfl, SameGraph.bindRef hbind⟩

theorem bind_keepsGraph {node : Nat} : KeepsGraph (bind node pos) fun _ => True := by
  intro c id c' h
  obtain ⟨⟨id, registry⟩, hbind, h⟩ := lift_bind_eq_ok.mp h
  replace h := modify_bind_eq_ok.mp h
  have hgraph := SameGraph.bind hbind
  -- what is noted in the log makes no difference
  generalize c.registry.get? node = found at h
  cases found with
  | none =>
    obtain ⟨rfl, rfl⟩ := pure_eq_ok.mp h
    exact ⟨rfl, hgraph, trivial⟩
  | some found =>
    dsimp only at h
    split_ifs at h
    · obtain ⟨_, d', hlog, h⟩ := bind_eq_ok.mp h
      obtain ⟨hreg, hscratch, -⟩ := Detached.step log_program _ _ _ hlog
      obtain ⟨rfl, rfl⟩ := pure_eq_ok.mp h
      exact ⟨hscratch, hreg ▸ hgraph, trivial⟩
    · obtain ⟨rfl, rfl⟩ := pure_eq_ok.mp h
      exact ⟨rfl, hgraph, trivial⟩

theorem bindItem_boundAs (item : StreamItem) : KeepsGraph (bindItem pos item) item.BoundAs := by
  unfold bindItem
  split
  · split
    · rename_i hnum
      refine .pure (.same ?_)
      grind
    · split
      · rename_i hparam
        exact bindRef_keepsGraph.bind fun _ hid => .pure (.call hparam hid)
      · rename_i hother
        refine .pure (.same ?_)
        grind
  · rename_i hvar
    exact .pure (.same fun v _ _ hv => absurd hv (hvar v))

theorem bindResult_isBound (result : TableResult) : KeepsGraph (bindResult pos result) TableResult.IsBound := by
  cases result with
  | callback value => exact .pure trivial
  | ref name id => exact bindRef_keepsGraph.bind fun _ hid => .pure hid

theorem bindRecord_boundAs (R : Record) : KeepsGraph (bindRecord R) R.BoundAs := by
  obtain ⟨pos, body⟩ := R
  cases body with
  | decisionTable t =>
    refine (KeepsGraph.mapM bindItem_boundAs t.stream).bind fun stream hstream => ?_
    refine KeepsGraph.bind (.mapM (T := fun _ (range : TableRange) => range.result.IsBound) (fun range => ?_) t.ranges)
      fun ranges hranges => ?_
    · exact (bindResult_isBound range.result).bind fun _ h => .pure h
    · exact (bindResult_isBound t.default).bind fun default hdefault => bind_keepsGraph.bind fun _ _ =>
        .pure (.table hstream hranges hdefault)
  | spriteGroup g => exact bind_keepsGraph.bind fun _ _ => .pure (.same (by simp) (by simp))
  | graphicsTable t =>
    refine (KeepsGraph.mapM (T := fun _ x => 0 ≤ x.2.id) (fun entry => bindRef_keepsGraph.bind fun _ hid =>
      .pure hid) t.cargo).bind fun cargo hcargo => bindRef_keepsGraph.bind fun _ hid => .pure (.graphics ?_ hid)
    intro x hx
    obtain ⟨_, _, hid⟩ := exists_left_of_forall₂ hcargo hx
    exact hid
  | _ => exact .pure (.same (by simp) (by simp))

/-! ## Registers -/

theorem reserveRegister_cases (c : Context) (v : Nat) (name : String) (pos : Position) :
    (c.availableScratch v = [] ∧ ∃ message,
      reserveRegister v name pos c = .error (.compile .resourceExhausted pos message) c) ∨
    ∃ (register : Nat) (rest : List Nat), c.availableScratch v = register :: rest ∧
      reserveRegister v name pos c = .ok (register : Int) ((v :: c.registry.graph.connected v).foldl
        (fun c node => c.reserveScratch register node) c) := by
  have hget (f : Context → Lowering Int) : (MonadState.get >>= f) c = f c c := rfl
  rw [reserveRegister, hget]
  cases c.availableScratch v with
  | nil => exact .inl ⟨rfl, _, rfl⟩
  | cons register rest => exact .inr ⟨register, rest, rfl, rfl⟩

theorem prepareRecord_table (pos : Position) (t : TableRecord) : prepareRecord ⟨pos, .decisionTable t⟩ = (do
      let stores ← t.stream.mapM (assignStore t.node t.name pos)
      return ⟨pos, .decisionTable { t with
        stream := stores.map fun x => assignLoad (stores.filterMap (·.2)) x.1 }⟩) := by
  simp only [prepareRecord, assignRegisters, bind_assoc, pure_bind]

theorem assignStore_storedAs (v : Nat) (name : String) (pos : Position) (item : StreamItem) (c : Context) :
    OrExhausted (assignStore v name pos item) c fun x c' => item.StoredAs x ∧ c'.registry = c.registry := by
  have hreserve : OrExhausted (reserveRegister v name pos) c fun _ c' => c'.registry = c.registry := by
    rcases reserveRegister_cases c v name pos with ⟨-, message, herror⟩ | ⟨register, rest, -, hok⟩
    · exact .inr ⟨pos, message, c, herror⟩
    · exact .ok hok (Context.registry_foldl ..)
  unfold assignStore
  split
  · exact hreserve.bind fun register c' hc' => .ok rfl ⟨.spill .., hc'⟩
  · exact hreserve.bind fun register c' hc' => .ok rfl ⟨.unassigned _, hc'⟩
  · rename_i hspill hunassigned
    refine .ok rfl ⟨.same ?_, rfl⟩
    rintro (_ | _ | _) rfl
    all_goals first | exact ⟨_, rfl⟩ | exact absurd rfl hunassigned | exact absurd rfl (hspill _)

theorem prepareRecord_preparedAs (R : Record) (c : Context) :
    OrExhausted (prepareRecord R) c fun R' c' => R.PreparedAs R' ∧ c'.registry = c.registry := by
  obtain ⟨pos, body⟩ := R
  cases body with
  | decisionTable t =>
    have hstores : OrExhausted (t.stream.mapM (assignStore t.node t.name pos)) c fun stores c' =>
        Forall₂ StreamItem.StoredAs t.stream stores ∧ c'.registry = c.registry :=
      .mapM t.stream (fun item d hd => hd ▸ assignStore_storedAs t.node t.name pos item d) rfl
    rw [prepareRecord_table]
    exact hstores.bind fun stores c' h => .ok rfl ⟨.table h.1, h.2⟩
  | _ => exact .ok rfl ⟨.same (by simp), rfl⟩

/-! ## All records -/

/-- The records `rs` reach the last pass as the records `bound`: there is no cycle, and all
references have been bound. -/
structure Reaches (rs : List Record) (c : Context) (bound : List Record) (c₁ : Context) : Prop where
  cycles : c.registry.checkCycles = .ok ()
  bind : rs.mapM bindRecord c = .ok bound c₁
  counts : c₁.registry.definitions.find? (·.refCount ≠ 0) = none

def prepareAll (bound : List Record) : Lowering (List Record) := do
  let prepared ← bound.reverse.mapM prepareRecord
  let registry := (← get).registry
  return prepared.reverse.map (·.withId registry)

theorem run_lift_ok {α β : Type} {x : Except Failure α} {f : α → Lowering β} {a : α} (h : x = .ok a) :
    (lift x >>= f) c = f a c := by
  rw [h]
  rfl

theorem Reaches.finalize_eq {bound : List Record} {c₁ : Context} (h : Reaches rs c bound c₁) :
    finalize rs c = prepareAll bound c₁ := by
  refine (run_lift_ok h.cycles).trans ((bind_of_ok h.bind).trans ((bind_of_ok (m := get) rfl).trans ?_))
  rw [h.counts]
  rfl

theorem Reaches.of_ok {out : List Record} (h : finalize rs c = .ok out c') :
    ∃ bound c₁, Reaches rs c bound c₁ ∧ prepareAll bound c₁ = .ok out c' := by
  obtain ⟨_, hcycles, h⟩ := lift_bind_eq_ok.mp h
  obtain ⟨bound, c₁, hbind, h⟩ := bind_eq_ok.mp h
  replace h := get_bind_eq_ok.mp h
  cases hfind : c₁.registry.definitions.find? (·.refCount ≠ 0) with
  | none =>
    have hreaches : Reaches rs c bound c₁ := ⟨hcycles, hbind, hfind⟩
    rw [hfind] at h
    exact ⟨bound, c₁, hreaches, h⟩
  | some e =>
    rw [hfind] at h
    obtain ⟨_, _, hthrow, -⟩ := bind_eq_ok.mp h
    exact (throw_eq_ok.mp hthrow).elim

theorem prepareAll_preparedAs (bound : List Record) (c : Context) :
    OrExhausted (prepareAll bound) c fun out c' => c'.registry = c.registry ∧
      ∃ prepared, Forall₂ Record.PreparedAs bound prepared ∧ out = prepared.map (·.withId c.registry) := by
  have hprepare : OrExhausted (bound.reverse.mapM prepareRecord) c fun prepared c' =>
      Forall₂ Record.PreparedAs bound.reverse prepared ∧ c'.registry = c.registry :=
    .mapM bound.reverse (fun R d hd => hd ▸ prepareRecord_preparedAs R d) rfl
  refine hprepare.bind fun prepared c' h => .ok rfl ⟨h.2, prepared.reverse, ?_, ?_⟩
  · rw [← forall₂_reverse_iff, reverse_reverse]
    exact h.1
  · rw [h.2]

/-- **The records of the output** are bound, prepared, and have the ids of their definitions. -/
theorem finalize_shapes (h : finalize rs c = .ok out c') : Forall₂ (fun R R' =>
    ∃ B, R.BoundAs B ∧ ∃ P r, B.PreparedAs P ∧ R' = Record.withId P r) rs out := by
  obtain ⟨bound, c₁, hreaches, hok⟩ := Reaches.of_ok h
  have hbound := (KeepsGraph.mapM bindRecord_boundAs rs c bound c₁ hreaches.bind).2.2
  obtain ⟨-, prepared, hprepared, rfl⟩ := (prepareAll_preparedAs bound c₁).of_ok hok
  refine forall₂_trans hbound (forall₂_map_right_iff.mpr (hprepared.imp fun _ P h => ?_))
  exact ⟨P, _, h, rfl⟩

end Lowering

end Grf
