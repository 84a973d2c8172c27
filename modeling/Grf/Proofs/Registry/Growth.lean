import Mathlib.Data.List.Count
import Grf.Proofs.Graph.Order
import Grf.Proofs.Record.Layout
import Grf.Proofs.Registry.Binding

/-! # Growing registries

Definitions and references are only ever added while declarations are lowered (`Grows`). `Defined` and `Referred` are
the two ways to grow. The cycles that lowering can make have one or two edges (`ShortCycle`). `Written` is the state of
a registry in terms of the steps that binding the records will take. Some definitions may be pending, and some
references owed: their records are not there yet.
-/

namespace Grf.Registry

open List

variable {r r' r'' : Registry} {n m : Nat} {name : String} {feature : Int} {pos : Position}

def Unique (r : Registry) : Prop := ∀ n < r.size, ∀ m < r.size, r.nameOf n = r.nameOf m → n = m

theorem Exact.unique (h : r.Exact) : r.Unique := by
  intro n hn m hm hname
  have hfound := h n hn
  rw [hname, h m hm] at hfound
  exact (Option.some.inj hfound).symm

/-- No definition has got an id. -/
structure Unbound (r : Registry) : Prop where
  id : ∀ n < r.size, (r.entry n).id < 0
  released : ∀ n < r.size, (r.entry n).released = false
  idPools : r.idPools = []

theorem unbound_empty : Unbound {} where
  id _ hn := nomatch hn
  released _ hn := nomatch hn
  idPools := rfl

/-- Two definitions that refer to each other, or one that refers to itself. -/
def ShortCycle (r : Registry) : Prop := ∃ v w, r.graph.Edge v w ∧ (w = v ∨ r.graph.Edge w v)

theorem ShortCycle.not_acyclic (h : r.ShortCycle) : ¬r.graph.Acyclic := by
  obtain ⟨v, w, hvw, rfl | hwv⟩ := h
  · exact fun hacyclic => hacyclic w (.single hvw)
  · exact fun hacyclic => hacyclic v (.tail (.single hvw) hwv)

/-! ## What stays -/

/-- The registry `r'` has all definitions and references of `r`. -/
structure Grows (r r' : Registry) : Prop where
  size : r.size ≤ r'.size
  name : ∀ n < r.size, (r'.entry n).name = (r.entry n).name
  feature : ∀ n < r.size, (r'.entry n).feature = (r.entry n).feature
  edges : ∀ v w, r.graph.Edge v w → r'.graph.Edge v w
  closed : r.graph.Closed → r'.graph.Closed
  unbound : r.Unbound → r'.Unbound

variable {nodes targets : List Nat} {t : Nat} {source : Option Nat}

namespace Grows

theorem refl (r : Registry) : r.Grows r := ⟨Nat.le_refl _, fun _ _ => rfl, fun _ _ => rfl, fun _ _ h => h, id, id⟩

variable (h : r.Grows r')
include h

theorem trans (h' : r'.Grows r'') : r.Grows r'' where
  size := Nat.le_trans h.size h'.size
  name n hn := (h'.name n (Nat.lt_of_lt_of_le hn h.size)).trans (h.name n hn)
  feature n hn := (h'.feature n (Nat.lt_of_lt_of_le hn h.size)).trans (h.feature n hn)
  edges v w hvw := h'.edges v w (h.edges v w hvw)
  closed hr := h'.closed (h.closed hr)
  unbound hr := h'.unbound (h.unbound hr)

theorem nameOf (hn : n < r.size) : r'.nameOf n = r.nameOf n := by
  rw [nameOf_of_lt hn, nameOf_of_lt (Nat.lt_of_lt_of_le hn h.size), h.name n hn]

theorem map_nameOf (hnodes : ∀ n ∈ nodes, n < r.size) : nodes.map r'.nameOf = nodes.map r.nameOf :=
  map_congr_left fun n hn => h.nameOf (hnodes n hn)

theorem unique (h' : r'.Unique) : r.Unique := by
  intro n hn m hm hname
  refine h' n (Nat.lt_of_lt_of_le hn h.size) m (Nat.lt_of_lt_of_le hm h.size) ?_
  rw [h.nameOf hn, h.nameOf hm, hname]

theorem shortCycle (hr : r.ShortCycle) : r'.ShortCycle := by
  obtain ⟨v, w, hvw, hback⟩ := hr
  exact ⟨v, w, h.edges v w hvw, hback.imp_right (h.edges w v)⟩

end Grows

/-- The registry `r'` has one definition more than `r`, its last one. -/
structure Defined (r : Registry) (name : String) (feature : Int) (r' : Registry) : Prop where
  grows : r.Grows r'
  size : r'.size = r.size + 1
  name : r'.nameOf r.size = name
  feature : (r'.entry r.size).feature = feature
  refCount : ∀ n, (r'.entry n).refCount = (r.entry n).refCount

theorem entry_of_not_lt (h : ¬n < r.size) : r.entry n = default := by
  unfold entry get?
  rw [Array.getElem?_eq_none (Nat.not_lt.mp h)]
  rfl

theorem define_eq_ok {node : Nat} (h : r.define name feature pos = .ok (node, r')) :
    node = r.size ∧ r.Defined name feature r' := by
  unfold define at h
  split at h
  · cases h
  · obtain ⟨rfl, rfl⟩ := Prod.mk.inj (Except.ok.inj h)
    refine ⟨rfl, ?_⟩
    generalize r.index.insertIdxIfInBounds _ _ = index
    let d : Definition := { name, feature, pos }
    let r' : Registry := { r with graph := { r.graph with data := r.graph.data.push d }, index }
    show r.Defined name feature r'
    have hsize : r'.size = r.size + 1 := Array.size_push _
    have hlast : r'.get? r.size = some d := Array.getElem?_push_size
    have hold : ∀ n, n ≠ r.size → r'.entry n = r.entry n := by
      intro n hn
      show ((r.graph.data.push d)[n]?).getD default = _
      rw [Array.getElem?_push, if_neg (show n ≠ r.graph.data.size from hn)]
      rfl
    have hlast' := entry_eq hlast
    -- a property of definitions that the old ones and the new one have
    have hall : ∀ P : Definition → Prop, P d → (∀ n < r.size, P (r.entry n)) → ∀ n < r'.size, P (r'.entry n) := by
      intro P hd hr n hn
      by_cases hne : n = r.size
      · rwa [hne, hlast']
      · rw [hold n hne]
        exact hr n (by omega)
    refine ⟨⟨by omega, fun n hn => ?_, fun n hn => ?_, fun v w hvw => hvw, fun hr e he => ?_, fun hr => ?_⟩,
      hsize, ?_, ?_, fun n => ?_⟩
    · rw [hold n (Nat.ne_of_lt hn)]
    · rw [hold n (Nat.ne_of_lt hn)]
    · obtain ⟨hv, hw⟩ := hr e he
      have hsize' : r'.graph.data.size = r.graph.data.size + 1 := hsize
      exact ⟨by omega, by omega⟩
    · exact ⟨hall (fun d => d.id < 0) (show (-1 : Int) < 0 by decide) hr.id,
        hall (fun d => d.released = false) rfl hr.released,
        hr.idPools⟩
    · exact nameOf_eq hlast
    · rw [hlast']
    · by_cases hn : n = r.size
      · rw [hn, hlast', entry_of_not_lt (Nat.lt_irrefl r.size)]
        rfl
      · rw [hold n hn]

/-! ## New references -/

/-- The registry `r'` has references to `targets` more than `r`, all of one feature and from
`source`, if the record that refers to them has a name. -/
structure Referred (source : Option Nat) (feature : Int) (r : Registry) (targets : List Nat)
    (r' : Registry) : Prop where
  grows : r.Grows r'
  size : r'.size = r.size
  lt_size : ∀ t ∈ targets, t < r.size
  feature : ∀ t ∈ targets, (r.entry t).feature = feature
  edge : ∀ s ∈ source, ∀ t ∈ targets, r'.graph.Edge s t
  refCount : ∀ n, (r'.entry n).refCount = (r.entry n).refCount + targets.count n

namespace Referred

variable {source : Option Nat} {targets targets' : List Nat}

theorem refl (r : Registry) : Referred source feature r [] r where
  grows := .refl r
  size := rfl
  lt_size _ ht := nomatch ht
  feature _ ht := nomatch ht
  edge _ _ _ ht := nomatch ht
  refCount _ := rfl

theorem trans (h : Referred source feature r targets r') (h' : Referred source feature r' targets' r'') :
    Referred source feature r (targets ++ targets') r'' where
  grows := h.grows.trans h'.grows
  size := h'.size.trans h.size
  lt_size := forall_mem_append.mpr ⟨h.lt_size, fun t ht => h.size ▸ h'.lt_size t ht⟩
  feature := forall_mem_append.mpr ⟨h.feature, fun t ht =>
    (h.grows.feature t (h.size ▸ h'.lt_size t ht)).symm.trans (h'.feature t ht)⟩
  edge s hs := forall_mem_append.mpr ⟨fun t ht => h'.grows.edges s t (h.edge s hs t ht), h'.edge s hs⟩
  refCount n := by
    rw [h'.refCount, h.refCount, count_append]
    omega

theorem perm (h : Referred source feature r targets r') (hperm : targets.Perm targets') :
    Referred source feature r targets' r' where
  grows := h.grows
  size := h.size
  lt_size t ht := h.lt_size t (hperm.mem_iff.mpr ht)
  feature t ht := h.feature t (hperm.mem_iff.mpr ht)
  edge s hs t ht := h.edge s hs t (hperm.mem_iff.mpr ht)
  refCount n := by rw [h.refCount, hperm.count_eq]

end Referred

theorem referred_modify (ht : t < r.size) (hfeature : (r.entry t).feature = feature) : Referred none feature r [t]
      (r.modify t fun d => { d with refCount := d.refCount + 1, totalRefs := d.totalRefs + 1 }) := by
  generalize hf : (fun d : Definition => { d with refCount := d.refCount + 1, totalRefs := d.totalRefs + 1 }) = f
  have hentry := entry_modify ht f
  have hsize := size_modify r t f
  -- what the change does not touch
  have hkeeps : ∀ {α : Type} (field : Definition → α), (∀ d, field (f d) = field d) → ∀ n,
      field ((r.modify t f).entry n) = field (r.entry n) := by
    grind
  have hname := hkeeps (·.name) (by simp [← hf])
  have hfeat := hkeeps (·.feature) (by simp [← hf])
  have hid := hkeeps (·.id) (by simp [← hf])
  have hreleased := hkeeps (·.released) (by simp [← hf])
  refine ⟨⟨Nat.le_of_eq hsize.symm, fun n _ => hname n, fun n _ => hfeat n, fun _ _ h => h,
    fun hr e he => ?_, fun hr => ?_⟩, hsize, ?_, ?_, by simp, fun n => ?_⟩
  · rw [show (r.modify t f).graph.data.size = r.graph.data.size from hsize]
    exact hr e he
  · exact ⟨fun n hn => by simpa only [hid] using hr.id n (hsize ▸ hn),
      fun n hn => by simpa only [hreleased] using hr.released n (hsize ▸ hn), hr.idPools⟩
  · simpa using ht
  · simpa using hfeature
  · rw [hentry, count_singleton]
    by_cases hn : n = t
    · subst hn
      simp [← hf]
    · simp [hn, Ne.symm hn]

theorem Referred.insertEdge {s : Nat} (h : Referred none feature r targets r')
    (htargets : ∀ t' ∈ targets, t' = t) (ht : t < r.size) (hs : s < r.size) :
    Referred (some s) feature r targets { r' with graph := r'.graph.insertEdge s t } := by
  have hmem : ∀ v w, (r'.graph.insertEdge s t).Edge v w ↔ _ := fun v w => Graph.edge_insertEdge
  have hdata := r'.graph.data_insertEdge s t
  generalize hr₁ : ({ r' with graph := r'.graph.insertEdge s t } : Registry) = r₁
  have hgraph : r₁.graph = r'.graph.insertEdge s t := hr₁ ▸ rfl
  have hentry : ∀ n, r₁.entry n = r'.entry n := by
    intro n
    unfold entry get?
    rw [hgraph, hdata]
  have hsize : r₁.graph.data.size = r'.graph.data.size := by rw [hgraph, hdata]
  rw [← hgraph] at hmem
  refine ⟨⟨?_, fun n hn => ?_, fun n hn => ?_, fun v w hvw => ?_, fun hr e he => ?_, fun hr => ?_⟩, ?_,
    h.lt_size, h.feature, fun s' hs' t' ht' => ?_, fun n => ?_⟩
  · exact Nat.le_trans h.grows.size (Nat.le_of_eq hsize.symm)
  · rw [hentry, h.grows.name n hn]
  · rw [hentry, h.grows.feature n hn]
  · exact (hmem v w).mpr (.inl (h.grows.edges v w hvw))
  · rw [hsize]
    rcases (hmem e.1 e.2).mp (Graph.edge_iff_mem.mpr he) with hold | ⟨h1, h2⟩
    · exact h.grows.closed hr e (Graph.edge_iff_mem.mp hold)
    · rw [h1, h2]
      have hsize' : r'.graph.data.size = r.size := h.size
      exact ⟨hsize' ▸ hs, hsize' ▸ ht⟩
  · have hr' := h.grows.unbound hr
    refine ⟨fun n hn => ?_, fun n hn => ?_, hr₁ ▸ hr'.idPools⟩
    · rw [hentry]
      exact hr'.id n (Nat.lt_of_lt_of_eq hn hsize)
    · rw [hentry]
      exact hr'.released n (Nat.lt_of_lt_of_eq hn hsize)
  · exact hsize.trans h.size
  · obtain rfl := Option.some.inj hs'
    exact (hmem _ _).mpr (.inr ⟨rfl, htargets t' ht'⟩)
  · rw [hentry, h.refCount]

theorem addRef_eq_ok (h : r.addRef source name feature pos = .ok (t, r'))
    (hsource : ∀ s ∈ source, s < r.size) : r.nameOf t = name ∧ Referred source feature r [t] r' := by
  obtain ⟨⟨t', d⟩, hfind, h⟩ := except_bind_eq_ok h
  obtain ⟨hget, rfl⟩ := of_find_eq_ok hfind
  change (if d.feature ≠ feature then _ else _) = _ at h
  split_ifs at h with hfeature
  · cases h
  · have ht := lt_size_of_get? hget
    have hreferred := referred_modify ht ((congrArg _ (entry_eq hget)).trans (not_not.mp hfeature))
    cases source with
    | none =>
      obtain ⟨rfl, rfl⟩ := Prod.mk.inj (Except.ok.inj h)
      exact ⟨nameOf_eq hget, hreferred⟩
    | some s =>
      obtain ⟨rfl, rfl⟩ := Prod.mk.inj (Except.ok.inj h)
      exact ⟨nameOf_eq hget, hreferred.insertEdge (by simp) ht (hsource s rfl)⟩

/-! ## The steps that lowering prepares -/

open BindStep

/-- A registry and the `steps` that bind the records made so far. The definitions `pending` have no
record yet, and neither have the references to `owed`. -/
structure Written (r : Registry) (steps : List BindStep) (pending owed : List Nat) : Prop where
  unbound : r.Unbound
  closed : r.graph.Closed
  binds : (binds steps ++ pending).Perm (List.range r.size)
  refCount : ∀ n, (r.entry n).refCount = steps.count (.use n) + owed.count n
  ordered : r.Unique → r.ShortCycle ∨ Ordered (fun _ => False) steps

theorem written_empty : Written {} [] [] [] where
  unbound := unbound_empty
  closed _ he := nomatch he
  binds := .nil
  refCount _ := rfl
  ordered _ := .inr trivial

namespace Written

variable {steps : List BindStep} {pending owed : List Nat}

section
variable (h : r.Written steps pending owed)
include h

theorem ordered_of_grows (hgrows : r.Grows r') (hunique : r'.Unique) : r'.ShortCycle ∨ Ordered (fun _ => False) steps :=
  (h.ordered (hgrows.unique hunique)).imp_left hgrows.shortCycle

theorem define (hr : r.Defined name feature r') : r'.Written steps (pending ++ [r.size]) owed where
  unbound := hr.grows.unbound h.unbound
  closed := hr.grows.closed h.closed
  binds := by
    rw [hr.size, range_succ, ← append_assoc]
    exact h.binds.append_right _
  refCount n := (hr.refCount n).trans (h.refCount n)
  ordered := h.ordered_of_grows hr.grows

theorem refer (hr : Referred source feature r targets r') : r'.Written steps pending (owed ++ targets) where
  unbound := hr.grows.unbound h.unbound
  closed := hr.grows.closed h.closed
  binds := hr.size ▸ h.binds
  refCount n := by
    rw [hr.refCount, h.refCount, count_append]
    omega
  ordered := h.ordered_of_grows hr.grows

theorem perm_owed {owed' : List Nat} (hperm : owed.Perm owed') : r.Written steps pending owed' :=
  { h with refCount := fun n => by rw [h.refCount, hperm.count_eq] }

theorem bound_or_pending (hn : n < r.size) : .bind n ∈ steps ∨ n ∈ pending := by
  have hmem := h.binds.mem_iff.mpr (mem_range.mpr hn)
  exact (mem_append.mp hmem).imp_left mem_binds.mp

end

/-- The record of pending definitions, which refers to `targets`. Their own records have to be there. -/
theorem emit (h : r.Written steps (pending ++ nodes) (owed ++ targets))
    (htargets : r.Unique → r.ShortCycle ∨ ∀ t ∈ targets, .bind t ∈ steps) :
    r.Written (steps ++ (targets.map .use ++ nodes.map .bind)) pending owed where
  unbound := h.unbound
  closed := h.closed
  binds := by
    have hnew : BindStep.binds (targets.map .use ++ nodes.map .bind) = nodes := by
      simp [BindStep.binds, filterMap_append, filterMap_map]
    rw [binds_append, hnew, append_assoc]
    exact (Perm.append_left _ perm_append_comm).trans h.binds
  refCount n := by
    have huses : (targets.map BindStep.use).count (.use n) = targets.count n :=
      count_map_of_injective _ _ (fun _ _ => BindStep.use.inj) n
    have hbinds : (nodes.map BindStep.bind).count (.use n) = 0 := count_eq_zero.mpr (by simp)
    grind [h.refCount]
  ordered hunique := by
    rcases h.ordered hunique with hcycle | hsteps
    · exact .inl hcycle
    rcases htargets hunique with hcycle | hbound
    · exact .inl hcycle
    -- no definition is bound twice, as each occurs once among those of the registry
    have hnodup := h.binds.nodup_iff.mpr nodup_range
    rw [← append_assoc, nodup_append] at hnodup
    obtain ⟨-, hnodes, hdisjoint⟩ := hnodup
    refine .inr (ordered_append.mpr ⟨hsteps, ordered_append.mpr ⟨?_, ?_⟩⟩)
    · exact ordered_uses.mpr fun t ht => .inr (hbound t ht)
    · refine ordered_binds.mpr ⟨hnodes, fun n hn => ?_⟩
      rintro ((hfalse | hbind) | huse)
      · exact hfalse
      · exact hdisjoint n (mem_append_left _ (mem_binds.mpr hbind)) n hn rfl
      · simp at huse

end Written

end Grf.Registry
