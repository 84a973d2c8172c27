import Grf.Proofs.Pool.Partition
import Grf.Proofs.Registry.Lookup

/-! # Binding definitions and references

Binding goes through the records once. A definition takes an id from the pool of its feature, each reference is used up,
and the last one gives the id back. What happens is a list of `BindStep`s. `Bound` is the state of a registry between
two of them: the count of a definition is the number of its uses to come, and the ids in use are those of the
definitions that are bound and will be used again. Each step can be done (`Bound.use`, `Bound.bind`), unless there is
no id left, and no definition gets the id of one that will be used (`Bound.fresh`).
-/

namespace Grf

open List

/-- A step of binding: a reference to a definition is used up, or the definition gets its id. -/
inductive BindStep
  | use (node : Nat)
  | bind (node : Nat)
deriving DecidableEq

namespace BindStep

def binds (steps : List BindStep) : List Nat := steps.filterMap fun
    | .use _ => none
    | .bind node => some node

theorem mem_binds {steps : List BindStep} {n : Nat} : n ∈ binds steps ↔ .bind n ∈ steps := by
  unfold binds
  rw [mem_filterMap]
  constructor
  · rintro ⟨step, hstep, h⟩
    cases step with
    | use => cases h
    | bind m =>
      obtain rfl := Option.some.inj h
      exact hstep
  · exact fun h => ⟨.bind n, h, rfl⟩

@[simp] theorem binds_append (steps steps' : List BindStep) :
    binds (steps ++ steps') = binds steps ++ binds steps' := filterMap_append

@[simp] theorem binds_use (n : Nat) : binds [.use n] = [] := rfl

@[simp] theorem binds_bind (n : Nat) : binds [.bind n] = [n] := rfl

/-- Every definition is bound once, and before it is used, where those of `bound` have been bound
before. -/
def Ordered : (Nat → Prop) → List BindStep → Prop
  | _, [] => True
  | bound, .use n :: rest => bound n ∧ Ordered bound rest
  | bound, .bind n :: rest => ¬bound n ∧ Ordered (fun m => bound m ∨ m = n) rest

theorem ordered_append {bound : Nat → Prop} {steps steps' : List BindStep} :
    Ordered bound (steps ++ steps') ↔ Ordered bound steps ∧ Ordered (fun n => bound n ∨ .bind n ∈ steps) steps' := by
  induction steps generalizing bound with
  | nil => simp [Ordered]
  | cons step steps ih =>
    cases step with
    | use n => simp [Ordered, ih, and_assoc]
    | bind n => simp [Ordered, ih, and_assoc, or_assoc]

theorem ordered_uses {bound : Nat → Prop} {targets : List Nat} :
    Ordered bound (targets.map .use) ↔ ∀ t ∈ targets, bound t := by
  induction targets with
  | nil => simp [Ordered]
  | cons t targets ih => simp [Ordered, ih]

theorem ordered_binds {bound : Nat → Prop} {nodes : List Nat} :
    Ordered bound (nodes.map .bind) ↔ nodes.Nodup ∧ ∀ n ∈ nodes, ¬bound n := by
  induction nodes generalizing bound with
  | nil => simp [Ordered]
  | cons n nodes ih =>
    simp only [map_cons, Ordered, ih, nodup_cons, forall_mem_cons]
    constructor
    · rintro ⟨hn, hnodup, hrest⟩
      exact ⟨⟨fun hmem => hrest n hmem (.inr rfl), hnodup⟩, hn, fun m hm hb => hrest m hm (.inl hb)⟩
    · rintro ⟨⟨hmem, hnodup⟩, hn, hrest⟩
      refine ⟨hn, hnodup, fun m hm => ?_⟩
      rintro (hb | rfl)
      · exact hrest m hm hb
      · exact hmem hm

end BindStep

namespace Pool

variable {p : Pool} {held held' : Int → Prop} {id : Int}

def recordIds : List Int := idsFrom 0x00 0x100

theorem mem_recordIds : id ∈ recordIds ↔ 0 ≤ id ∧ id ≤ 0xFF := by
  unfold recordIds
  rw [mem_idsFrom]
  omega

/-- A pool of record ids in which the ids `held` are in use. -/
structure Holds (p : Pool) (held : Int → Prop) : Prop where
  frames : p.frames = []
  ids : ∃ ids, p.Balanced 0x00 0x100 ids ∧ ∀ id, id ∈ ids ↔ held id

namespace Holds

theorem congr (h : p.Holds held) (hheld : ∀ id, held id ↔ held' id) : p.Holds held' := by
  obtain ⟨hframes, ids, hids, hmem⟩ := h
  exact ⟨hframes, ids, hids, fun id => (hmem id).trans (hheld id)⟩

theorem release (h : p.Holds held) (hid : held id) :
    ∃ p', p.release id = .ok p' ∧ p'.Holds fun i => held i ∧ i ≠ id := by
  obtain ⟨hframes, ids, hids, hheld⟩ := h
  have hmem : id ∈ p.inUse := (hids.inUse id).mpr (mem_append_right _ ((hheld id).mpr hid))
  have hreleased := hids.release hmem (by simp [hframes])
  refine ⟨_, ?_, ?_, _, hreleased, fun i => ?_⟩
  · simp_all [Pool.release]
  · exact hframes
  · rw [hids.nodup_globals.mem_erase_iff, hheld, and_comm]

theorem popGlobal (h : p.Holds held) (pos : Position) : p.popGlobal pos = .error (p.exhausted pos) ∨
      ∃ id p', p.popGlobal pos = .ok (id, p') ∧ id ∈ recordIds ∧ ¬held id ∧ p'.Holds fun i => held i ∨ i = id := by
  obtain ⟨hframes, ids, hids, hheld⟩ := h
  cases hfree : p.free with
  | nil => exact .inl (by rw [Pool.popGlobal, hfree])
  | cons id free =>
    have hid : id ∈ p.free := by simp [hfree]
    have hfresh := hids.fresh id hid
    refine .inr ⟨id, _, popGlobal_of_cons hfree hfresh pos, ?_, ?_, hframes, _, hids.handOut hid, fun i => ?_⟩
    · exact hids.perm.mem_iff.mp (mem_append_left _ hid)
    · grind [hids.inUse]
    · rw [mem_cons, hheld, or_comm]

end Holds

end Pool

namespace Registry

variable {r r₀ : Registry} {n m : Nat}

/-! ## Changing definitions -/

def entry (r : Registry) (node : Nat) : Definition := (r.get? node).getD default

theorem get?_entry (h : n < r.size) : r.get? n = some (r.entry n) := by
  obtain ⟨d, hd⟩ := get?_of_lt h
  rw [entry, hd]
  rfl

theorem entry_eq {d : Definition} (h : r.get? n = some d) : r.entry n = d := by
  rw [entry, h]
  rfl

theorem nameOf_of_lt (h : n < r.size) : r.nameOf n = (r.entry n).name := nameOf_eq (get?_entry h)

@[simp] theorem size_modify (r : Registry) (n : Nat) (f : Definition → Definition) :
    (r.modify n f).size = r.size := Array.size_modify

theorem entry_modify (h : n < r.size) (f : Definition → Definition) (m : Nat) :
    (r.modify n f).entry m = if m = n then f (r.entry n) else r.entry m := by
  unfold entry get? Registry.modify
  rw [Array.getElem?_modify]
  by_cases hm : m = n
  · subst hm
    have hget := get?_entry h
    unfold get? at hget
    rw [if_pos rfl, if_pos rfl, hget]
    rfl
  · rw [if_neg (Ne.symm hm), if_neg hm]

theorem lookup_putPool (feature f : Int) (pool : Pool) (pools : List (Int × Pool)) :
    (putPool feature pool pools).lookup f = if f = feature then some pool else pools.lookup f := by
  induction pools with
  | nil => grind [putPool]
  | cons q rest ih =>
    obtain ⟨g, p⟩ := q
    unfold putPool
    by_cases hf : f = feature
    · subst hf
      rw [if_pos rfl] at ih ⊢
      grind
    · rw [if_neg hf] at ih ⊢
      grind

@[simp] theorem size_setIdPool (feature : Int) (pool : Pool) : (r.setIdPool feature pool).size = r.size := rfl

@[simp] theorem entry_setIdPool (feature : Int) (pool : Pool) : (r.setIdPool feature pool).entry n = r.entry n := rfl

theorem idPool_setIdPool (feature f : Int) (pool : Pool) :
    (r.setIdPool feature pool).idPool f = if f = feature then pool else r.idPool f := by
  unfold idPool setIdPool
  rw [lookup_putPool]
  split_ifs with hf
  · rfl
  · rfl

/-- `r'` has the definition `d` at `n` and is `r` otherwise, up to the pools. -/
structure Replaces (r : Registry) (n : Nat) (d : Definition) (r' : Registry) : Prop where
  index : r'.index = r.index
  edges : r'.graph.edges = r.graph.edges
  size : r'.size = r.size
  entry : ∀ m, r'.entry m = if m = n then d else r.entry m

namespace Replaces

variable {r' r'' : Registry} {d d' : Definition}

theorem modify (h : n < r.size) (f : Definition → Definition) : r.Replaces n (f (r.entry n)) (r.modify n f) :=
  ⟨rfl, rfl, size_modify r n f, entry_modify h f⟩

theorem refl (r : Registry) (n : Nat) : r.Replaces n (r.entry n) r := by
  refine ⟨rfl, rfl, rfl, fun m => ?_⟩
  split_ifs with hm
  · rw [hm]
  · rfl

theorem trans (h : r.Replaces n d r') (h' : r'.Replaces n d' r'') : r.Replaces n d' r'' where
  index := h'.index.trans h.index
  edges := h'.edges.trans h.edges
  size := h'.size.trans h.size
  entry m := by
    rw [h'.entry, h.entry]
    split_ifs with hm
    · rfl
    · rfl

theorem entry_self (h : r.Replaces n d r') : r'.entry n = d := by rw [h.entry, if_pos rfl]

theorem keeps {α : Type} (h : r.Replaces n d r') (field : Definition → α)
    (hd : field d = field (r.entry n)) (m : Nat) : field (r'.entry m) = field (r.entry m) := by
  rw [h.entry]
  split_ifs with hm
  · rw [hd, hm]
  · rfl

end Replaces

/-! ## Ids in use -/

/-- The pools have the ids of the `live` definitions in use, which are different within a feature. -/
structure Balanced (r : Registry) (live : Nat → Prop) : Prop where
  pools : ∀ f, (r.idPool f).Holds fun id => ∃ n < r.size, live n ∧ (r.entry n).feature = f ∧ (r.entry n).id = id
  distinct : ∀ n < r.size, ∀ m < r.size, live n → live m → (r.entry n).feature = (r.entry m).feature →
    (r.entry n).id = (r.entry m).id → n = m

namespace Balanced

variable {live live' : Nat → Prop}
variable (h : r.Balanced live)
include h

theorem congr (hlive : ∀ n < r.size, live n ↔ live' n) : r.Balanced live' where
  pools f := (h.pools f).congr fun id => by
    grind
  distinct n hn m hm hl hl' := h.distinct n hn m hm ((hlive n hn).mpr hl) ((hlive m hm).mpr hl')

theorem modify (hn : n < r.size) {f : Definition → Definition}
    (hfeature : (f (r.entry n)).feature = (r.entry n).feature) (hid : (f (r.entry n)).id = (r.entry n).id) :
    (r.modify n f).Balanced live := by
  have hfeatures := (Replaces.modify hn f).keeps Definition.feature hfeature
  have hids := (Replaces.modify hn f).keeps Definition.id hid
  constructor
  · intro g
    simp only [hfeatures, hids, size_modify]
    exact h.pools g
  · simp only [hfeatures, hids, size_modify]
    exact h.distinct

theorem release (hn : n < r.size) (hlive : live n) (hreleased : (r.entry n).released = false) :
    ∃ r', r.release n (r.entry n) = .ok r' ∧ r.Replaces n { r.entry n with released := true } r' ∧
      r'.Balanced fun m => live m ∧ m ≠ n := by
  have hmod := h.modify hn (f := fun d => { d with released := true }) rfl rfl
  obtain ⟨pool, hpool, hholds⟩ := (h.pools (r.entry n).feature).release ⟨n, hn, hlive, rfl, rfl⟩
  have hentry := entry_modify hn fun d => { d with released := true }
  refine ⟨(r.modify n fun d => { d with released := true }).setIdPool (r.entry n).feature pool, ?_,
    ⟨rfl, rfl, size_modify _ _ _, hentry⟩, ?_, ?_⟩
  · unfold Registry.release
    rw [if_neg (by simp [hreleased])]
    have hpool' : ((r.modify n fun d => { d with released := true }).idPool (r.entry n).feature).release
        (r.entry n).id = .ok pool := hpool
    dsimp only
    rw [hpool']
  · intro f
    rw [idPool_setIdPool]
    split_ifs with hf
    · -- the other live definitions of the feature have other ids
      subst hf
      refine hholds.congr fun id => ?_
      constructor
      · rintro ⟨⟨m, hm, hl, hf, rfl⟩, hne⟩
        have hmn : m ≠ n := fun heq => hne (heq ▸ rfl)
        refine ⟨m, by simpa using hm, ⟨hl, hmn⟩, ?_, ?_⟩
        · rw [entry_setIdPool, hentry, if_neg hmn, hf]
        · rw [entry_setIdPool, hentry, if_neg hmn]
      · rintro ⟨m, hm, ⟨hl, hmn⟩, hf, rfl⟩
        have hm' : m < r.size := by simpa using hm
        rw [entry_setIdPool, hentry, if_neg hmn] at hf ⊢
        exact ⟨⟨m, hm', hl, hf, rfl⟩, fun hid => hmn (h.distinct m hm' n hn hl hlive hf hid)⟩
    · refine (hmod.pools f).congr fun id => ?_
      constructor
      · rintro ⟨m, hm, hl, hmf, hid⟩
        refine ⟨m, hm, ⟨hl, fun hmn => hf ?_⟩, hmf, hid⟩
        simp_all
      · rintro ⟨m, hm, ⟨hl, -⟩, hmf, hid⟩
        exact ⟨m, hm, hl, hmf, hid⟩
  · rintro k hk m hm ⟨hl, -⟩ ⟨hl', -⟩ hf hid
    exact hmod.distinct k hk m hm hl hl' hf hid

theorem settle (hn : n < r.size) (hlive : live n)
    (hreleased : (r.entry n).released = false) (last : Prop) [Decidable last] :
    ∃ r', (if last then r.release n (r.entry n) else .ok r) = .ok r' ∧
      r.Replaces n { r.entry n with released := decide last } r' ∧
      r'.Balanced fun m => live m ∧ (m = n → ¬last) := by
  by_cases hlast : last
  · simp_all [h.release]
  · rw [if_neg hlast, decide_eq_false hlast, ← hreleased]
    exact ⟨r, rfl, .refl r n, h.congr fun m _ => by simp [hlast]⟩

theorem take (hn : n < r.size) (hlive : ¬live n) (pos : Position) :
    (∃ message, (r.idPool (r.entry n).feature).popGlobal pos =
      .error (.compile .resourceExhausted pos message)) ∨
    ∃ id pool, (r.idPool (r.entry n).feature).popGlobal pos = .ok (id, pool) ∧ id ∈ Pool.recordIds ∧
      (∀ m < r.size, live m → (r.entry m).feature = (r.entry n).feature → (r.entry m).id ≠ id) ∧
      ((r.setIdPool (r.entry n).feature pool).modify n fun _ => { r.entry n with id }).Balanced
        fun m => live m ∨ m = n := by
  rcases (h.pools (r.entry n).feature).popGlobal pos with hpop | ⟨id, pool, hpop, hmem, hfree, hholds⟩
  · exact .inl ⟨_, hpop⟩
  refine .inr ⟨id, pool, hpop, hmem, fun m hm hl hf hid => hfree ⟨m, hm, hl, hf, hid⟩, ?_⟩
  have hn' : n < (r.setIdPool (r.entry n).feature pool).size := hn
  have hentry := entry_modify hn' fun _ => { r.entry n with id }
  simp only [entry_setIdPool] at hentry
  have hne : ∀ {m : Nat}, live m → m ≠ n := fun hl heq => hlive (heq ▸ hl)
  constructor
  · intro f
    show (Registry.idPool (r.setIdPool (r.entry n).feature pool) f).Holds _
    rw [idPool_setIdPool]
    simp only [size_modify, size_setIdPool, hentry]
    split_ifs with hf
    · subst hf
      refine hholds.congr fun i => ?_
      constructor
      · rintro (⟨m, hm, hl, hmf, hid⟩ | rfl)
        · exact ⟨m, hm, .inl hl, by rw [if_neg (hne hl), hmf], by rw [if_neg (hne hl), hid]⟩
        · exact ⟨n, hn, .inr rfl, by rw [if_pos rfl], by rw [if_pos rfl]⟩
      · rintro ⟨m, hm, hl | rfl, hmf, hid⟩
        · rw [if_neg (hne hl)] at hmf hid
          exact .inl ⟨m, hm, hl, hmf, hid⟩
        · rw [if_pos rfl] at hid
          exact .inr hid.symm
    · refine (h.pools f).congr fun i => ?_
      constructor
      · rintro ⟨m, hm, hl, hmf, hid⟩
        exact ⟨m, hm, .inl hl, by rw [if_neg (hne hl), hmf], by rw [if_neg (hne hl), hid]⟩
      · rintro ⟨m, hm, hl | rfl, hmf, hid⟩
        · rw [if_neg (hne hl)] at hmf hid
          exact ⟨m, hm, hl, hmf, hid⟩
        · rw [if_pos rfl] at hmf
          exact absurd hmf.symm hf
  · intro k hk m hm hl hl' hf hid
    simp only [size_modify, size_setIdPool] at hk hm
    rw [hentry, hentry] at hf hid
    rcases hl with hl | rfl <;> rcases hl' with hl' | rfl
    · rw [if_neg (hne hl), if_neg (hne hl')] at hf hid
      exact h.distinct k hk m hm hl hl' hf hid
    · rw [if_neg (hne hl), if_pos rfl] at hf hid
      exact absurd ⟨k, hk, hl, hf, hid⟩ hfree
    · rw [if_pos rfl, if_neg (hne hl')] at hf hid
      exact absurd ⟨m, hm, hl', hf.symm, hid.symm⟩ hfree
    · rfl

end Balanced

/-! ## The steps -/

open BindStep

/-- The state of a registry after the steps `done` and before the steps `todo`. The registry was `r₀` at
first. -/
structure Bound (r₀ : Registry) (done todo : List BindStep) (r : Registry) : Prop where
  index : r.index = r₀.index
  edges : r.graph.edges = r₀.graph.edges
  size : r.size = r₀.size
  valid : ∀ n, .bind n ∈ done → n < r.size
  name : ∀ n, (r.entry n).name = (r₀.entry n).name
  feature : ∀ n, (r.entry n).feature = (r₀.entry n).feature
  /-- The references that have not been bound are the uses to come. -/
  refCount : ∀ n < r.size, (r.entry n).refCount = todo.count (.use n)
  bound : ∀ n < r.size, 0 ≤ (r.entry n).id ↔ .bind n ∈ done
  released : ∀ n < r.size, (r.entry n).released = true ↔ .bind n ∈ done ∧ .use n ∉ todo
  balanced : r.Balanced fun n => .bind n ∈ done ∧ .use n ∈ todo
  /-- A definition that will be used has another id than those of its feature that were bound later. -/
  fresh : (binds done).Pairwise fun n m => .use n ∈ todo →
    (r.entry m).feature = (r.entry n).feature → (r.entry m).id ≠ (r.entry n).id

namespace Bound

variable {done todo : List BindStep}

theorem nameOf_eq (h : Bound r₀ done todo r) (n : Nat) : r.nameOf n = r₀.nameOf n := by
  by_cases hn : n < r.size
  · rw [nameOf_of_lt hn, nameOf_of_lt (h.size ▸ hn), h.name]
  · have hnone : ∀ {r : Registry}, ¬n < r.size → r.nameOf n = "" := by
      intro r hn
      unfold nameOf get?
      rw [Array.getElem?_eq_none (Nat.not_lt.mp hn)]
      rfl
    rw [hnone hn, hnone (h.size ▸ hn)]

theorem find_nameOf (h : Bound r₀ done todo r) (hexact : r₀.Exact) (hn : n < r.size) (pos : Position) :
    r.find (r₀.nameOf n) pos = .ok (n, r.entry n) := by
  refine find_eq_ok ?_ (get?_entry hn)
  rw [lookup?_congr h.index h.nameOf_eq]
  exact hexact n (h.size ▸ hn)

theorem step {step : BindStep} {d : Definition} {r' : Registry} (h : Bound r₀ done (step :: todo) r)
    (hstep : step = .use n ∨ step = .bind n) (hn : n < r.size) (hbound : .bind n ∈ done ++ [step])
    (hr : r.Replaces n d r') (hname : d.name = (r.entry n).name)
    (hfeature : d.feature = (r.entry n).feature) (hcount : d.refCount = todo.count (.use n))
    (hid : 0 ≤ d.id) (hreleased : d.released = decide (todo.count (.use n) = 0))
    (hbalanced : r'.Balanced fun m => .bind m ∈ done ++ [step] ∧ .use m ∈ todo)
    (hfresh : (binds (done ++ [step])).Pairwise fun k m => .use k ∈ todo →
      (r'.entry m).feature = (r'.entry k).feature → (r'.entry m).id ≠ (r'.entry k).id) :
    Bound r₀ (done ++ [step]) todo r' := by
  -- the step is not one of another definition
  have hother : ∀ {m}, m ≠ n → step ≠ .use m ∧ step ≠ .bind m := by
    rintro m hm
    rcases hstep with rfl | rfl
    · simp [hm.symm]
    · simp [hm.symm]
  have hdone : ∀ {m}, m ≠ n → (.bind m ∈ done ++ [step] ↔ .bind m ∈ done) := fun hm => by
    simp [(hother hm).2.symm]
  refine ⟨hr.index.trans h.index, hr.edges.trans h.edges, hr.size.trans h.size, fun m hm => ?_,
    fun m => (hr.keeps Definition.name hname m).trans (h.name m),
    fun m => (hr.keeps Definition.feature hfeature m).trans (h.feature m),
    fun m hm => ?_, fun m hm => ?_, fun m hm => ?_, hbalanced, hfresh⟩
  · rw [hr.size]
    by_cases hmn : m = n
    · exact hmn ▸ hn
    · exact h.valid m ((hdone hmn).mp hm)
  · grind [hr.entry, h.refCount, hr.size]
  · rw [hr.entry]
    split_ifs with hmn
    · exact iff_of_true hid (hmn ▸ hbound)
    · rw [h.bound m (hr.size ▸ hm), hdone hmn]
  · rw [hr.entry]
    split_ifs with hmn
    · simp_all [count_eq_zero]
    · rw [h.released m (hr.size ▸ hm), hdone hmn, mem_cons, or_iff_right (hother hmn).1.symm]

theorem use (h : Bound r₀ done (.use n :: todo) r) (hn : n < r.size) (hbound : .bind n ∈ done) :
    ∃ r', r.removeRef n (r.entry n) = .ok r' ∧ Bound r₀ (done ++ [.use n]) todo r' ∧
      ∀ m, (r'.entry m).id = (r.entry m).id := by
  have hcount : (r.entry n).refCount = todo.count (.use n) + 1 := by
    rw [h.refCount n hn, count_cons_self]
  have hid : 0 ≤ (r.entry n).id := (h.bound n hn).mpr hbound
  have hreleased : (r.entry n).released = false := by
    rw [← Bool.not_eq_true, h.released n hn]
    simp
  -- the definition with one reference less, and the registry after that
  let d : Definition := { r.entry n with refCount := todo.count (.use n) }
  have hr₁ : r.Replaces n d (r.modify n fun _ => d) := .modify hn fun _ => d
  have hremove : r.removeRef n (r.entry n) = if todo.count (.use n) = 0 then (r.modify n fun _ => d).release n d
      else .ok (r.modify n fun _ => d) := by
    unfold removeRef
    rw [if_neg (by omega), if_neg (by simpa [Definition.isBound] using hid)]
    simp only [hcount, Nat.add_sub_cancel]
    rfl
  have hbal₁ : (r.modify n fun _ => d).Balanced fun m =>
      .bind m ∈ done ∧ BindStep.use m ∈ .use n :: todo := h.balanced.modify hn rfl rfl
  obtain ⟨r', hr', hreplaces, hbalanced⟩ := hbal₁.settle (hr₁.size ▸ hn) ⟨hbound, by simp⟩
    (by rw [hr₁.entry_self]; exact hreleased) (todo.count (.use n) = 0)
  rw [hr₁.entry_self] at hr' hreplaces
  have hr₂ := hr₁.trans hreplaces
  have hids := hr₂.keeps Definition.id rfl
  have hfeatures := hr₂.keeps Definition.feature rfl
  refine ⟨r', hremove.trans hr', ?_, hids⟩
  refine h.step (.inl rfl) hn (mem_append_left _ hbound) hr₂ rfl rfl rfl hid rfl (hbalanced.congr fun m _ => ?_) ?_
  · grind
  grind [binds_append, binds_use, h.fresh.imp]

theorem bind (h : Bound r₀ done (.bind n :: todo) r) (hn : n < r.size) (hbound : .bind n ∉ done) (pos : Position) :
    (∃ message, r.bind n pos = .error (.compile .resourceExhausted pos message)) ∨
    ∃ id r', r.bind n pos = .ok (id, r') ∧ Bound r₀ (done ++ [.bind n]) todo r' ∧ id ∈ Pool.recordIds ∧
      ∀ m, (r'.entry m).id = if m = n then id else (r.entry m).id := by
  have hnotBound : ¬0 ≤ (r.entry n).id := fun hid => hbound ((h.bound n hn).mp hid)
  have hreleased : (r.entry n).released = false := by
    rw [← Bool.not_eq_true, h.released n hn]
    exact fun hr => hbound hr.1
  have hcount : (r.entry n).refCount = todo.count (.use n) := by
    rw [h.refCount n hn, count_cons_of_ne (by simp)]
  have hbal : r.Balanced fun m => .bind m ∈ done ∧ .use m ∈ todo := h.balanced.congr fun m _ => by simp
  rcases hbal.take hn (fun hl => hbound hl.1) pos with
    ⟨message, hpop⟩ | ⟨id, pool, hpop, hmem, hother, hbal₁⟩
  · refine .inl ⟨message, ?_⟩
    unfold Registry.bind
    rw [get?_entry hn]
    dsimp only
    rw [if_neg (by simpa [Definition.isBound] using hnotBound), hpop]
    rfl
  refine .inr ?_
  -- the definition with its id, and the registry after that
  let d : Definition := { r.entry n with id }
  let r₁ : Registry := (r.setIdPool (r.entry n).feature pool).modify n fun _ => d
  have hr₁ : r.Replaces n d r₁ :=
    ⟨rfl, rfl, size_modify _ _ _, entry_modify (hn : n < (r.setIdPool _ pool).size) fun _ => d⟩
  have hbind : r.bind n pos = (if todo.count (.use n) = 0 then r₁.release n d else .ok r₁).map (id, ·) := by
    unfold Registry.bind
    rw [get?_entry hn]
    dsimp only
    rw [if_neg (by simpa [Definition.isBound] using hnotBound), hpop, ← hcount]
    show (if (r.entry n).refCount = 0 then (do return (id, ← r₁.release n d)) else _) = _
    split_ifs with hzero
    · cases r₁.release n d <;> rfl
    · rfl
  obtain ⟨r', hr', hreplaces, hbalanced⟩ := Balanced.settle (r := r₁) hbal₁ (hr₁.size ▸ hn) (.inr rfl)
    (by rw [hr₁.entry_self]; exact hreleased) (todo.count (.use n) = 0)
  rw [hr₁.entry_self] at hr' hreplaces
  have hr₂ := hr₁.trans hreplaces
  have hfeatures := hr₂.keeps Definition.feature rfl
  have hids : ∀ m, (r'.entry m).id = if m = n then id else (r.entry m).id := by
    grind [hr₂.entry]
  refine ⟨id, r', by rw [hbind, hr']; rfl, ?_, hmem, hids⟩
  refine h.step (.inr rfl) hn (by simp) hr₂ rfl rfl hcount (Pool.mem_recordIds.mp hmem).1 rfl
    (hbalanced.congr fun m _ => ?_) ?_
  · grind
  · -- the ids of the definitions that will be used are not free, so the new one is none of them
    have hne : ∀ m ∈ binds done, m ≠ n := fun m hm heq => hbound (mem_binds.mp (heq ▸ hm))
    rw [binds_append, binds_bind]
    simp only [hfeatures, hids]
    refine pairwise_append.mpr ⟨?_, pairwise_singleton _ _, ?_⟩
    · refine h.fresh.imp_of_mem fun {k m} hk hm hkm huse => ?_
      rw [if_neg (hne k hk), if_neg (hne m hm)]
      exact hkm (mem_cons_of_mem _ huse)
    · intro k hk m hm huse hf
      obtain rfl := mem_singleton.mp hm
      rw [if_pos rfl, if_neg (hne k hk)]
      exact (hother k (h.valid k (mem_binds.mp hk)) ⟨mem_binds.mp hk, huse⟩ hf.symm).symm

theorem start (hids : ∀ n < r.size, (r.entry n).id < 0) (hreleased : ∀ n < r.size, (r.entry n).released = false)
    (hpools : r.idPools = []) (hcount : ∀ n < r.size, (r.entry n).refCount = todo.count (.use n)) :
    Bound r [] todo r where
  index := rfl
  edges := rfl
  size := rfl
  valid n hn := nomatch hn
  name n := rfl
  feature n := rfl
  refCount := hcount
  bound n hn := by
    have hid := hids n hn
    simpa using hid
  released n hn := by simp [hreleased n hn]
  balanced := by
    refine ⟨fun f => ?_, fun n hn m hm hl => nomatch hl.1⟩
    rw [idPool, hpools]
    exact ⟨rfl, [], Pool.ofRange_balanced _ 0x00 0xFF, by simp⟩
  fresh := Pairwise.nil

theorem finish (h : Bound r₀ done [] r) : (∀ n < r.size, (r.entry n).refCount = 0) ∧
      ∀ f, (r.idPool f).inUse = [] ∧ (r.idPool f).free.Perm Pool.recordIds := by
  refine ⟨fun n hn => h.refCount n hn, fun f => ?_⟩
  obtain ⟨hframes, ids, hids, hheld⟩ := h.balanced.pools f
  obtain rfl : ids = [] := eq_nil_iff_forall_not_mem.mpr fun id hid => by simpa using (hheld id).mp hid
  have hinUse := hids.inUse
  have hperm : Perm _ Pool.recordIds := hids.perm
  rw [hframes] at hinUse hperm
  exact ⟨eq_nil_iff_forall_not_mem.mpr fun id hid => by simpa using (hinUse id).mp hid, by simpa using hperm⟩

end Bound

end Registry

end Grf
