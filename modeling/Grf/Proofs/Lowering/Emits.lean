import Grf.Proofs.Lowering.Detached
import Grf.Proofs.Registry.Growth

/-! # What there is to bind in the records of a lowering

`Spelled` reads off a list of records the steps that bind them, and `Emits` says of a lowering that it leaves the
registry in the state that these steps need (`Written`): the references that are counted are those of the records, each
definition has one record, and each record comes after those it refers to, unless there is a cycle.

A decision table is defined before its results are lowered, and its record comes after theirs. In between, its
definition is pending and its references are owed.
-/

namespace Grf

open List Record

variable {r r' r'' : Registry} {R : Record} {rs rs' : List Record} {targets : List Nat} {steps steps' : List BindStep}

/-! ## Steps of records -/

/-- A record that refers to the definitions `targets`, and that is the one its own definition is
about. -/
structure Tied (r : Registry) (R : Record) (targets : List Nat) : Prop where
  names : R.references.map Prod.fst = targets.map r.nameOf
  lt_size : ∀ t ∈ targets, t < r.size
  feature : ∀ t ∈ targets, R.feature? = some (r.entry t).feature
  named : ∀ d ∈ R.named?, d.node < r.size ∧ d.name = r.nameOf d.node ∧ d.feature = (r.entry d.node).feature
  calls : R.CallsOnly

/-- The steps that bind a record which refers to `targets`: the references first. -/
def Record.bindSteps (R : Record) (targets : List Nat) : List BindStep :=
  targets.map .use ++ (R.named?.toList.map (·.node)).map .bind

/-- The steps that bind the records of a list. -/
inductive Spelled (r : Registry) : List Record → List BindStep → Prop
  | nil : Spelled r [] []
  | cons {R : Record} {targets : List Nat} {rs : List Record} {steps : List BindStep}
      (tied : Tied r R targets) (rest : Spelled r rs steps) :
      Spelled r (R :: rs) (R.bindSteps targets ++ steps)

namespace Tied

theorem detached (h : R.Detached) : Tied r R [] where
  names := by rw [h.references]; rfl
  lt_size _ ht := nomatch ht
  feature _ ht := nomatch ht
  named d hd := by rw [h.named?] at hd; cases hd
  calls := h.callsOnly

theorem bindSteps_of_detached (h : Tied r R targets) (hR : R.Detached) : R.bindSteps targets = [] := by
  have hnil : targets = [] := by
    have hnames := h.names
    rw [hR.references] at hnames
    exact map_eq_nil_iff.mp hnames.symm
  rw [bindSteps, hnil, hR.named?]
  rfl

theorem grows (h : Tied r R targets) (hr : r.Grows r') : Tied r' R targets where
  names := by rw [hr.map_nameOf h.lt_size, h.names]
  lt_size t ht := Nat.lt_of_lt_of_le (h.lt_size t ht) hr.size
  feature t ht := by rw [hr.feature t (h.lt_size t ht), h.feature t ht]
  named d hd := by
    grind [h.named, hr.size, hr.nameOf, hr.feature]
  calls := h.calls

end Tied

namespace Spelled

theorem append (h : Spelled r rs steps) (h' : Spelled r rs' steps') : Spelled r (rs ++ rs') (steps ++ steps') := by
  induction h with
  | nil => exact h'
  | cons tied _ ih =>
    rw [append_assoc]
    exact .cons tied ih

theorem grows (h : Spelled r rs steps) (hr : r.Grows r') : Spelled r' rs steps := by
  induction h with
  | nil => exact .nil
  | cons tied _ ih => exact .cons (tied.grows hr) ih

theorem tied (h : Spelled r rs steps) : ∀ R ∈ rs, ∃ targets, Tied r R targets := by
  induction h with
  | nil => simp
  | cons htied _ ih => exact forall_mem_cons.mpr ⟨⟨_, htied⟩, ih⟩

theorem cons_detached (h : Spelled r rs steps) (hR : R.Detached) : Spelled r (R :: rs) steps := by
  have hsteps := (Tied.detached hR : Tied r R []).bindSteps_of_detached hR
  have hcons := Spelled.cons (Tied.detached hR) h
  rwa [hsteps] at hcons

theorem attached_iff : Spelled r (attached rs) steps ↔ Spelled r rs steps := by
  constructor
  · intro h
    induction rs generalizing steps with
    | nil => exact h
    | cons R rs ih =>
      cases hR : R.isAttached with
      | false =>
        have hdetached := isAttached_eq_false.mp hR
        rw [attached_cons_of_detached hdetached] at h
        exact (ih h).cons_detached hdetached
      | true =>
        rw [attached, filter_cons_of_pos hR] at h
        cases h with
        | cons tied rest => exact .cons tied (ih rest)
  · intro h
    induction h with
    | nil => exact .nil
    | @cons R targets rs steps tied rest ih =>
      cases hR : R.isAttached with
      | false =>
        have hdetached := isAttached_eq_false.mp hR
        rwa [attached_cons_of_detached hdetached, tied.bindSteps_of_detached hdetached]
      | true =>
        rw [attached, filter_cons_of_pos hR]
        exact .cons tied ih

theorem congr (h : Spelled r rs steps) (hrs : attached rs' = attached rs) : Spelled r rs' steps := by
  rw [← attached_iff, hrs, attached_iff]
  exact h

end Spelled

/-! ## Lowerings that make records -/

/-- The records `rs` are made in going from `r` to `r'`. -/
structure Writes (r : Registry) (rs : List Record) (r' : Registry) : Prop where
  grows : r.Grows r'
  written : ∀ {steps}, r.Written steps [] [] → ∃ new, Spelled r' rs new ∧ r'.Written (steps ++ new) [] []

namespace Writes

theorem detached (h : ∀ R ∈ rs, R.Detached) : Writes r rs r where
  grows := .refl r
  written {steps} hr := by
    refine ⟨[], ?_, by rwa [append_nil]⟩
    exact Spelled.nil.congr (attached_of_detached h)

theorem append (h : Writes r rs r') (h' : Writes r' rs' r'') : Writes r (rs ++ rs') r'' where
  grows := h.grows.trans h'.grows
  written hr := by
    obtain ⟨new, hnew, hr'⟩ := h.written hr
    obtain ⟨new', hnew', hr''⟩ := h'.written hr'
    exact ⟨new ++ new', (hnew.grows h'.grows).append hnew', by rwa [← append_assoc]⟩

theorem congr (h : Writes r rs r') (hrs : attached rs' = attached rs) : Writes r rs' r' where
  grows := h.grows
  written hr := by
    obtain ⟨new, hnew, hr'⟩ := h.written hr
    exact ⟨new, hnew.congr hrs, hr'⟩

end Writes

namespace Lowering

variable {α β : Type} {pos : Position} {feature : Int}

/-- What the lowering `m` does to the definitions. Scratch registers are left alone. -/
def Relates (m : Lowering α) (P : Registry → α → Registry → Prop) : Prop :=
  ∀ c a c', m c = .ok a c' → c'.scratch = c.scratch ∧ P c.registry a c'.registry

namespace Relates

variable {P : Registry → α → Registry → Prop} {Q T : Registry → β → Registry → Prop}
  {m : Lowering α} {p : α → Prop} {f : α → Lowering β}

theorem of_detached (hm : Detached m p) (h : ∀ r a, p a → P r a r) : Relates m P := by
  rintro c a c' hok
  obtain ⟨hreg, hscratch, ha⟩ := hm c a c' hok
  exact ⟨hscratch, hreg ▸ h _ a ha⟩

theorem pure {a : α} (h : ∀ r, P r a r) : Relates (pure a) P :=
  of_detached (.pure (P := (· = a)) rfl) fun r _ ha => ha ▸ h r

theorem fail {kind : ErrorKind} {message : String} : Relates (fail kind pos message) P :=
  of_detached (p := fun _ => False) .fail fun _ _ h => h.elim

theorem bind {Q : α → Registry → β → Registry → Prop} (hm : Relates m P)
    (hf : ∀ a, Relates (f a) (Q a)) (h : ∀ r a r' b r'', P r a r' → Q a r' b r'' → T r b r'') :
    Relates (m >>= f) T := by
  rintro c b c' hok
  obtain ⟨a, d, ha, hb⟩ := bind_eq_ok.mp hok
  obtain ⟨hscratch, hP⟩ := hm c a d ha
  obtain ⟨hscratch', hQ⟩ := hf a d b c' hb
  exact ⟨hscratch'.trans hscratch, h _ _ _ _ _ hP hQ⟩

theorem after (hm : Detached m p) (hf : ∀ a, p a → Relates (f a) T) : Relates (m >>= f) T := by
  rintro c b c' hok
  obtain ⟨a, d, ha, hb⟩ := bind_eq_ok.mp hok
  obtain ⟨hreg, hscratch, hp⟩ := hm c a d ha
  obtain ⟨hscratch', hT⟩ := hf a hp d b c' hb
  exact ⟨hscratch'.trans hscratch, hreg ▸ hT⟩

theorem yield {g : α → β} (hm : Relates m P) (h : ∀ r a r', P r a r' → T r (g a) r') :
    Relates (m >>= fun a => Pure.pure (g a)) T :=
  hm.bind (fun a => .pure (P := fun r b r' => b = g a ∧ r' = r) fun _ => ⟨rfl, rfl⟩) fun r a r' b r'' hP hb => by
    obtain ⟨rfl, rfl⟩ := hb
    exact h r a r'' hP

theorem bracket {m : Lowering α} {enter : Context → Context} {exit : Context → Except Fault Context}
    (henter : ∀ c, (enter c).registry = c.registry ∧ (enter c).scratch = c.scratch)
    (hexit : ∀ c c', exit c = .ok c' → c'.registry = c.registry ∧ c'.scratch = c.scratch)
    (hm : Relates m P) : Relates (bracket enter exit m) P := by
  rintro c a c' hok
  obtain ⟨d, ha, hd⟩ := bracket_eq_ok.mp hok
  obtain ⟨hscratch, hP⟩ := hm _ a d ha
  grind

end Relates

abbrev Emits (m : Lowering (List Record)) : Prop := Relates m Writes

theorem define_relates {name : String} :
    Relates (define name feature pos) fun r node r' => node = r.size ∧ r.Defined name feature r' := by
  rintro c node c' hok
  obtain ⟨⟨node', registry⟩, hdefine, hok⟩ := lift_bind_eq_ok.mp hok
  obtain ⟨rfl, rfl⟩ := pure_eq_ok.mp hok
  exact ⟨rfl, Registry.define_eq_ok hdefine⟩

theorem addRef_relates {source : Option Nat} {name : String} :
    Relates (addRef source name feature pos) fun r _ r' => (∀ s ∈ source, s < r.size) →
      ∃ t, r.nameOf t = name ∧ Registry.Referred source feature r [t] r' := by
  rintro c u c' hok
  obtain ⟨⟨t, registry⟩, hadd, hok⟩ := lift_bind_eq_ok.mp hok
  obtain rfl := modify_eq_ok.mp hok
  exact ⟨rfl, fun hsource => ⟨t, Registry.addRef_eq_ok hadd hsource⟩⟩

end Lowering

end Grf
