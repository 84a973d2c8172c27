import Grf.Proofs.Conditional.Emits

/-! # The numbers of sprite sets

A sprite group writes the indices of its sets in the last sprite table of its feature that has been lowered. `Shows
names before` says that `names` has these indices, when `before` are the declarations that have been lowered.
-/

namespace Grf

open List Record

/-- The number of a set of a sprite table. Sets without a name have none. -/
def setNumber? (sets : List SpriteSet) (name : String) : Option Nat :=
  if name.isEmpty then none else sets.findIdx? (·.name == name)

def Declaration.tableOf? (feature : Int) : Declaration → Option (List SpriteSet)
  | spriteSets f sets _ => if f = feature then some sets else none
  | _ => none

theorem Declaration.tableOf?_spriteSets (feature f : Int) (sets : List SpriteSet) (pos : Position) :
    (spriteSets f sets pos).tableOf? feature = if f = feature then some sets else none := rfl

def lastTable? (feature : Int) (ds : List Declaration) : Option (List SpriteSet) :=
  (ds.filterMap (Declaration.tableOf? feature)).getLast?

def foundNumber? (names : List (Int × List (String × Nat))) (feature : Int) (name : String) : Option Nat :=
  (names.lookup feature).bind (·.lookup name)

/-- The sets are found by their numbers in the last sprite tables of `before`. -/
def Shows (names : List (Int × List (String × Nat))) (before : List Declaration) : Prop := ∀ feature name,
    foundNumber? names feature name = (lastTable? feature before).bind (setNumber? · name)

def Record.group? (r : Record) : Option GroupRecord :=
  match r.body with
  | .spriteGroup g => some g
  | _ => none

def groups (rs : List Record) : List GroupRecord := rs.filterMap Record.group?

/-- The numbers that are written for a sprite group are those of its sets in a sprite table. -/
structure Numbers (sets : List SpriteSet) (g : SpriteGroup) (written : GroupRecord) : Prop where
  loaded : written.loaded.map some = g.loaded.map (setNumber? sets)
  loading : written.loading.map some = g.loading.map (setNumber? sets)

/-! ## Sprite groups among records -/

@[simp] theorem groups_append (rs rs' : List Record) : groups (rs ++ rs') = groups rs ++ groups rs' := filterMap_append

theorem group?_of_detached {r : Record} (h : r.Detached) : r.group? = none := by
  unfold Record.Detached at h
  unfold group?
  cases hb : r.body <;> simp_all

theorem groups_eq_nil {rs : List Record} (h : ∀ r ∈ rs, r.group? = none) : groups rs = [] := filterMap_eq_nil_iff.mpr h

theorem groups_attached (rs : List Record) : groups (attached rs) = groups rs := by
  unfold groups attached
  rw [filterMap_filter]
  refine filterMap_congr fun r _ => ?_
  cases h : r.isAttached with
  | true => rfl
  | false => rw [group?_of_detached (isAttached_eq_false.mp h)]; rfl

namespace Lowering

variable {c c' : Context} {rs : List Record} {feature : Int} {pos : Position}
  {sets : List SpriteSet} {g : SpriteGroup} {d : Declaration} {before : List Declaration}

theorem lowerSets_lookup {count i : Nat} {names : List (String × Nat)}
    {x : List Record × List (String × Nat)} (h : lowerSets count pos names i sets c = .ok x c') (name : String) :
    x.2.lookup name = (names.lookup name).or ((setNumber? sets name).map (i + ·)) := by
  induction sets generalizing names i c x with
  | nil =>
    obtain ⟨rfl, rfl⟩ := pure_eq_ok.mp h
    simp [setNumber?]
  | cons set sets ih =>
    obtain ⟨_, d, -, h⟩ := bind_eq_ok.mp h
    obtain ⟨hnew, h⟩ := failIf_bind_eq_ok.mp h
    obtain ⟨_, e, -, h⟩ := bind_eq_ok.mp h
    obtain ⟨y, hrest, rfl⟩ := bind_pure_eq_ok.mp h
    rw [ih hrest]
    have hfresh : set.name.isEmpty = false → names.lookup set.name = none := by
      intro hname
      rw [hname, Bool.not_false, Bool.true_and] at hnew
      exact Option.isSome_eq_false_iff.mp hnew |> Option.isNone_iff_eq_none.mp
    unfold setNumber?
    cases hempty : name.isEmpty with
    | true =>
      cases hset : set.name.isEmpty with
      | true => simp
      | false =>
        have hne : (name == set.name) = false := by
          rw [beq_eq_false_iff_ne]
          rintro rfl
          rw [hempty] at hset
          cases hset
        simp [lookup_cons, hne]
    | false =>
      rw [findIdx?_cons]
      by_cases heq : set.name = name
      · subst heq
        simp [hempty, hfresh hempty]
      · have hset : (set.name == name) = false := beq_eq_false_iff_ne.mpr heq
        have hname : (name == set.name) = false := beq_eq_false_iff_ne.mpr (Ne.symm heq)
        have hlookup : List.lookup name (if set.name.isEmpty then names else (set.name, i) :: names) =
            names.lookup name := by
          split
          · rfl
          · rw [lookup_cons, hname]
        rw [hlookup, hset]
        simp [Function.comp_def, Nat.add_assoc, Nat.add_comm 1]

theorem Program.spriteSets_eq {α : Type} {effects : Set Effect} {P : List Int → α → Prop} {m : Lowering α}
    {a : α} (h : Program effects m P) (hsets : .spriteSets ∉ effects) (hok : m c = .ok a c') : c'.spriteSets = c.spriteSets :=
  h.kept (.spriteSets hsets) hok

theorem lowerSpriteSets_found (h : lowerSpriteSets feature sets pos c = .ok rs c') (f : Int) (name : String) :
    foundNumber? c'.spriteSets f name =
      if f = feature then setNumber? sets name else foundNumber? c.spriteSets f name := by
  iterate 4 obtain ⟨-, h⟩ := failIf_bind_eq_ok.mp h
  obtain ⟨x, d, hsets, h⟩ := bind_eq_ok.mp h
  replace h := modify_bind_eq_ok.mp h
  obtain ⟨-, rfl⟩ := pure_eq_ok.mp h
  have hkept : d.spriteSets = c.spriteSets :=
    (lowerSets_program : Spends ∅ _ _).spriteSets_eq (Set.notMem_empty _) hsets
  unfold foundNumber?
  rw [hkept, lookup_cons]
  by_cases hf : f = feature
  · subst hf
    simp [lowerSets_lookup hsets]
  · rw [if_neg hf, beq_eq_false_iff_ne.mpr hf, lookup_filter_of_ne hf]

theorem spriteSetNumber_eq_ok {name : String} {n : Nat} (h : spriteSetNumber feature name pos c = .ok n c') :
    foundNumber? c.spriteSets feature name = some n ∧ c' = c := by
  replace h := get_bind_eq_ok.mp h
  unfold foundNumber?
  cases hnames : c.spriteSets.lookup feature with
  | none =>
    rw [hnames] at h
    exact (fail_eq_ok.mp h).elim
  | some names =>
    rw [hnames] at h
    dsimp only at h
    cases hnumber : names.lookup name with
    | none =>
      rw [hnumber] at h
      exact (fail_eq_ok.mp h).elim
    | some number =>
      rw [hnumber] at h
      obtain ⟨rfl, rfl⟩ := pure_eq_ok.mp h
      exact ⟨hnumber, rfl⟩

theorem spriteSetNumbers_eq_ok {names : List String} {k : Nat} {ns : List Nat} (place : Nat → Position)
    (h : (names.zipIdx k).mapM (fun x => spriteSetNumber feature x.1 (place x.2)) c = .ok ns c') :
    ns.map some = names.map (foundNumber? c.spriteSets feature) ∧ c' = c := by
  induction names generalizing k ns with
  | nil =>
    obtain ⟨rfl, rfl⟩ := pure_eq_ok.mp h
    exact ⟨rfl, rfl⟩
  | cons name names ih =>
    obtain ⟨n, d, rest, hn, hrest, rfl⟩ := mapM_cons_eq_ok.mp h
    obtain ⟨hfound, rfl⟩ := spriteSetNumber_eq_ok hn
    obtain ⟨hns, rfl⟩ := ih hrest
    exact ⟨by rw [map_cons, map_cons, hfound, hns], rfl⟩

theorem lowerSpriteGroup_groups (h : lowerSpriteGroup g c = .ok rs c') :
    ∃ written, groups rs = [written] ∧ written.name = g.name ∧ written.feature = g.feature ∧
      g.loaded ++ g.loading ≠ [] ∧
      written.loaded.map some = g.loaded.map (foundNumber? c.spriteSets g.feature) ∧
      written.loading.map some = g.loading.map (foundNumber? c.spriteSets g.feature) := by
  obtain ⟨-, h⟩ := failIf_bind_eq_ok.mp h
  obtain ⟨hsome, h⟩ := failIf_bind_eq_ok.mp h
  obtain ⟨-, h⟩ := failIf_bind_eq_ok.mp h
  obtain ⟨loaded, c₁, hok, h₁⟩ := bind_eq_ok.mp h
  obtain ⟨hloaded, hc₁⟩ := spriteSetNumbers_eq_ok (fun i => g.pos.sub ("loaded" ++ "[" ++ toString i ++ "]")) hok
  obtain ⟨loading, c₂, hok', h₂⟩ := bind_eq_ok.mp h₁
  obtain ⟨hloading, -⟩ := spriteSetNumbers_eq_ok (fun i => g.pos.sub ("loading" ++ "[" ++ toString i ++ "]")) hok'
  obtain ⟨node, c₃, -, h₃⟩ := bind_eq_ok.mp h₂
  obtain ⟨rfl, -⟩ := pure_eq_ok.mp h₃
  rw [hc₁] at hloading
  exact ⟨_, rfl, rfl, rfl, by simpa using hsome, hloaded, hloading⟩

/-! ## Declarations -/

theorem groups_withPatches {R : Record} {cells : List Cell} (h : R.WrittenAs cells) (patches : List Patch) :
    groups (R.withPatches patches) = [] := by
  have hR : R.group? = none := by
    cases h with
    | assignment pos plan => rfl
    | table hcells =>
      obtain ⟨pos, body⟩ := R
      cases body with
      | spriteGroup g => exact absurd rfl hcells
      | _ => rfl
  refine groups_eq_nil fun r hr => ?_
  rcases mem_withPatches hr with rfl | hr
  · exact hR
  · exact group?_of_detached hr

theorem groups_planned (steps : List Step) : groups (planned pos steps) = [] := by
  induction steps with
  | nil => rfl
  | cons s steps ih =>
    show groups (_ ++ planned pos steps) = []
    rw [groups_append, ih, append_nil]
    exact groups_withPatches (.assignment pos s.plan) _

theorem groups_of_patched (h : Patched rs) : groups rs = [] := by
  induction h with
  | nil => rfl
  | text htext rest ih =>
    obtain ⟨feature, lang, id, text, hbody⟩ := htext
    grind [groups, group?]
  | computation pos hsteps rest ih => rw [groups_append, groups_planned, ih, append_nil]
  | table htable rest ih => rw [groups_append, groups_withPatches htable, ih, append_nil]

theorem lower_groups_nil (hd : d.IsSimple) (hgroup : ∀ g, d ≠ .spriteGroup g) :
    Yields d.lower fun rs => groups rs = [] := by
  by_cases hnames : d.HasNames
  · cases d with
    | spriteGroup g => exact absurd rfl (hgroup g)
    | switch s => exact framed_yields fun c rs c' h => groups_of_patched (lowerSwitch_patched s c rs c' h)
    | graphics g =>
      exact framed_yields (.after fun _ => .after fun _ => .after fun _ => .after fun _ =>
        .after fun _ => .after fun _ => .pure rfl)
    | _ => exact hnames.elim
  · exact fun c rs c' h => groups_eq_nil fun r hr => group?_of_detached ((lower_detached hd hnames c rs c' h).2.2 r hr)

theorem framed_spriteSets {body : Lowering (List Record)} (h : framed d body c = .ok rs c') :
    ∃ c₁ c₂, body c₁ = .ok rs c₂ ∧ c₁.spriteSets = c.spriteSets ∧ c'.spriteSets = c₂.spriteSets := by
  obtain ⟨c₂, hlogged, hrestore⟩ := bracket_eq_ok.mp h
  have hbody := modify_bind_eq_ok.mp hlogged
  obtain ⟨temps, -, hrestore⟩ := except_bind_eq_ok hrestore
  obtain rfl := Except.ok.inj hrestore
  exact ⟨_, c₂, hbody, rfl, rfl⟩

theorem lastTable?_concat (feature : Int) (before : List Declaration) (d : Declaration) :
    lastTable? feature (before ++ [d]) = (d.tableOf? feature).or (lastTable? feature before) := by
  unfold lastTable?
  rw [filterMap_append, getLast?_append]
  cases h : d.tableOf? feature with
  | none => rw [filterMap_cons_none h]; rfl
  | some sets => rw [filterMap_cons_some h]; rfl

theorem lower_spriteSets_eq (hd : d.IsSimple)
    (hsets : ¬∃ feature sets pos, d = .spriteSets feature sets pos) (h : d.lower c = .ok rs c') :
    c'.spriteSets = c.spriteSets := by
  obtain ⟨m, heq, hm⟩ := @lower_program_of_simple {.definitions, .frames} d hd
    (fun hset => absurd hset hsets) fun _ => by simp
  rw [heq] at h
  exact (hm.withTemps (by simp)).spriteSets_eq (by simp) h

/-- **The names of sprite sets are those of the last tables**, after each declaration. -/
theorem lower_shows (hd : d.IsSimple) (hshows : Shows c.spriteSets before)
    (h : d.lower c = .ok rs c') : Shows c'.spriteSets (before ++ [d]) := by
  intro f name
  rw [lastTable?_concat]
  by_cases htable : ∃ feature sets pos, d = .spriteSets feature sets pos
  · obtain ⟨feature, sets, pos, rfl⟩ := htable
    obtain ⟨c₁, c₂, hbody, hc₁, hc₂⟩ := framed_spriteSets h
    rw [hc₂, lowerSpriteSets_found hbody, hc₁, hshows f name]
    rw [Declaration.tableOf?_spriteSets]
    by_cases hf : f = feature
    · subst hf
      simp
    · rw [if_neg hf, if_neg (Ne.symm hf)]
      rfl
  · have hnone : d.tableOf? f = none := by
      cases d with
      | spriteSets feature sets pos => exact absurd ⟨feature, sets, pos, rfl⟩ htable
      | _ => rfl
    rw [lower_spriteSets_eq hd htable h, hshows f name, hnone]
    rfl

/-- **A sprite group writes the numbers of its sets in the last table of its feature.** -/
theorem lower_numbers (hshows : Shows c.spriteSets before) (h : (Declaration.spriteGroup g).lower c = .ok rs c') :
    ∃ written sets, groups rs = [written] ∧ written.name = g.name ∧ written.feature = g.feature ∧
      lastTable? g.feature before = some sets ∧ Numbers sets g written := by
  obtain ⟨c₁, c₂, hbody, hc₁, -⟩ := framed_spriteSets h
  obtain ⟨written, hgroups, hname, hfeature, hsome, hloaded, hloading⟩ := lowerSpriteGroup_groups hbody
  have hfound : foundNumber? c₁.spriteSets g.feature =
      fun name => (lastTable? g.feature before).bind (setNumber? · name) := by
    funext name
    rw [hc₁, hshows]
  rw [hfound] at hloaded hloading
  cases htable : lastTable? g.feature before with
  | none =>
    -- a group selects at least one set, and without a table none is found
    have hempty : ∀ (ns : List Nat) (names : List String), ns.map some = names.map (fun _ => none) → names = [] := by
      intro ns names h
      cases names with
      | nil => rfl
      | cons name names => cases ns <;> simp at h
    rw [htable] at hloaded hloading
    rw [hempty _ _ hloaded, hempty _ _ hloading] at hsome
    exact absurd rfl hsome
  | some sets =>
    rw [htable] at hloaded hloading
    exact ⟨written, sets, hgroups, hname, hfeature, rfl, hloaded, hloading⟩

end Lowering

end Grf
