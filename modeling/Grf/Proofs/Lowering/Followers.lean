import Grf.Proofs.Lowering.Detached
import Grf.Proofs.Skip.Bonds
import Grf.Proofs.Table.Patches

/-! # Records that come with others

A table of byte patches is for the record behind it, and a sprite table or a replacement is for the real sprites behind
it (`Record.Owns`). Wherever a lowering makes such a record, it makes what belongs to it right behind it (`Attended`).
-/

namespace Grf

open List

def AreSprites (n : Nat) (rs : List Record) : Prop := rs.length = n ∧ ∀ r ∈ rs, r.kind = .realSprite

variable {n : Nat} {r R : Record} {cells : List Cell}

theorem AreSprites.append {n' : Nat} {rs rs' : List Record} (h : AreSprites n rs)
    (h' : AreSprites n' rs') : AreSprites (n + n') (rs ++ rs') := by
  refine ⟨?_, forall_mem_append.mpr ⟨h.2, h'.2⟩⟩
  rw [length_append, h.1, h'.1]

/-- The records that belong behind a record: the one that the patches of a table are for, the sprites of
the sets of a sprite table, the sprites of the ranges of a replacement, and none for any other record. -/
def Record.Owns (r : Record) (followers : List Record) : Prop :=
  match r.body with
  | .bytePatchTable patches => ∃ R, followers = [R] ∧ Hits patches R
  | .spriteTable _ sets sprites => AreSprites (sets * sprites) followers
  | .rangeReplace ranges => AreSprites (ranges.map Prod.fst).sum followers
  | _ => followers = []

def Record.IsAlone (r : Record) : Prop :=
  match r.body with
  | .bytePatchTable _ | .spriteTable .. | .rangeReplace _ => False
  | _ => True

theorem Record.IsAlone.owns (h : r.IsAlone) : r.Owns [] := by
  unfold IsAlone at h
  unfold Owns
  cases hb : r.body <;> rw [hb] at h <;> first | rfl | exact h.elim

theorem Record.IsControl.isAlone (h : r.IsControl) : r.IsAlone := by
  unfold IsControl at h
  unfold IsAlone
  cases hb : r.body <;> rw [hb] at h <;> trivial

theorem Record.WrittenAs.isAlone (h : R.WrittenAs cells) : R.IsAlone := by
  cases h with
  | assignment => trivial
  | table hcells =>
    obtain ⟨pos, body⟩ := R
    cases body <;> trivial

/-! ## Bonds -/

theorem Record.WrittenAs.capabilities (h : R.WrittenAs cells) : R.kind.capabilities = ⟨true, true, true⟩ := by
  cases h with
  | assignment => rfl
  | table hcells =>
    obtain ⟨pos, body⟩ := R
    cases body <;> first | rfl | exact absurd rfl hcells

theorem Record.Owns.capabilities {followers : List Record} (h : r.Owns followers) :
    ∀ s ∈ followers, s.kind.capabilities = ⟨true, true, true⟩ := by
  have hsprites : ∀ {n : Nat}, AreSprites n followers → ∀ s ∈ followers, s.kind.capabilities = ⟨true, true, true⟩ := by
    intro n h s hs
    rw [h.2 s hs]
    rfl
  unfold Owns at h
  split at h
  · obtain ⟨R, rfl, hhits⟩ := h
    obtain ⟨cells, hcells, -⟩ := hhits.cells
    intro s hs
    obtain rfl := mem_singleton.mp hs
    exact hcells.capabilities
  · exact hsprites h
  · exact hsprites h
  · subst h
    rintro s ⟨⟩

/-- **A record is bonded to what belongs to it.** -/
theorem Record.Owns.bondedChain {x : Numbered} {followers : List Numbered}
    (h : x.1.Owns (followers.map Prod.fst)) : BondedChain (x :: followers) := by
  have hcaps : ∀ s ∈ followers, s.1.kind.capabilities = ⟨true, true, true⟩ := fun s hs =>
    h.capabilities s.1 (mem_map_of_mem hs)
  clear h
  induction followers generalizing x with
  | nil => exact .singleton x
  | cons s followers ih =>
    obtain ⟨hs, hrest⟩ := forall_mem_cons.mp hcaps
    exact isChain_cons_cons.mpr ⟨⟨fun _ => by rw [hs], fun _ => by rw [hs]⟩, ih hrest⟩

/-! ## Lists in which nothing is missing -/

def Attended : List Record → Prop
  | [] => True
  | r :: rest => (∃ followers, followers <+: rest ∧ r.Owns followers) ∧ Attended rest

namespace Attended

variable {rs rs' : List Record}

theorem append (h : Attended rs) (h' : Attended rs') : Attended (rs ++ rs') := by
  induction rs with
  | nil => exact h'
  | cons r rs ih =>
    obtain ⟨⟨followers, hbehind, howns⟩, hrest⟩ := h
    exact ⟨⟨followers, hbehind.trans (prefix_append _ _), howns⟩, ih hrest⟩

theorem alone (hr : r.IsAlone) (h : Attended rs) : Attended (r :: rs) := ⟨⟨[], nil_prefix, hr.owns⟩, h⟩

theorem of_alone (h : ∀ r ∈ rs, r.IsAlone) : Attended rs := by
  induction rs with
  | nil => exact trivial
  | cons r rs ih =>
    rw [forall_mem_cons] at h
    exact .alone h.1 (ih h.2)

theorem withPatches (hR : R.WrittenAs cells) : Attended (R.withPatches (placeholders 0 cells)) := by
  have hlast : Attended [R] := .alone hR.isAlone trivial
  unfold Record.withPatches
  split
  · exact hlast
  · exact ⟨⟨[R], prefix_refl _, R, rfl, hR.hits⟩, hlast⟩

theorem sprites (h : AreSprites n rs) : Attended rs := by
  refine of_alone fun r hr => ?_
  have hkind := h.2 r hr
  unfold Record.kind at hkind
  unfold Record.IsAlone
  cases hb : r.body <;> simp_all

theorem exists_followers {pre post : List Record} (h : Attended (pre ++ r :: post)) :
    ∃ followers, followers <+: post ∧ r.Owns followers := by
  induction pre with
  | nil => exact h.1
  | cons s pre ih => exact ih h.2

end Attended

namespace Lowering

variable {α : Type} {pos : Position} {feature : Int} {rs : List Record}

/-- Straight records with what belongs to them right behind them. If nothing is named, they are detached. -/
structure Tidy (named : Prop) (rs : List Record) : Prop where
  attended : Attended rs
  straight : Straight (fun _ => True) True rs
  detached : ¬named → AllDetached rs

namespace Tidy

variable {named : Prop} {rs' : List Record}

theorem nil : Tidy named [] := ⟨trivial, .nil, fun _ => by simp [AllDetached]⟩

theorem append (h : Tidy named rs) (h' : Tidy named rs') : Tidy named (rs ++ rs') :=
  ⟨h.attended.append h'.attended, h.straight.append h'.straight, fun hnamed =>
    forall_mem_append.mpr ⟨h.detached hnamed, h'.detached hnamed⟩⟩

theorem flatMap {as : List α} {f : α → List Record} (h : ∀ a ∈ as, Tidy named (f a)) : Tidy named (as.flatMap f) := by
  induction as with
  | nil => exact .nil
  | cons a as ih =>
    rw [forall_mem_cons] at h
    exact h.1.append (ih h.2)

theorem of_alone (h : ∀ r ∈ rs, r.IsAlone ∧ r.IsPlain) (hdetached : ¬named → AllDetached rs) : Tidy named rs :=
  ⟨.of_alone fun r hr => (h r hr).1, .of_plain fun r hr => (h r hr).2, hdetached⟩

theorem sprites (hr : r.IsPlain) (hdetached : r.Detached) (howns : r.Owns rs)
    (h : AreSprites n rs) : Tidy named (r :: rs) := by
  have hrest : ∀ s ∈ rs, s.IsPlain ∧ s.Detached := by
    intro s hs
    have hkind := h.2 s hs
    unfold Record.kind at hkind
    unfold Record.IsPlain Record.Detached
    cases hb : s.body <;> simp_all
  exact ⟨⟨⟨rs, prefix_refl _, howns⟩, .sprites h⟩, .plain hr (.of_plain fun s hs => (hrest s hs).1),
    fun _ => forall_mem_cons.mpr ⟨hdetached, fun s hs => (hrest s hs).2⟩⟩

end Tidy

variable {named : Prop} {d : Declaration}

theorem tidy_planned (steps : List Step) : Tidy named (planned pos steps) := by
  refine .flatMap fun s _ => ⟨.withPatches (.assignment pos s.plan), ?_, fun _ =>
    .withPatches (r := ⟨pos, .paramAssignment s.plan.assignment⟩) trivial _⟩
  exact AssignPlan.straight (fun _ _ => trivial) (fun _ _ => trivial) pos

theorem isPlain_of_table (h : R.WrittenAs cells) (hcells : cells = R.cells) :
    R.IsPlain ∧ R.kind.capabilities.byAction9 = true := by
  cases h with
  | assignment pos plan => exact absurd hcells (cons_ne_nil _ _)
  | table hne =>
    obtain ⟨pos, body⟩ := R
    cases body <;> first | exact ⟨trivial, rfl⟩ | exact absurd rfl hne

theorem Patched.tidy (h : Patched rs) (hdetached : ¬named → AllDetached rs) : Tidy named rs := by
  suffices hall : Tidy True rs from ⟨hall.attended, hall.straight, hdetached⟩
  clear hdetached
  induction h with
  | nil => exact .nil
  | @text R rs htext _ ih =>
    obtain ⟨feature, lang, id, text, hbody⟩ := htext
    have halone : R.IsAlone ∧ R.IsPlain := by
      simp_all [Record.IsAlone, Record.IsPlain]
    have hhead : Tidy True [R] := .of_alone (by simpa using halone) fun h => absurd trivial h
    exact hhead.append ih
  | computation pos _ _ ih => exact (tidy_planned _).append ih
  | @table R rs h _ ih =>
    have hplain := isPlain_of_table h rfl
    exact Tidy.append ⟨.withPatches h, .withPatches hplain.1 hplain.2 _, fun h => absurd trivial h⟩ ih

/-! ## Sprites -/

theorem realSprite_kind (name : String) : Yields (realSprite name pos) fun r => r.kind = .realSprite := by
  refine .after fun c => ?_
  cases c.sprites with
  | none => exact .fail
  | some sprites => exact .after fun _ => .after fun _ => .pure rfl

theorem realSprites_areSprites (names : List String) : Yields (realSprites names pos) (AreSprites names.length) := by
  intro c rs c' h
  have hmade := Yields.mapM_zipIdx (T := fun _ r => r.kind = .realSprite) (fun x => realSprite_kind x.1) names c rs c' h
  have hall := Yields.mapM_all (Q := (·.kind = .realSprite)) (fun x => realSprite_kind x.1) names.zipIdx c rs c' h
  exact ⟨hmade.length_eq.symm, hall⟩

theorem lowerSets_areSprites {count i : Nat} {names : List (String × Nat)} (sets : List SpriteSet) :
    Yields (lowerSets count pos names i sets) fun x => AreSprites (sets.length * count) x.1 := by
  induction sets generalizing names i with
  | nil => exact .pure ⟨by simp, by simp⟩
  | cons set sets ih =>
    refine Yields.failIf.bind fun _ hcount => .after fun _ => ?_
    have hlength : set.sprites.length = count := by simpa using hcount
    refine (realSprites_areSprites set.sprites).bind fun sprites hsprites => ih.bind fun x hx => .pure ?_
    have hall := hsprites.append hx
    simp_all [Nat.add_mul, Nat.add_comm]

theorem lowerSpriteSets_tidy (sets : List SpriteSet) : Yields (lowerSpriteSets feature sets pos) (Tidy named) := by
  refine .after fun _ => .after fun _ => .after fun _ => .after fun _ => ?_
  exact (lowerSets_areSprites sets).bind fun x hx => .after fun _ => .pure (.sprites trivial trivial hx hx)

theorem lowerReplace_yields (blocks : List ReplaceBlock) : Yields (lowerReplace blocks pos) fun rs =>
    ∃ ranges sprites, rs = ⟨pos, .rangeReplace ranges⟩ :: sprites ∧ AreSprites (ranges.map Prod.fst).sum sprites := by
  have hblock : ∀ (block : ReplaceBlock) (pos : Position),
      Yields (lowerBlock block pos) fun x => AreSprites x.1.1 x.2 := fun block pos =>
    .after fun _ => .after fun _ => (realSprites_areSprites block.sprites).bind fun _ h => .pure h
  refine .after fun _ => (Yields.mapM_all (fun x => hblock _ _) _).bind fun lowered hlowered =>
    .pure ⟨_, _, rfl, ?_⟩
  induction lowered with
  | nil => exact ⟨rfl, by simp⟩
  | cons x lowered ih =>
    rw [forall_mem_cons] at hlowered
    exact hlowered.1.append (ih hlowered.2)

theorem lowerReplace_tidy (blocks : List ReplaceBlock) : Yields (lowerReplace blocks pos) (Tidy named) := by
  intro c rs c' hok
  obtain ⟨ranges, sprites, rfl, hsprites⟩ := lowerReplace_yields blocks c rs c' hok
  exact .sprites trivial trivial hsprites hsprites

/-! ## Other declarations -/

theorem operandParam_tidy (named : Prop) {e : Expr} : Yields (operandParam e pos) fun x => Tidy named x.1 := by
  intro c x c' h
  grind [operandParam_planned, tidy_planned]

theorem lowerMessage_tidy (m : Message) : Yields (lowerMessage m) (Tidy named) := by
  rw [lowerMessage_eq]
  refine .after fun _ => (Yields.mapM_all (fun x => operandParam_tidy named) _).bind fun params hparams => ?_
  refine (messageRecords_yields m _).bind fun records hrecords => .pure ((Tidy.flatMap hparams).append ?_)
  refine .of_alone (fun r hr => ?_) fun _ r hr => ?_
  all_goals obtain ⟨lang, msgId, custom, rfl, -⟩ := hrecords r hr
  · exact ⟨trivial, trivial⟩
  · trivial

theorem lowerDeactivate_yields (ids : List String) :
    Yields (lowerDeactivate ids pos) fun rs => ∃ ids, rs = [⟨pos, .deactivation ids⟩] ∧
      ∀ id ∈ ids, ∃ s pos, GrfId.parse s pos = .ok id := by
  refine (Yields.mapM_all (Q := fun id => ∃ s pos, GrfId.parse s pos = .ok id) (fun x => ?_) _).bind fun ids hids => ?_
  · intro c id c' hok
    exact ⟨_, _, (lift_eq_ok.mp hok).1⟩
  · intro c rs c' hok
    obtain ⟨r, hr, rfl⟩ := bind_pure_eq_ok.mp hok
    obtain ⟨hr, -⟩ := lift_eq_ok.mp hr
    unfold deactivation at hr
    split at hr
    · cases hr
    · obtain rfl := Except.ok.inj hr
      exact ⟨ids, rfl, hids⟩

theorem lowerCondition_attended (cond : Expr) : Yields (lowerCondition cond pos) fun x => Attended x.1 := by
  obtain ⟨condition, message, size, code, value, -, heq⟩ := lowerCondition_eq cond pos
  rw [heq]
  exact .after fun _ => (operandParam_tidy True).bind fun _ hx => .pure hx.attended

theorem framed_yields {m : Lowering (List Record)} {P : List Record → Prop}
    (h : Yields m P) : Yields (framed d m) P := by
  intro c rs c' hok
  obtain ⟨d', hbody, -⟩ := bracket_eq_ok.mp hok
  obtain ⟨_, d'', -, hbody⟩ := bind_eq_ok.mp hbody
  exact h d'' rs d' hbody

theorem PropertiesPlanned.detached {id : Int} {props : List Property}
    (h : PropertiesPlanned feature id props pos rs) : AllDetached rs := by
  obtain ⟨lowered, hlowered, rfl⟩ := h
  have hall := exists_loweredAs hlowered
  refine forall_mem_append.mpr ⟨forall_mem_append.mpr ⟨fun r hr => ?_, fun r hr => ?_⟩,
    AllDetached.withPatches (r := ⟨pos, .propertyTable feature id _⟩) trivial _⟩
  all_goals
    obtain ⟨p, hp, hr⟩ := mem_flatMap.mp hr
    obtain ⟨pos, prop, steps, hp⟩ := hall p hp
  · exact (hp.texts r hr).detached
  · exact allDetached_planned steps r (hp.computations ▸ hr)

/-- **Declarations make what belongs to a record right behind it**, and no control flow. -/
theorem lower_tidy (hd : d.IsSimple) : Yields d.lower (Tidy d.HasNames) := by
  have alone : ∀ {named : Prop} {r : Record}, r.IsAlone → r.IsPlain → (¬named → r.Detached) →
      Tidy named [r] := fun halone hplain hdetached =>
    .of_alone (by simpa using ⟨halone, hplain⟩) fun hnamed => by simpa [AllDetached] using hdetached hnamed
  cases d with
  | properties feature id props pos =>
    refine framed_yields fun c rs c' h => ?_
    rcases lowerProperties_planned c rs c' h with ⟨-, rfl⟩ | hplanned
    · exact .nil
    · exact hplanned.patched.tidy fun _ => hplanned.detached
  | spriteSets feature sets pos => exact framed_yields (lowerSpriteSets_tidy sets)
  | spriteGroup group =>
    exact framed_yields (.after fun _ => .after fun _ => .after fun _ => .after fun _ =>
      .after fun _ => .after fun _ => .pure (alone trivial trivial fun h => absurd trivial h))
  | switch table =>
    exact framed_yields fun c rs c' h => (lowerSwitch_patched table c rs c' h).tidy fun h => absurd trivial h
  | graphics table =>
    exact framed_yields (.after fun _ => .after fun _ => .after fun _ => .after fun _ =>
      .after fun _ => .after fun _ => .pure (alone trivial trivial fun h => absurd trivial h))
  | message m => exact framed_yields (lowerMessage_tidy m)
  | assign param value pos =>
    refine framed_yields fun c rs c' h => ?_
    obtain ⟨steps, rfl⟩ := lowerAssignment_planned h
    exact tidy_planned steps
  | conditional => exact hd.elim
  | loop => exact hd.elim
  | deactivate ids pos =>
    refine framed_yields fun c rs c' h => ?_
    obtain ⟨ids, rfl, -⟩ := lowerDeactivate_yields ids c rs c' h
    exact alone trivial trivial fun _ => trivial
  | replace blocks pos => exact framed_yields (lowerReplace_tidy blocks)

theorem lower_detached (hd : d.IsSimple) (hnames : ¬d.HasNames) : Detached d.lower AllDetached := by
  obtain ⟨m, heq, hm⟩ := @lower_program_of_simple Effect.unnamed d hd
    (fun _ => by simp [Effect.unnamed]) fun h => absurd h hnames
  exact .of_program (heq ▸ hm.withTemps (by simp [Effect.unnamed])) fun c rs c' h => (lower_tidy hd c rs c' h).detached hnames

end Lowering

end Grf
