import Grf.Declaration.Basic
import Grf.Proofs.Skip.Block

/-! # Scaffolds

A scaffold is the structure in which lowered declarations stand: the records of each declaration, the computations of
conditions, the guards around a branch, the label and the jump of a loop. `Scaffold.elements` puts everything in its
order. Its elements can be of any type, so they can be numbered to tell equal records apart (`Scaffold.nodup_number`).
-/

namespace Grf

open List Block Guard

variable {α β : Type} {w : Wrap α} {ws : List (Wrap α)}

/-- The structure of lowered declarations. -/
inductive Scaffold (α : Type)
  | done
  /-- What a declaration that holds no others is lowered to. -/
  | leaf (decl : Declaration) (xs : List α)
  | append (first second : Scaffold α)
  /-- The branches of a conditional, after what tells that none has been taken. -/
  | chain (start : α) (arms : Scaffold α)
  /-- A branch with a condition, and the branches after it. First comes what computes the condition, and
  `mark` tells the other branches that this one is taken. The guard `inner` leaves the branch out if the
  condition is false, and `outer` does so if a branch before it has been taken. -/
  | branch (cond : Expr) (before mark : List α) (inner : Guard α) (outer : Option (Guard α)) (body rest : Scaffold α)
  /-- A last branch without a condition, which is left out if a branch before it has been taken. -/
  | last (guard : Guard α) (body : Scaffold α)
  /-- A loop. The guard leaves out the body and the jump if the condition is false. -/
  | loop (cond : Expr) (label : α) (before : List α) (guard : Option (Guard α)) (body : Scaffold α) (jump : α)

namespace Scaffold

def elements : Scaffold α → List α
  | done => []
  | leaf _ xs => xs
  | append first second => first.elements ++ second.elements
  | chain start arms => start :: arms.elements
  | branch _ before mark inner outer body rest =>
    aroundOr outer (before ++ inner.around (mark ++ body.elements)) ++ rest.elements
  | last g body => g.around body.elements
  | loop _ label before g body jump => label :: (before ++ aroundOr g (body.elements ++ [jump]))

def own : Scaffold α → List α
  | done => []
  | leaf _ xs => xs
  | append first second => first.own ++ second.own
  | chain start arms => start :: arms.own
  | branch _ before mark _ _ body rest => before ++ mark ++ body.own ++ rest.own
  | last _ body => body.own
  | loop _ _ before _ body _ => before ++ body.own

def wraps : Scaffold α → List (Wrap α)
  | done => []
  | leaf _ _ => []
  | append first second => first.wraps ++ second.wraps
  | chain _ arms => arms.wraps
  | branch _ _ _ inner outer body rest => inner.wraps ++ wrapsOf outer ++ body.wraps ++ rest.wraps
  | last g body => g.wraps ++ body.wraps
  | loop _ _ _ g body _ => wrapsOf g ++ body.wraps

def loops : Scaffold α → List (α × α)
  | done => []
  | leaf _ _ => []
  | append first second => first.loops ++ second.loops
  | chain _ arms => arms.loops
  | branch _ _ _ _ _ body rest => body.loops ++ rest.loops
  | last _ body => body.loops
  | loop _ label _ _ body jump => (jump, label) :: body.loops

end Scaffold

def Spans (ws : List (Wrap α)) (xs : List α) : Prop := (ws.map Wrap.length).sum = xs.length

theorem Spans.drop {xs : List α} (h : Spans (w :: ws) xs) : Spans ws (xs.drop w.length) := by
  have hlength : w.length + (ws.map Wrap.length).sum = xs.length := h
  show _ = (xs.drop w.length).length
  rw [length_drop]
  omega

namespace Scaffold

/-- Whether all guards of a scaffold are made for the lists they are put around. -/
def Fits : Scaffold α → Prop
  | done => True
  | leaf _ _ => True
  | append first second => first.Fits ∧ second.Fits
  | chain _ arms => arms.Fits
  | branch _ before mark inner outer body rest =>
    Spans inner.wraps (mark ++ body.elements) ∧
      (∀ g ∈ outer, Spans g.wraps (before ++ inner.around (mark ++ body.elements))) ∧ body.Fits ∧ rest.Fits
  | last g body => Spans g.wraps body.elements ∧ body.Fits
  | loop _ _ _ g body jump => (∀ g' ∈ g, Spans g'.wraps (body.elements ++ [jump])) ∧ body.Fits

end Scaffold

/-! ## Padding -/

/-- The second list is the first one, with elements that have the property `P` inserted. -/
inductive Pads (P : α → Prop) : List α → List α → Prop
  | nil : Pads P [] []
  | keep {x : α} {xs ys : List α} (h : Pads P xs ys) : Pads P (x :: xs) (x :: ys)
  | insert {y : α} {xs ys : List α} (hy : P y) (h : Pads P xs ys) : Pads P xs (y :: ys)

namespace Pads

variable {P Q : α → Prop} {xs xs' ys ys' : List α} {x y : α}

theorem refl (xs : List α) : Pads P xs xs := by
  induction xs with
  | nil => exact .nil
  | cons x xs ih => exact .keep ih

theorem append (h : Pads P xs ys) (h' : Pads P xs' ys') : Pads P (xs ++ xs') (ys ++ ys') := by
  induction h with
  | nil => exact h'
  | keep _ ih => exact .keep ih
  | insert hy _ ih => exact .insert hy ih

theorem trans {zs : List α} (h : Pads P xs ys) (h' : Pads P ys zs) : Pads P xs zs := by
  induction h' generalizing xs with
  | nil => exact h
  | keep _ ih =>
    cases h with
    | keep h => exact .keep (ih h)
    | insert hy h => exact .insert hy (ih h)
  | insert hy _ ih => exact .insert hy (ih h)

theorem mono (h : Pads P xs ys) (hsub : ∀ x, P x → Q x) : Pads Q xs ys := by
  induction h with
  | nil => exact .nil
  | keep _ ih => exact .keep ih
  | insert hy _ ih => exact .insert (hsub _ hy) ih

theorem of_forall (h : ∀ y ∈ ys, P y) : Pads P [] ys := by
  induction ys with
  | nil => exact .nil
  | cons y ys ih =>
    rw [forall_mem_cons] at h
    exact .insert h.1 (ih h.2)

theorem front (h : ∀ y ∈ ys, P y) : Pads P xs (ys ++ xs) := (of_forall h).append (.refl xs)

theorem back (h : P y) : Pads P xs (xs ++ [y]) := by
  have hback := (refl xs).append (.insert h .nil)
  rwa [append_nil] at hback

theorem mem (h : Pads P xs ys) (hy : y ∈ ys) : y ∈ xs ∨ P y := by
  induction h with
  | nil => exact .inl hy
  | keep _ ih =>
    rcases mem_cons.mp hy with rfl | hy
    · exact .inl mem_cons_self
    · exact (ih hy).imp_left (mem_cons_of_mem _)
  | insert hz _ ih =>
    rcases mem_cons.mp hy with rfl | hy
    · exact .inr hz
    · exact ih hy

theorem sublist (h : Pads P xs ys) : Sublist xs ys := by
  induction h with
  | nil => exact Sublist.refl []
  | keep _ ih => exact ih.cons_cons _
  | insert _ _ ih => exact ih.cons _

theorem filter_eq (h : Pads P xs ys) {q : α → Bool} (hq : ∀ y, P y → q y = false) : ys.filter q = xs.filter q := by
  induction h with
  | nil => rfl
  | keep _ ih => simp only [filter_cons, ih]
  | insert hy _ ih => rw [filter_cons, hq _ hy, ih]; simp

theorem of_append (h : Pads P (xs ++ xs') ys) : ∃ zs zs', ys = zs ++ zs' ∧ Pads P xs zs ∧ Pads P xs' zs' := by
  induction xs generalizing ys with
  | nil => exact ⟨[], ys, rfl, .nil, h⟩
  | cons x xs ih =>
    generalize hall : x :: xs ++ xs' = all at h
    induction h with
    | nil => cases hall
    | keep h _ =>
      obtain ⟨rfl, rfl⟩ := List.cons.inj hall
      obtain ⟨zs, zs', rfl, hzs, hzs'⟩ := ih h
      exact ⟨_ :: zs, zs', rfl, .keep hzs, hzs'⟩
    | insert hy _ ih' =>
      obtain ⟨zs, zs', rfl, hzs, hzs'⟩ := ih' hall
      exact ⟨_ :: zs, zs', rfl, .insert hy hzs, hzs'⟩

theorem of_cons (h : Pads P (x :: xs) ys) : ∃ zs zs', ys = zs ++ x :: zs' ∧ Pads P [] zs ∧ Pads P xs zs' := by
  generalize hall : x :: xs = all at h
  induction h with
  | nil => cases hall
  | keep h _ =>
    obtain ⟨rfl, rfl⟩ := List.cons.inj hall
    exact ⟨[], _, rfl, .nil, h⟩
  | insert hy _ ih =>
    obtain ⟨zs, zs', rfl, hzs, hzs'⟩ := ih hall
    exact ⟨_ :: zs, zs', rfl, .insert hy hzs, hzs'⟩

theorem of_split {pre post : List α} (h : Pads P xs (pre ++ y :: post)) :
    (∃ pre' post', xs = pre' ++ y :: post' ∧ Pads P pre' pre) ∨
      (P y ∧ ∃ pre' post', xs = pre' ++ post' ∧ Pads P pre' pre) := by
  induction pre generalizing xs with
  | nil =>
    cases h with
    | keep h => exact .inl ⟨[], _, rfl, .nil⟩
    | insert hy h => exact .inr ⟨hy, [], xs, rfl, .nil⟩
  | cons z pre ih =>
    cases h with
    | keep h =>
      rcases ih h with ⟨pre', post', rfl, hpre⟩ | ⟨hy, pre', post', rfl, hpre⟩
      · exact .inl ⟨z :: pre', post', rfl, .keep hpre⟩
      · exact .inr ⟨hy, z :: pre', post', rfl, .keep hpre⟩
    | insert hz h =>
      rcases ih h with ⟨pre', post', rfl, hpre⟩ | ⟨hy, pre', post', rfl, hpre⟩
      · exact .inl ⟨pre', post', rfl, .insert hz hpre⟩
      · exact .inr ⟨hy, pre', post', rfl, .insert hz hpre⟩

end Pads

def InsertedBy (ws : List (Wrap α)) (x : α) : Prop := ∃ w ∈ ws, x ∈ w.inserted

theorem pads_wrapAll {xs : List α} (h : Spans ws xs) : Pads (InsertedBy ws) xs (wrapAll ws xs) := by
  induction ws generalizing xs with
  | nil =>
    have hnil : xs = [] := length_eq_zero_iff.mp h.symm
    rw [hnil]
    exact .nil
  | cons w ws ih =>
    have hinserted : ∀ y ∈ w.skip.toList ++ w.label.toList, InsertedBy (w :: ws) y := fun y hy => ⟨w, mem_cons_self, hy⟩
    rw [forall_mem_append] at hinserted
    have hrun : Pads (InsertedBy (w :: ws)) (xs.take w.length) (w.apply (xs.take w.length)) := by
      have hparts := ((Pads.of_forall hinserted.1).append (.refl (xs.take w.length))).append (.of_forall hinserted.2)
      rwa [nil_append, append_nil] at hparts
    have htail : Pads (InsertedBy (w :: ws)) (xs.drop w.length) (wrapAll ws (xs.drop w.length)) :=
      (ih h.drop).mono fun y ⟨w', hw', hy⟩ => ⟨w', mem_cons_of_mem _ hw', hy⟩
    have hboth := hrun.append htail
    rwa [take_append_drop] at hboth

theorem pads_aroundOr {g : Option (Guard α)} {xs : List α} (h : ∀ g' ∈ g, Spans g'.wraps xs) :
    Pads (InsertedBy (wrapsOf g)) xs (aroundOr g xs) := by
  cases g with
  | none => exact .refl xs
  | some g => exact pads_wrapAll (h g rfl)

/-! ## What is inside of wraps -/

theorem wrapAll_perm {xs : List α} (h : Spans ws xs) : (wrapAll ws xs).Perm (ws.flatMap (·.inserted) ++ xs) := by
  have hperm := wrapAll_perm_take ws xs
  rwa [show (ws.map Wrap.length).sum = xs.length from h, take_length] at hperm

theorem pair_sublist_wrapAll {skip label : α} (hw : w ∈ ws) (hskip : w.skip = some skip)
    (hlabel : w.label = some label) (xs : List α) : Sublist [skip, label] (wrapAll ws xs) := by
  induction ws generalizing xs with
  | nil => cases hw
  | cons w' ws ih =>
    rcases mem_cons.mp hw with rfl | hw
    · have hpair : Sublist [skip, label] (w.apply (xs.take w.length)) := by
        grind [Wrap.apply]
      exact hpair.trans (sublist_append_left _ _)
    · exact (ih hw _).trans (sublist_append_right _ _)

theorem mem_aroundOr {g : Option (Guard α)} {xs : List α} {x : α} (h : x ∈ aroundOr g xs) :
    x ∈ xs ∨ ∃ w ∈ wrapsOf g, x ∈ w.inserted := by
  cases g with
  | none => exact .inl h
  | some g => exact mem_wrapAll h

namespace Scaffold

theorem mem_elements {s : Scaffold α} {x : α} (h : x ∈ s.elements) :
    x ∈ s.own ∨ (∃ w ∈ s.wraps, x ∈ w.inserted) ∨ ∃ p ∈ s.loops, x = p.1 ∨ x = p.2 := by
  induction s with
  | done => cases h
  | leaf decl xs => exact .inl h
  | append first second ih ih' =>
    rcases mem_append.mp h with h | h
    · simp only [own, wraps, loops, mem_append]
      grind
    · simp only [own, wraps, loops, mem_append]
      grind
  | chain start arms ih =>
    rcases mem_cons.mp h with rfl | h
    · exact .inl mem_cons_self
    · simp only [own, wraps, loops, mem_cons]
      grind
  | branch cond before mark inner outer body rest ih ih' =>
    have hcases : x ∈ before ∨ x ∈ mark ∨ x ∈ body.elements ∨ x ∈ rest.elements ∨
        ∃ w ∈ inner.wraps ++ wrapsOf outer, x ∈ w.inserted := by
      rcases mem_append.mp h with h | h
      · rcases mem_aroundOr h with h | h
        · rcases mem_append.mp h with h | h
          · exact .inl h
          · have := mem_wrapAll h
            grind
        · grind
      · grind
    simp only [own, wraps, loops, mem_append]
    grind
  | last g body ih =>
    have := mem_wrapAll h
    simp only [own, wraps, loops, mem_append]
    grind
  | loop cond label before g body jump ih =>
    have hcases : x = label ∨ x = jump ∨ x ∈ before ∨ x ∈ body.elements ∨ ∃ w ∈ wrapsOf g, x ∈ w.inserted := by
      rcases mem_cons.mp h with h | h
      · exact .inl h
      · rcases mem_append.mp h with h | h
        · exact .inr (.inr (.inl h))
        · have := mem_aroundOr h
          grind
    rcases hcases with rfl | rfl | hrest
    · exact .inr (.inr ⟨_, mem_cons_self, .inr rfl⟩)
    · exact .inr (.inr ⟨_, mem_cons_self, .inl rfl⟩)
    · simp only [own, wraps, loops, mem_append, mem_cons]
      grind

/-- In `xs`, the skips of the wraps stand before their labels, and the labels of the loops before their jumps. -/
def PairsIn (ws : List (Wrap α)) (loops : List (α × α)) (xs : List α) : Prop :=
  (∀ w ∈ ws, ∀ skip label, w.skip = some skip → w.label = some label → List.Sublist [skip, label] xs) ∧
    ∀ p ∈ loops, List.Sublist [p.2, p.1] xs

section PairsIn

variable {ws' : List (Wrap α)} {loops loops' : List (α × α)} {xs ys : List α}

theorem PairsIn.mono (h : PairsIn ws loops xs) (hxs : Sublist xs ys) : PairsIn ws loops ys :=
  ⟨fun w hw skip label hskip hlabel => (h.1 w hw skip label hskip hlabel).trans hxs, fun p hp => (h.2 p hp).trans hxs⟩

theorem PairsIn.append (h : PairsIn ws loops xs) (h' : PairsIn ws' loops' xs) :
    PairsIn (ws ++ ws') (loops ++ loops') xs :=
  ⟨forall_mem_append.mpr ⟨h.1, h'.1⟩, forall_mem_append.mpr ⟨h.2, h'.2⟩⟩

theorem pairsIn_aroundOr (g : Option (Guard α)) (xs : List α) : PairsIn (wrapsOf g) [] (aroundOr g xs) := by
  refine ⟨fun w hw skip label hskip hlabel => ?_, by simp⟩
  cases g with
  | none => cases hw
  | some g => exact pair_sublist_wrapAll hw hskip hlabel _

end PairsIn

theorem pairsIn_elements {s : Scaffold α} (hs : s.Fits) : PairsIn s.wraps s.loops s.elements := by
  induction s with
  | done | leaf => exact ⟨by simp [wraps], by simp [loops]⟩
  | append first second ih ih' =>
    exact ((ih hs.1).mono (sublist_append_left ..)).append ((ih' hs.2).mono (sublist_append_right ..))
  | chain start arms ih => exact (ih hs).mono (sublist_cons_self ..)
  | branch cond before mark inner outer body rest ih ih' =>
    obtain ⟨hinner, houter, hbody, hrest⟩ := hs
    have hwhole : Sublist (aroundOr outer (before ++ inner.around (mark ++ body.elements)))
        (branch cond before mark inner outer body rest).elements := sublist_append_left ..
    have hinside := ((sublist_append_right before _).trans (pads_aroundOr houter).sublist).trans hwhole
    have hbodyInside := ((sublist_append_right mark _).trans (pads_wrapAll hinner).sublist).trans hinside
    exact ((((pairsIn_aroundOr (some inner) _).mono hinside).append ((pairsIn_aroundOr outer _).mono hwhole)).append
      ((ih hbody).mono hbodyInside)).append ((ih' hrest).mono (sublist_append_right ..))
  | last g body ih => exact (pairsIn_aroundOr (some g) _).append ((ih hs.2).mono (pads_wrapAll hs.1).sublist)
  | loop cond label before g body jump ih =>
    have hinside := (pads_aroundOr hs.1).sublist.trans (sublist_append_right before _)
    have hbody := ((sublist_append_left body.elements [jump]).trans hinside).cons label
    obtain ⟨hwraps, hloops⟩ := ((pairsIn_aroundOr g (body.elements ++ [jump])).mono
      ((sublist_append_right before _).cons label)).append ((ih hs.2).mono hbody)
    exact ⟨hwraps, forall_mem_cons.mpr
      ⟨((sublist_append_right body.elements [jump]).trans hinside).cons_cons label, hloops⟩⟩

end Scaffold

namespace Scaffold

def map (f : α → β) : Scaffold α → Scaffold β
  | done => done
  | leaf decl xs => leaf decl (xs.map f)
  | append first second => append (first.map f) (second.map f)
  | chain start arms => chain (f start) (arms.map f)
  | branch cond before mark inner outer body rest =>
    branch cond (before.map f) (mark.map f) (inner.map f) (outer.map (·.map f)) (body.map f) (rest.map f)
  | last g body => last (g.map f) (body.map f)
  | loop cond label before g body jump =>
    loop cond (f label) (before.map f) (g.map (·.map f)) (body.map f) (f jump)

variable (f : α → β) (s : Scaffold α)

theorem around_map (g : Guard α) (xs : List α) : (g.map f).around (xs.map f) = (g.around xs).map f :=
  wrapAll_map f g.wraps xs

theorem aroundOr_map (g : Option (Guard α)) (xs : List α) :
    aroundOr (g.map (·.map f)) (xs.map f) = (aroundOr g xs).map f := by
  cases g with
  | none => rfl
  | some g => exact around_map f g xs

theorem elements_map : (s.map f).elements = s.elements.map f := by
  induction s with
  | done => rfl
  | leaf decl xs => rfl
  | append first second ih ih' => simp [map, elements, ih, ih']
  | chain start arms ih => simp [map, elements, ih]
  | branch cond before mark inner outer body rest ih ih' =>
    simp only [map, elements, ih, ih', ← map_append, around_map, aroundOr_map]
  | last g body ih => simp only [map, elements, ih, around_map]
  | loop cond label before g body jump ih =>
    have hjump : body.elements.map f ++ [f jump] = (body.elements ++ [jump]).map f := by simp
    grind [map, elements, aroundOr_map]

theorem own_map : (s.map f).own = s.own.map f := by
  induction s <;> simp_all [map, own]

theorem wraps_map : (s.map f).wraps = s.wraps.map (·.map f) := by
  have hwraps : ∀ g : Option (Guard α), wrapsOf (g.map (·.map f)) = (wrapsOf g).map (·.map f) := by
    intro g
    cases g <;> rfl
  induction s <;> simp_all [map, wraps, Guard.map]

theorem loops_map : (s.map f).loops = s.loops.map fun p => (f p.1, f p.2) := by
  induction s <;> simp_all [map, loops]

theorem spans_map (g : Guard α) (xs : List α) : Spans (g.map f).wraps (xs.map f) ↔ Spans g.wraps xs := by
  have hlengths : (g.map f).wraps.map Wrap.length = g.wraps.map Wrap.length := by
    simp [Guard.map, Wrap.map, Function.comp_def]
  rw [Spans, Spans, hlengths, length_map]

theorem fits_map : (s.map f).Fits ↔ s.Fits := by
  have hor : ∀ (g : Option (Guard α)) (xs : List α),
      (∀ g' ∈ g.map (·.map f), Spans g'.wraps (xs.map f)) ↔ ∀ g' ∈ g, Spans g'.wraps xs := by
    simp [spans_map]
  induction s with
  | done => rfl
  | leaf decl xs => rfl
  | append first second ih ih' => exact and_congr ih ih'
  | chain start arms ih => exact ih
  | branch cond before mark inner outer body rest ih ih' =>
    simp only [map, Fits, elements_map, ← map_append, around_map, spans_map, hor, ih, ih']
  | last g body ih => simp only [map, Fits, elements_map, spans_map, ih]
  | loop cond label before g body jump ih =>
    have hjump : body.elements.map f ++ [f jump] = (body.elements ++ [jump]).map f := by simp
    simp only [map, Fits, elements_map, hjump, hor, ih]

end Scaffold

/-! ## Numbering -/

def Block.guardOr (g : Option (Guard α)) (b : Block α) : Block α :=
  match g with
  | none => b
  | some g => .guard g.wraps b

theorem Block.flatten_guardOr (g : Option (Guard α)) (b : Block α) :
    (guardOr g b).flatten = aroundOr g b.flatten := by
  cases g <;> rfl

namespace Scaffold

def block : Scaffold α → Block α
  | done => .leaf []
  | leaf _ xs => .leaf xs
  | append first second => .append first.block second.block
  | chain start arms => .append (.leaf [start]) arms.block
  | branch _ before mark inner outer body rest =>
    .append (.guardOr outer (.append (.leaf before) (.guard inner.wraps (.append (.leaf mark) body.block)))) rest.block
  | last g body => .guard g.wraps body.block
  | loop _ label before g body jump =>
    .append (.leaf (label :: before)) (.guardOr g (.append body.block (.leaf [jump])))

theorem flatten_block (s : Scaffold α) : s.block.flatten = s.elements := by
  induction s <;> simp_all [block, Block.flatten, flatten_guardOr, elements, around]

def afterGuard (g : Option (Guard α)) (n : Nat) : Nat := n + 2 * (wrapsOf g).length

def numberGuard (g : Guard α) (n : Nat) : Guard (α × Nat) := ⟨g.test, numberWraps g.wraps n⟩

/-- The scaffold with its elements numbered from `n` on. -/
def number : Scaffold α → Nat → Scaffold (α × Nat)
  | done, _ => done
  | leaf decl xs, n => leaf decl (xs.zipIdx n)
  | append first second, n => append (first.number n) (second.number (n + first.block.size))
  | chain start arms, n => chain (start, n) (arms.number (n + 1))
  | branch cond before mark inner outer body rest, n =>
    let atBefore := afterGuard outer n
    let atInner := atBefore + before.length
    let atMark := afterGuard (some inner) atInner
    let atBody := atMark + mark.length
    branch cond (before.zipIdx atBefore) (mark.zipIdx atMark) (numberGuard inner atInner)
      (outer.map (numberGuard · n)) (body.number atBody) (rest.number (atBody + body.block.size))
  | last g body, n => last (numberGuard g n) (body.number (afterGuard (some g) n))
  | loop cond label before g body jump, n =>
    let atGuard := n + (before.length + 1)
    let atBody := afterGuard g atGuard
    loop cond (label, n) (before.zipIdx (n + 1)) (g.map (numberGuard · atGuard))
      (body.number atBody) (jump, atBody + body.block.size)

theorem block_number (s : Scaffold α) (n : Nat) : (s.number n).block = s.block.number n := by
  have hguard : ∀ (g : Option (Guard α)) (b : Block α) (n : Nat),
      (guardOr g b).number n = guardOr (g.map (numberGuard · n)) (b.number (afterGuard g n)) := by
    intro g b n
    cases g <;> rfl
  have hsize : ∀ (g : Option (Guard α)) (b : Block α) (n : Nat), n + (guardOr g b).size = afterGuard g n + b.size := by
    intro g b n
    cases g with
    | none => rfl
    | some g => simp [guardOr, size, afterGuard, wrapsOf, Nat.add_assoc]
  induction s generalizing n with
  | done => rfl
  | leaf decl xs => rfl
  | append first second ih ih' => simp only [number, block, Block.number, ih, ih']
  | chain start arms ih => simp [number, block, Block.number, size, ih]
  | branch cond before mark inner outer body rest ih ih' =>
    simp_all [number, block, Block.number, size, numberGuard, afterGuard, wrapsOf, Nat.add_assoc]
  | last g body ih => simp only [number, block, Block.number, ih, numberGuard, afterGuard, wrapsOf]
  | loop cond label before g body jump ih => simp [number, block, Block.number, hguard, size, ih]

theorem map_number (s : Scaffold α) (n : Nat) : (s.number n).map Prod.fst = s := by
  have hwraps : ∀ (ws : List (Wrap α)) (n : Nat), (numberWraps ws n).map (·.map Prod.fst) = ws := by
    intro ws n
    have hguard := Block.map_number (.guard ws (.leaf [])) n
    exact (guard.inj hguard).1
  have hguard : ∀ (g : Guard α) (n : Nat), (numberGuard g n).map Prod.fst = g := by
    intro g n
    simp [Guard.map, numberGuard, hwraps]
  have hor : ∀ (g : Option (Guard α)) (n : Nat), (g.map (numberGuard · n)).map (·.map Prod.fst) = g := by
    intro g n
    cases g <;> simp [hguard]
  induction s generalizing n <;> simp_all [number, map]

/-- **No number occurs twice.** -/
theorem nodup_number (s : Scaffold α) (n : Nat) : (s.number n).elements.Nodup := by
  rw [← flatten_block, block_number]
  exact s.block.nodup_number n

theorem elements_number (s : Scaffold α) (n : Nat) : (s.number n).elements.map Prod.fst = s.elements := by
  rw [← elements_map, map_number]

theorem fits_number {s : Scaffold α} (h : s.Fits) (n : Nat) : (s.number n).Fits := by
  rw [← fits_map Prod.fst, map_number]
  exact h

end Scaffold

end Grf
