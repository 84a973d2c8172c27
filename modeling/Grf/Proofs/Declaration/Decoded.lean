import Grf.Declaration.Decode
import Grf.Proofs.Table.Drafts

/-! # Expressions of declaration files

An expression that has been read from a document holds no scratch slots, and the shifts of its variables can be
written (`Node.toExpr_decodes`). This holds of all expressions of the switches of a file, wherever they stand
in it (`Node.toFile_decodes`).
-/

namespace Grf

open List Declaration

/-- The result of a decoding, if there is one, has the property `P`. -/
def Decodes {α : Type} (x : Except Failure α) (P : α → Prop) : Prop := ∀ a, x = .ok a → P a

namespace Decodes

variable {α β : Type} {x : Except Failure α} {P : α → Prop} {Q : β → Prop}
  {f : α → Except Failure β}

theorem ok {a : α} (h : P a) : Decodes (.ok a) P := by
  rintro _ ⟨⟩
  exact h

theorem error {e : Failure} : Decodes (.error e) P := fun _ h => nomatch h

theorem bind (hx : Decodes x P) (hf : ∀ a, P a → Decodes (f a) Q) : Decodes (x >>= f) Q := by
  intro b hb
  obtain ⟨a, ha, hb⟩ := except_bind_eq_ok hb
  exact hf a (hx a ha) b hb

theorem after (hf : ∀ a, Decodes (f a) Q) : Decodes (x >>= f) Q :=
  bind (P := fun _ => True) (fun _ _ => trivial) fun a _ => hf a

theorem map {f : α → β} (hx : Decodes x P) (hf : ∀ a, P a → Q (f a)) : Decodes (f <$> x) Q := by
  cases x with
  | error e => exact error
  | ok a => exact ok (hf a (hx a rfl))

theorem image {f : α → β} (hf : ∀ a, Q (f a)) : Decodes (f <$> x) Q :=
  map (P := fun _ => True) (fun _ _ => trivial) fun a _ => hf a

theorem mapM (as : List α) (hf : ∀ a, Decodes (f a) Q) : Decodes (as.mapM f) fun bs => ∀ b ∈ bs, Q b := by
  induction as with
  | nil => exact ok (by simp)
  | cons a as ih =>
    rw [List.mapM_cons]
    exact (hf a).bind fun b hb => ih.bind fun bs hbs => ok (forall_mem_cons.mpr ⟨hb, hbs⟩)

end Decodes

def Expr.Decoded : Expr → Prop
  | var v => v.ShiftFits
  | store _ | load _ => False
  | _ => True

/-- The expressions that are read can be lowered. Their shifts can be written in the end if there is no constant
that a shift wraps around with. -/
theorem Expr.Everywhere.declared {e : Expr} {fits : Prop} (h : e.Everywhere Expr.Decoded)
    (hfits : fits → ∀ k, .const k ∈ e.walk → k + VarRead.maxShift < 0x8000000000000000) :
    e.Everywhere (Expr.Declared fits) := by
  intro a ha
  have hdecoded := h a ha
  cases a with
  | const k => exact fun h => hfits h k ha
  | var v => exact fun _ => hdecoded
  | store n => exact hdecoded
  | load n => exact hdecoded
  | _ => trivial

/-- The expressions of a switch are as they are read from a document. -/
def Switch.Decoded (s : Switch) : Prop := ∀ e ∈ s.expressions, e.Everywhere Expr.Decoded

namespace Node

theorem varShift_decodes (n : Node) : Decodes n.varShift fun shift => 0 ≤ shift ∧ shift ≤ VarRead.maxShift := by
  refine .after fun shift => ?_
  split
  · exact .error
  · rename_i hrange
    refine .ok ?_
    simp_all

theorem leafExpr?_decodes {n : Node} {leaf : Except Failure Expr} (h : n.leafExpr? = some leaf) :
    Decodes leaf (Expr.Everywhere Expr.Decoded) := by
  have hconst : ∀ k, (Expr.const k).Everywhere Expr.Decoded := fun k => Expr.everywhere_const.mpr trivial
  unfold leafExpr? at h
  split at h
  · cases h
    exact .ok (hconst _)
  · split at h <;> cases h
    · exact .ok (hconst _)
    · exact .error
  · cases h
  · cases h
    exact .error

/-- **An expression that is read** holds no slots, and its shifts can be written. -/
theorem toExpr_decodes (n : Node) : Decodes n.toExpr (Expr.Everywhere Expr.Decoded) := by
  rw [toExpr]
  split
  · exact leafExpr?_decodes ‹_›
  split
  · refine .after fun _ => .after fun num => ?_
    extract_lets withParam
    suffices hparam : ∀ param : Option Expr, (∀ e ∈ param, e.Everywhere Expr.Decoded) →
        Decodes (withParam param) (Expr.Everywhere Expr.Decoded) by
      split
      · refine Decodes.bind ((toExpr_decodes _).map fun e he => ?_) hparam
        exact fun e' he' => Option.mem_some.mp he' ▸ he
      · exact hparam none (by simp)
    intro param hparam
    refine n.varShift_decodes.bind fun shift hshift => ?_
    -- The other fields are no parts of the expression, so it does not matter which ones there are.
    have hvar : ∀ mask add div mod,
        (Expr.var { num, param, shift, mask, add, div, mod }).Everywhere Expr.Decoded :=
      fun mask add div mod => Expr.everywhere_var.mpr ⟨hshift, hparam⟩
    extract_lets withMask
    suffices hmask : ∀ mask, Decodes (withMask mask) (Expr.Everywhere Expr.Decoded) by
      split
      · exact .after fun _ => .after hmask
      · exact hmask none
    intro mask
    unfold withMask
    extract_lets withAdd
    suffices hadd : ∀ add, Decodes (withAdd add) (Expr.Everywhere Expr.Decoded) by
      split
      · exact .after fun _ => .after hadd
      · exact hadd none
    intro add
    unfold withAdd
    extract_lets withDiv
    suffices hdiv : ∀ div, Decodes (withDiv div) (Expr.Everywhere Expr.Decoded) by
      split
      · exact .after fun _ => .after hdiv
      · exact hdiv none
    intro div
    unfold withDiv
    extract_lets withMod
    suffices hmod : ∀ mod, Decodes (withMod mod) (Expr.Everywhere Expr.Decoded) by
      split
      · exact .after fun _ => .after hmod
      · exact hmod none
    intro mod
    unfold withMod
    split
    · exact .error
    · exact .ok (hvar mask add div mod)
  split
  · exact .after fun _ => (toExpr_decodes _).bind fun number hnumber =>
      .ok (Expr.everywhere_param.mpr ⟨trivial, hnumber⟩)
  split
  · exact .after fun _ => .after fun name => .ok (List.forall_mem_singleton.mpr trivial)
  split
  · exact .after fun _ => .after fun name => .ok (List.forall_mem_singleton.mpr trivial)
  split
  · refine .after fun _ => .after fun op => ?_
    split
    · exact .error
    · exact .error
    · exact (toExpr_decodes _).bind fun left hleft => (toExpr_decodes _).bind fun right hright =>
        .ok (Expr.everywhere_binary.mpr ⟨trivial, hleft, hright⟩)
  split
  · exact .after fun _ => (toExpr_decodes _).bind fun operand hoperand =>
      .ok (Expr.everywhere_not.mpr ⟨trivial, hoperand⟩)
  · exact .error
termination_by sizeOf n
decreasing_by all_goals exact sizeOf_get?_lt ‹_›

theorem toResult_decodes (n : Node) : Decodes n.toResult (Expr.Everywhere Expr.Decoded) := by
  unfold toResult
  split
  · exact .ok (List.forall_mem_singleton.mpr trivial)
  · exact toExpr_decodes _

/-! ## Declarations -/

theorem toRange_decodes (n : Node) : Decodes n.toRange fun range => ∀ e ∈ range.result, e.Everywhere Expr.Decoded := by
  refine .after fun _ => ?_
  extract_lets result
  have hresult : ∀ bounds, Decodes (result bounds) fun range =>
      ∀ e ∈ range.result, e.Everywhere Expr.Decoded :=
    fun bounds => .after fun child => (toResult_decodes child).bind fun e he =>
      .ok fun e' he' => Option.mem_some.mp he' ▸ he
  split
  · exact .after fun v => .after hresult
  · exact .after fun min => .after fun max => .after hresult
  · exact .after hresult

theorem toSwitch_decodes (n : Node) : Decodes n.toSwitch Switch.Decoded := by
  refine .after fun _ => .after fun name => .after fun feature => .after fun related => .after fun varSize =>
    .after fun child => child.toExpr_decodes.bind fun expr hexpr => .after fun items =>
      (Decodes.mapM items toRange_decodes).bind fun ranges hranges => .after fun child' =>
        child'.toResult_decodes.bind fun default hdefault => .ok ?_
  intro e he
  simp only [Switch.expressions, Option.toList_some, mem_append, mem_cons, not_mem_nil, or_false, mem_filterMap] at he
  rcases he with (rfl | ⟨range, hrange, he⟩) | rfl
  · exact hexpr
  · exact hranges range hrange e he
  · exact hdefault

theorem toSimple?_decodes {kind : String} {n : Node} {d : Except Failure Declaration}
    (h : n.toSimple? kind = some d) : Decodes d fun d => ∀ s, .switch s ∈ d.walk → s.Decoded := by
  unfold toSimple? at h
  split at h <;> cases h
  · exact .after fun _ => .after fun _ => .after fun _ => .after fun _ => .after fun _ =>
      .ok (by simp [walk])
  · exact .after fun _ => .after fun _ => .after fun _ => .after fun _ => .ok (by simp [walk])
  · exact .image (by simp [walk])
  · grind [n.toSwitch_decodes.map, walk]
  · exact .image (by simp [walk])
  · exact .image (by simp [walk])
  · exact .after fun _ => .after fun _ => .after fun _ => .after fun _ => .after fun _ =>
      .ok (by simp [walk])
  · exact .after fun _ => .after fun _ => .ok (by simp [walk])
  · exact .after fun _ => .after fun _ => .ok (by simp [walk])

mutual

theorem toDeclarations_decodes (nodes : List Node) :
    Decodes (toDeclarations nodes) fun ds => ∀ s, .switch s ∈ walkAll ds → s.Decoded := by
  cases nodes with
  | nil =>
    rw [toDeclarations]
    exact .ok (by simp [walkAll])
  | cons n rest =>
    rw [toDeclarations]
    refine (toDeclaration_decodes n).bind fun d hd => (toDeclarations_decodes rest).bind fun ds hds => .ok ?_
    grind [walkAll]
termination_by sizeOf nodes

theorem toBody_decodes (n : Node) : Decodes n.toBody fun ds => ∀ s, .switch s ∈ walkAll ds → s.Decoded := by
  rw [toBody.eq_def]
  split
  · exact toDeclarations_decodes _
  · exact .error
termination_by sizeOf n

theorem toBranches_decodes (nodes : List Node) : Decodes (toBranches nodes) fun branches =>
      ∀ s, .switch s ∈ walkBranches branches → s.Decoded := by
  cases nodes with
  | nil =>
    rw [toBranches]
    exact .ok (by simp [walkBranches])
  | cons n rest =>
    rw [toBranches]
    refine .after fun _ => ?_
    extract_lets withCond
    suffices hcond : ∀ cond, Decodes (withCond cond) fun branches =>
        ∀ s, .switch s ∈ walkBranches branches → s.Decoded by
      split
      · exact .after hcond
      split
      · exact hcond none
      · exact .error
    intro cond
    unfold withCond
    split
    · refine (toBody_decodes _).bind fun body hbody =>
        (toBranches_decodes rest).bind fun branches hbranches => .ok fun s hs => ?_
      rw [walkBranches, mem_append] at hs
      exact hs.elim (hbody s) (hbranches s)
    · exact .error
termination_by sizeOf nodes
decreasing_by
  all_goals
    simp only [List.cons.sizeOf_spec]
    try have := sizeOf_get?_lt ‹_›
    omega

theorem toDeclaration_decodes (n : Node) : Decodes n.toDeclaration fun d => ∀ s, .switch s ∈ d.walk → s.Decoded := by
  rw [toDeclaration.eq_def]
  split
  · split
    · exact toSimple?_decodes ‹_›
    split
    · split
      · refine (toBranches_decodes _).bind fun branches hbranches => .ok fun s hs => hbranches s ?_
        simpa [walk] using hs
      · exact .error
    split
    · refine .after fun _ => .after fun child => .after fun cond => ?_
      split
      · refine (toBody_decodes _).bind fun body hbody => .ok fun s hs => hbody s ?_
        simpa [walk] using hs
      · exact .error
    · exact .error
  · exact .error
  · exact .error
termination_by sizeOf n
decreasing_by
  · have := sizeOf_get?_lt ‹_›
    simp_all
    omega
  · simp_all
    omega

end

/-- **The switches of a file**, wherever they stand, are as they are read from a document. -/
theorem toFile_decodes (root : Node) (path : String) : Decodes (root.toFile path) fun file =>
      ∀ s, .switch s ∈ walkAll file.declarations → s.Decoded := by
  refine .after fun _ => .after fun _ => .after fun header => .after fun _ => .after fun sprites =>
    .after fun _ => .after fun strings => ?_
  split
  · exact (toBody_decodes _).bind fun ds hds => .ok hds
  · exact .ok (by simp [walkAll])

end Node

end Grf
