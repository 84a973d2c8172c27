import Grf.Proofs.Lowering.Assignment

/-! # Plans of assignments

The bytes of an assignment that name its target and its first source are numbers, or a temporary parameter holds the
number. An `AssignPlan` is an assignment with such bytes: its record has zeros in their place, and its patches are the
placeholders of its cells. `Traces` says which steps compute an expression, and each of them has a plan. The records that
a lowering makes are those of steps (`operandParam_steps`, `lowerAssignment_steps`).
-/

namespace Grf

open List AssignRecord Word Params

/-- The sources that are read. Without an operation there is only one. -/
def AssignRecord.sources (a : AssignRecord) : List Int := if a.op = 0 then [a.src1] else [a.src1, a.src2]

/-- A byte of an assignment: a number, or the value of a parameter. -/
inductive AssignByte
  | known (number : Int)
  | held (param : Int)

namespace AssignByte

def number : AssignByte → Int
  | known number => number
  | held _ => 0

/-- The number that a byte stands for in a state of the parameters. -/
def numberIn (p : Params) : AssignByte → Int
  | known number => number
  | held param => p.byte param

def cell : AssignByte → Cell
  | known _ => ⟨1, none⟩
  | held param => ⟨1, some param⟩

def patches (b : AssignByte) (offset : Int) : List Patch := placeholders offset [b.cell]

theorem written {b : AssignByte} {cells : List Cell} {ts : List Token} (h : Written cells [] ts) :
    Written (b.cell :: cells) [] (Token.byteOf b.number :: ts) := by
  cases b with
  | known number => exact h.byte
  | held param =>
    have hzero : ∀ b ∈ (Token.byteOf 0).bytes, b = 0 := by decide +kernel
    exact ⟨.cons rfl (fun _ => hzero) h.spells, h.comments⟩

end AssignByte

/-- An assignment some of whose bytes may be values of parameters. -/
structure AssignPlan where
  target : AssignByte
  op : Int := 0
  src1 : AssignByte
  src2 : Int := 0
  data : Int := 0

namespace AssignPlan

def assignment (p : AssignPlan) : AssignRecord :=
  { target := p.target.number, op := p.op, src1 := p.src1.number, src2 := p.src2, data := p.data }

def cells (p : AssignPlan) : List Cell := [⟨1, none⟩, p.target.cell, ⟨1, none⟩, p.src1.cell, ⟨1, none⟩] ++
    if p.assignment.hasData then [⟨4, none⟩] else []

/-- The records of a plan: the assignment, after the patches of its placeholders. -/
def records (pos : Position) (p : AssignPlan) : List Record :=
  Record.withPatches ⟨pos, .paramAssignment p.assignment⟩ (placeholders 0 p.cells)

theorem placeholders_cells (p : AssignPlan) : placeholders 0 p.cells =
    p.target.patches AssignRecord.targetOffset ++ p.src1.patches AssignRecord.src1Offset := by
  have hrest : placeholders 5 (if p.assignment.hasData then [⟨4, none⟩] else []) = [] :=
    placeholders_of_known (by split <;> simp) 5
  rw [cells, placeholders_append]
  cases p.target <;> cases p.src1 <;> simp [AssignByte.cell, hrest, placeholders, AssignByte.patches,
    AssignRecord.targetOffset, AssignRecord.src1Offset]

/-- **The bytes of an assignment are those of its plan.** -/
theorem tokens_lays (pos : Position) (p : AssignPlan) :
    Lays (Record.tokens ⟨pos, .paramAssignment p.assignment⟩) p.cells [] := by
  refine .ok ?_
  have hdata : Written (if p.assignment.hasData then [⟨4, none⟩] else []) []
      (if p.assignment.hasData then [Token.dwordOf p.data] else []) := by
    cases p.assignment.hasData with
    | false => exact .nil
    | true => exact ⟨.cons rfl nofun .nil, rfl⟩
  exact .byte (AssignByte.written (.byte (AssignByte.written (.byte hdata))))

/-- The value that a plan assigns. -/
def value (plan : AssignPlan) (p : Params) : Word :=
  ({ plan.assignment with src1 := plan.src1.numberIn p } : AssignRecord).value p

theorem patched_assignment (plan : AssignPlan) (p : Params) :
    plan.assignment.patched p (placeholders 0 plan.cells) =
      { plan.assignment with target := plan.target.numberIn p, src1 := plan.src1.numberIn p } := by
  rw [placeholders_cells]
  obtain ⟨target, op, src1, src2, data⟩ := plan
  cases target <;> cases src1 <;> rfl

theorem executeAll_records {E : Engine} (plan : AssignPlan) (pos : Position) (hpending : E.pending = []) :
    (E.executeAll (plan.records pos)).pending = [] ∧
      (E.executeAll (plan.records pos)).params = E.params.set (plan.target.numberIn E.params) (plan.value E.params) := by
  have hexec : (plan.assignment.patched E.params (placeholders 0 plan.cells)).exec E.params =
      E.params.set (plan.target.numberIn E.params) (plan.value E.params) := by
    rw [plan.patched_assignment]
    rfl
  unfold records Record.withPatches
  split
  · rename_i hempty
    refine ⟨rfl, ?_⟩
    rw [← hexec, isEmpty_iff.mp hempty]
    show (plan.assignment.patched E.params E.pending).exec E.params = _
    rw [hpending]
  · exact ⟨rfl, hexec⟩

theorem straight {targets : Int → Prop} {computed : Prop} {plan : AssignPlan}
    (hknown : ∀ n, plan.target = .known n → targets n) (hheld : ∀ n, plan.target = .held n → computed)
    (pos : Position) : Straight targets computed (plan.records pos) := by
  have hcells := plan.placeholders_cells
  cases htarget : plan.target with
  | known n =>
    have hn : targets plan.assignment.target := by
      rw [assignment, htarget]
      exact hknown n htarget
    unfold records Record.withPatches
    split
    · exact .assign hn .nil
    · refine .patchedAssign (.inl ⟨hn, fun p hp => ?_⟩) .nil
      rw [hcells, htarget] at hp
      cases hsrc : plan.src1 <;> simp_all [AssignByte.patches, AssignByte.cell, placeholders, Patch.AtTarget,
        src1Offset, targetOffset]
  | held n =>
    rw [records, hcells, htarget]
    exact .patchedAssign (.inr ⟨hheld n htarget, _, mem_cons_self, rfl⟩) .nil

end AssignPlan

/-- The parameter that a record assigns to, as far as its number is known. -/
def Record.target? (r : Record) : Option Int :=
  match r.body with
  | .paramAssignment a => some a.target
  | _ => none

/-- The parameters that records assign to, in the order of the records. -/
def targets (rs : List Record) : List Int := rs.filterMap Record.target?

@[simp] theorem targets_append (rs rs' : List Record) : targets (rs ++ rs') = targets rs ++ targets rs' :=
  filterMap_append

theorem targets_withPatches (r : Record) (patches : List Patch) : targets (r.withPatches patches) = targets [r] := by
  unfold Record.withPatches
  split <;> rfl

/-- What plans are made for: to assign a value to the parameter whose number is given by a byte, to
find a parameter that holds it, or to find a source of an assignment, with the data if the source is
the data. -/
inductive Purpose
  | assign (target : AssignByte)
  | hold (number : Int)
  | source (byte : Int) (data : Option Int)

namespace Lowering

/-- A step of a computation: an assignment, and the expression whose value it assigns. If the number of
its target is computed, `targetNeeds` is the number. -/
structure Step where
  plan : AssignPlan
  value : Expr
  targetNeeds : List Expr := []

/-- The steps that compute a folded expression for a purpose. If the number of a target is computed, `tn` is
the number. -/
inductive Traces : Expr → Purpose → List Expr → List Step → Prop
  | data (k : Int) : Traces (.const k) (.source AssignRecord.dataSource (some k)) [] []
  | held {e : Expr} {n : Int} {steps : List Step} (h : Traces e (.hold n) [] steps) : Traces e (.source n none) [] steps
  | own {n : Int} (hn : 0 ≤ n ∧ n ≤ 0xFF) : Traces (.paramAt n) (.hold n) [] []
  | temporary {e : Expr} {n : Int} {steps : List Step} (hnumber : e.paramNumber? = none)
      (h : Traces e (.assign (.known n)) [] steps) : Traces e (.hold n) [] steps
  | const (k : Int) (target : AssignByte) (tn : List Expr) : Traces (.const k) (.assign target) tn
        [⟨{ target, src1 := .known AssignRecord.dataSource, data := k }, .const k, tn⟩]
  | read {n : Int} (hn : 0 ≤ n ∧ n ≤ 0xFF) (target : AssignByte) (tn : List Expr) :
      Traces (.paramAt n) (.assign target) tn [⟨{ target, src1 := .known n }, .paramAt n, tn⟩]
  | computedRead {number : Expr} {n : Int} {steps : List Step} (target : AssignByte) (tn : List Expr)
      (hnumber : ¬∃ k, number = .const k) (h : Traces number (.hold n) [] steps) :
      Traces (.param number) (.assign target) tn (steps ++ [⟨{ target, src1 := .held n }, .param number, tn⟩])
  | combined {op : Operator} {code : Nat} {left right : Expr} {s₁ s₂ : Int} {d₁ d₂ : Option Int}
      {first second : List Step} (target : AssignByte) (tn : List Expr)
      (hcode : op.assignCode? = some code) (hleft : Traces left (.source s₁ d₁) [] first)
      (hright : Traces (rightOperand op right) (.source s₂ d₂) [] second) (hused : d₁.isSome = true → d₂ = none) :
      Traces (.binary op left right) (.assign target) tn (first ++ second ++
          [⟨{ target, op := code, src1 := .known s₁, src2 := s₂, data := (d₁ <|> d₂).getD 0 },
            .binary op left right, tn⟩])

variable {c c' d : Context} {e target value : Expr} {pos : Position} {rs : List Record} {steps steps' : List Step}
  {s : Step} {purpose : Purpose} {tn : List Expr} {E : Engine} {env : Env} {n : Int} {w : Word}

/-- The records of steps. -/
def planned (pos : Position) (steps : List Step) : List Record := steps.flatMap (·.plan.records pos)

theorem planned_append : planned pos (steps ++ steps') = planned pos steps ++ planned pos steps' := flatMap_append

theorem records_planned {a : Assigned} (steps : List Step) {s : Step} {patches : List Patch}
    (hbefore : a.before = planned pos steps) (hassignment : a.assignment = s.plan.assignment)
    (hpatches : patches = s.plan.target.patches targetOffset ++ s.plan.src1.patches src1Offset) :
    ({ a with patches } : Assigned).records pos = planned pos (steps ++ [s]) := by
  rw [planned_append, ← hbefore, hassignment, hpatches, ← AssignPlan.placeholders_cells]
  exact congrArg (a.before ++ ·) (append_nil _).symm

/-! ## What steps compute -/

def targetsOf (steps : List Step) : List Int := steps.map (·.plan.target.number)

theorem targets_planned (pos : Position) (steps : List Step) : targets (planned pos steps) = targetsOf steps := by
  induction steps with
  | nil => rfl
  | cons s steps ih =>
    show targets (s.plan.records pos ++ planned pos steps) = s.plan.target.number :: targetsOf steps
    rw [targets_append, AssignPlan.records, targets_withPatches, ih]
    rfl

theorem targetsOf_append : targetsOf (steps ++ steps') = targetsOf steps ++ targetsOf steps' := map_append

/-- Temporary parameters, each of them once. -/
structure Distinct (ts : List Int) : Prop where
  temporary : ∀ t ∈ ts, IsTemporary t
  nodup : ts.Nodup

theorem distinct_append {ts ts' : List Int} :
    Distinct (ts ++ ts') ↔ Distinct ts ∧ Distinct ts' ∧ ∀ t ∈ ts, t ∉ ts' := by
  constructor
  · rintro ⟨htemporary, hnodup⟩
    rw [forall_mem_append] at htemporary
    obtain ⟨hfirst, hsecond, hapart⟩ := nodup_append.mp hnodup
    exact ⟨⟨htemporary.1, hfirst⟩, ⟨htemporary.2, hsecond⟩, fun t ht ht' => hapart t ht t ht' rfl⟩
  · rintro ⟨h, h', hapart⟩
    refine ⟨forall_mem_append.mpr ⟨h.temporary, h'.temporary⟩, nodup_append.mpr ⟨h.nodup, h'.nodup, ?_⟩⟩
    exact fun t ht t' ht' heq => hapart t ht (heq ▸ ht')

theorem Distinct.straight (h : Distinct (targetsOf steps)) (pos : Position) :
    Straight (· ∈ targetsOf steps) False (planned pos steps) := by
  induction steps with
  | nil => exact .nil
  | cons s steps ih =>
    obtain ⟨htemporary : IsTemporary s.plan.target.number, htemporaries⟩ := forall_mem_cons.mp h.temporary
    refine .append (AssignPlan.straight (fun n hn => ?_) (fun n hn => ?_) pos)
      ((ih ⟨htemporaries, (nodup_cons.mp h.nodup).2⟩).mono (fun _ => mem_cons_of_mem _) id)
    · simp [targetsOf, hn, AssignByte.number]
    · rw [hn] at htemporary
      exact absurd htemporary (by decide : ¬IsTemporary 0)

/-- Steps change their targets only. -/
theorem Distinct.frame (h : Distinct (targetsOf steps)) (hpending : E.pending = []) (pos : Position) :
    (E.executeAll (planned pos steps)).pending = [] ∧
      ∀ n, n ∉ targetsOf steps → (E.executeAll (planned pos steps)).params n = E.params n := by
  obtain ⟨hpend, hkept⟩ := (h.straight pos).frame hpending
  exact ⟨hpend, fun n hn => hkept n hn False.elim⟩

/-- What the steps for a purpose have done with a value `w`: it is assigned to the target, or it is in the parameter
that holds it or in the data. -/
def Reached (E : Engine) (pos : Position) (steps : List Step) (w : Word) : Purpose → Prop
  | .assign target =>
    let p := (E.executeAll (planned pos steps.dropLast)).params
    (E.executeAll (planned pos steps)).params = p.set (target.numberIn p) w
  | .source s (some k) => s = dataSource ∧ ofInt k = w
  | .hold n | .source n none =>
    n ≠ dataSource ∧ (n ∈ targetsOf steps ∨ ¬IsTemporary n) ∧
      (E.executeAll (planned pos steps)).params.read n = w

/-- The steps that assign to temporary parameters. -/
def scratchOf (steps : List Step) : Purpose → List Step
  | .assign _ => steps.dropLast
  | _ => steps

theorem reached_assign {target : AssignByte} (htarget : s.plan.target = target) (hpending : E.pending = [])
    (hdistinct : Distinct (targetsOf steps)) (hvalue : s.plan.value (E.executeAll (planned pos steps)).params = w) :
    Reached E pos (steps ++ [s]) w (.assign target) := by
  obtain ⟨hpend, -⟩ := hdistinct.frame hpending pos
  obtain ⟨-, hparams⟩ := s.plan.executeAll_records pos hpend
  have hlast : planned pos [s] = s.plan.records pos := append_nil _
  show (E.executeAll (planned pos (steps ++ [s]))).params = _
  rw [planned_append, Engine.executeAll_append, hlast, hparams, htarget, hvalue, dropLast_concat]

theorem sameOutside_executeAll (hdistinct : Distinct (targetsOf steps)) (hpending : E.pending = [])
    (hsame : E.params.SameOutside env.params) :
    (E.executeAll (planned pos steps)).params.SameOutside env.params := by
  intro n hn
  rw [(hdistinct.frame hpending pos).2 n fun h => hn (hdistinct.temporary n h)]
  exact hsame n hn

theorem value_paramAt (hn : 0 ≤ n ∧ n ≤ 0xFF) (hfits : (Expr.paramAt n).AssignFits env)
    (hw : (Expr.paramAt n).value? env = some w) (hsame : E.params.SameOutside env.params) :
    ¬IsTemporary n ∧ n ≠ dataSource ∧ E.params.read n = w := by
  have hbyte : (ofInt n).lowByte = n := lowByte_ofInt hn.1 hn.2
  obtain ⟨htemp, hdata⟩ := hbyte ▸ hfits.2 (ofInt n) rfl
  have hread : env.params.read (ofInt n).lowByte = w := Option.some.inj hw
  rw [hbyte] at hread
  exact ⟨htemp, hdata, hread ▸ read_congr (hsame n htemp)⟩

theorem Traces.exists_last {target : AssignByte} (h : Traces e (.assign target) tn steps) :
    ∃ init s, steps = init ++ [s] ∧ s.plan.target = target ∧ s.value = e := by
  cases h with
  | const | read => exact ⟨[], _, rfl, rfl, rfl⟩
  | computedRead | combined => exact ⟨_, _, rfl, rfl, rfl⟩

theorem source_of_reached {a : AssignRecord} {source : Int} {data : Option Int} {q : Params}
    (h : Reached E pos steps w (.source source data)) (hdata : ∀ k ∈ data, a.data = k)
    (hread : source ∈ targetsOf steps ∨ ¬IsTemporary source →
      q.read source = (E.executeAll (planned pos steps)).params.read source) : a.source q source = w := by
  cases data with
  | some k =>
    obtain ⟨rfl, rfl⟩ := h
    rw [AssignRecord.source, if_pos rfl, hdata k rfl]
  | none =>
    obtain ⟨hne, hstable, hvalue⟩ := h
    rw [AssignRecord.source, if_neg hne, hread hstable, hvalue]

/-- **Steps compute the value of their expression.** -/
theorem Traces.reached (h : Traces e purpose tn steps) (hdistinct : Distinct (targetsOf (scratchOf steps purpose)))
    (hfits : e.AssignFits env) (hw : e.value? env = some w) (hpending : E.pending = [])
    (hsame : E.params.SameOutside env.params) : Reached E pos steps w purpose := by
  induction h generalizing E w with
  | data k => exact ⟨rfl, Option.some.inj hw⟩
  | held h ih => exact ih hdistinct hfits hw hpending hsame
  | own hn =>
    obtain ⟨htemp, hdata, hread⟩ := value_paramAt hn hfits hw hsame
    exact ⟨hdata, .inr htemp, hread⟩
  | @temporary e n steps hnumber h ih =>
    obtain ⟨init, s, rfl, htarget, -⟩ := h.exists_last
    have hn : n ∈ targetsOf (init ++ [s]) := by
      simp [targetsOf, htarget, AssignByte.number]
    have htemp := hdistinct.temporary n hn
    have hinit := (distinct_append.mp (targetsOf_append ▸ hdistinct : Distinct (targetsOf init ++ _))).1
    have hreached := ih (by simpa [scratchOf] using hinit) hfits hw hpending hsame
    refine ⟨?_, .inl hn, ?_⟩
    · rintro rfl
      exact absurd htemp (by decide)
    · rw [hreached, read_of_ne _ (by rintro rfl; exact absurd htemp (by decide))]
      exact set_self ..
  | const k target tn =>
    exact @reached_assign _ [] _ _ _ _ rfl hpending hdistinct (Option.some.inj hw)
  | @read n hn target tn =>
    obtain ⟨-, hdata, hread⟩ := value_paramAt hn hfits hw hsame
    refine @reached_assign _ [] _ _ _ _ rfl hpending hdistinct ?_
    show AssignRecord.source _ E.params n = w
    rw [AssignRecord.source, if_neg hdata, hread]
  | @computedRead number n steps target tn hnumber h ih =>
    rw [scratchOf, dropLast_concat] at hdistinct
    obtain ⟨x, hx, hw⟩ : ∃ x, number.value? env = some x ∧ env.params.read x.lowByte = w := by
      simpa [Expr.value?, Option.map_eq_some_iff] using hw
    obtain ⟨htemp, hdata⟩ := hfits.2 x hx
    obtain ⟨-, -, hread⟩ := ih hdistinct hfits.1 hx hpending hsame
    refine reached_assign rfl hpending hdistinct ?_
    show AssignRecord.source _ _ (byte _ n) = w
    rw [byte, hread, AssignRecord.source, if_neg hdata, ← hw]
    exact read_congr (sameOutside_executeAll hdistinct hpending hsame _ htemp)
  | @combined op code left right s₁ s₂ d₁ d₂ first second target tn hcode hleft hright hused ihl ihr =>
    rw [scratchOf, dropLast_concat] at hdistinct
    obtain ⟨hfirst, hsecond, hapart⟩ := distinct_append.mp (targetsOf_append ▸ hdistinct)
    obtain ⟨x, y, hx, hr, hy, rfl⟩ := exists_operands hcode hfits hw
    have hpend := (hfirst.frame hpending pos).1
    have hl := ihl hfirst hfits.1 hx hpending hsame
    have hr := ihr hsecond hr hy hpend (sameOutside_executeAll hfirst hpending hsame)
    refine reached_assign rfl hpending hdistinct ?_
    have hall : (E.executeAll (planned pos (first ++ second))).params =
        ((E.executeAll (planned pos first)).executeAll (planned pos second)).params := by
      rw [planned_append, Engine.executeAll_append]
    show compute code (AssignRecord.source _ _ s₁) (AssignRecord.source _ _ s₂) = _
    refine congrArg₂ (compute code) (source_of_reached hl ?_ fun hs => ?_) (source_of_reached hr ?_ fun _ => ?_)
    · rintro k ⟨⟩
      rfl
    · rw [hall]
      exact read_congr ((hsecond.frame hpend pos).2 s₁ (hs.elim (hapart s₁) (mt (hsecond.temporary s₁))))
    · -- the data serves one of the sources
      rintro k ⟨⟩
      cases d₁ with
      | none => rfl
      | some _ => cases hused rfl
    · rw [hall]

/-- After the records `rs` the parameter `n` holds the value of `e`. They assign to it, or it is no temporary
parameter. -/
structure HeldIn (rs : List Record) (n : Int) (e : Expr) : Prop where
  range : 0 ≤ n ∧ n ≤ 0xFF
  held : ∀ env w, e.AssignFits env → e.value? env = some w → n ≠ dataSource ∧ (n ∈ targets rs ∨ ¬IsTemporary n) ∧
    ∀ E : Engine, E.pending = [] → E.params.SameOutside env.params → (E.executeAll rs).params.read n = w

theorem HeldIn.heldAfter (h : HeldIn rs n e) (hin : ∀ t ∈ targets rs, t ∈ c.tempParams.inUse) :
    HeldAfter c rs n e := by
  intro env w hfits hw
  obtain ⟨hdata, hstable, hvalue⟩ := h.held env w hfits hw
  exact ⟨hstable.imp_left (hin n), hdata, hvalue⟩

theorem Traces.heldIn (h : Traces e (.hold n) tn steps) (hdistinct : Distinct (targetsOf steps)) (pos : Position) :
    HeldIn (planned pos steps) n e := by
  constructor
  · cases h with
    | own hn => exact hn
    | temporary _ h =>
      obtain ⟨init, s, rfl, htarget, -⟩ := h.exists_last
      have htemp : IsTemporary n := hdistinct.temporary n (by simp [targetsOf, htarget, AssignByte.number])
      unfold IsTemporary at htemp
      omega
  · intro env w hfits hw
    have hreached : ∀ E : Engine, E.pending = [] → E.params.SameOutside env.params →
        Reached E pos steps w (.hold n) := fun E => h.reached hdistinct hfits hw
    obtain ⟨hdata, hstable, -⟩ := hreached { params := env.params } rfl fun _ _ => rfl
    rw [targets_planned]
    exact ⟨hdata, hstable, fun E hpending hsame => (hreached E hpending hsame).2.2⟩

/-! ## Operands -/

/-- The operands of an assignment of an expression. Zero is written for a number that is patched in. -/
def operandsOf : Expr → List Expr
  | .binary op left right => [left, rightOperand op right]
  | .param (.const n) => [.paramAt n]
  | .param _ => [.paramAt 0]
  | e => [e]

/-- Where an assignment finds an operand: in its data, in the parameter that the operand names, or in a temporary
parameter. -/
inductive Finds (data : Int) : Expr → Int → Prop
  | data : Finds data (.const data) dataSource
  | own {n : Int} (hn : 0 ≤ n ∧ n ≤ 0xFF) : Finds data (.paramAt n) n
  | temporary {e : Expr} {n : Int} (he : e.paramNumber? = none) (hn : IsTemporary n) : Finds data e n

/-- An assignment has the operands of an expression. There is data if a source is its mark, and if an operand is a
constant. -/
structure Encodes (a : AssignRecord) (e : Expr) : Prop where
  sources : Forall₂ (Finds a.data) (operandsOf e) a.sources
  hasData : a.hasData = true ↔ dataSource ∈ a.sources
  constants : ∀ k, .const k ∈ operandsOf e → dataSource ∈ a.sources

abbrev AllEncode (steps : List Step) : Prop := ∀ s ∈ steps, Encodes s.plan.assignment s.value

theorem encodes_of_sources {a : AssignRecord} (hsrc2 : a.op = 0 → a.src2 = 0)
    (h : Forall₂ (Finds a.data) (operandsOf e) a.sources)
    (hconst : ∀ k, .const k ∈ operandsOf e → dataSource ∈ a.sources) : Encodes a e := by
  refine ⟨h, ?_, hconst⟩
  simp only [AssignRecord.hasData, Bool.or_eq_true, beq_iff_eq, AssignRecord.sources]
  split
  · rename_i hop
    simp [hsrc2 hop, dataSource, eq_comm]
  · simp [eq_comm]

/-- The steps assign to temporary parameters that are taken between the states `c` and `c'`, to each of
them once. -/
structure FreshSteps (c : Context) (steps : List Step) (c' : Context) : Prop extends Distinct (targetsOf steps) where
  ext : c.Extends c'
  taken : ∀ t ∈ targetsOf steps, t ∉ c.tempParams.inUse ∧ t ∈ c'.tempParams.inUse

namespace FreshSteps

theorem refl (c : Context) : FreshSteps c [] c := ⟨⟨by simp [targetsOf], by simp [targetsOf]⟩, .refl c, by simp [targetsOf]⟩

theorem append (h : FreshSteps c steps d) (h' : FreshSteps d steps' c') : FreshSteps c (steps ++ steps') c' where
  toDistinct := by
    rw [targetsOf_append]
    exact distinct_append.mpr ⟨h.toDistinct, h'.toDistinct, fun t ht ht' => (h'.taken t ht').1 (h.taken t ht).2⟩
  ext := h.ext.trans h'.ext
  taken := by
    rw [targetsOf_append]
    refine forall_mem_append.mpr ⟨fun t ht => ?_, fun t ht => ?_⟩
    · exact ⟨(h.taken t ht).1, h'.ext.inUse (h.taken t ht).2⟩
    · exact ⟨fun hin => (h'.taken t ht).1 (h.ext.inUse hin), (h'.taken t ht).2⟩

/-- The parameter that is assigned to in the end is taken first. -/
theorem held (hc : c.InRange) (hpop : popTemp pos c = .ok n d) (h : FreshSteps d steps c')
    (hs : s.plan.target = .known n) : FreshSteps c (steps ++ [s]) c' := by
  obtain ⟨hext, htemp, hfresh, hin⟩ := popTemp_eq_ok hc hpop
  have htarget : targetsOf [s] = [n] := by simp [targetsOf, hs, AssignByte.number]
  have hall : targetsOf (steps ++ [s]) = targetsOf steps ++ [n] := by rw [targetsOf_append, htarget]
  refine ⟨hall ▸ distinct_append.mpr ⟨h.toDistinct, ⟨by simpa using htemp, nodup_singleton n⟩, fun t ht ht' => ?_⟩,
    hext.trans h.ext, hall ▸ forall_mem_append.mpr ⟨fun t ht => ?_, fun t ht => ?_⟩⟩
  · exact (h.taken t ht).1 (mem_singleton.mp ht' ▸ hin)
  · exact ⟨fun hin => (h.taken t ht).1 (hext.inUse hin), (h.taken t ht).2⟩
  · obtain rfl := mem_singleton.mp ht
    exact ⟨hfresh, h.ext.inUse hin⟩

theorem scratch (h : FreshSteps c steps c') (pos : Position) : Scratch c (planned pos steps) :=
  (h.straight pos).mono (fun t ht => ⟨h.temporary t ht, (h.taken t ht).1⟩) id

theorem inUse (h : FreshSteps c steps c') : ∀ t ∈ targets (planned pos steps), t ∈ c'.tempParams.inUse := by
  rw [targets_planned]
  exact fun t ht => (h.taken t ht).2

end FreshSteps

/-- The lowering `f` assigns `e` to the parameter it is given by the records of steps, also if the
number of that parameter is to be patched in. -/
def Follows (pos : Position) (e : Expr) (f : Int → Lowering Assigned) : Prop :=
  ∀ (target : AssignByte) (tn : List Expr) c a c', f target.number c = .ok a c' →
    ∃ steps, Traces e (.assign target) tn steps ∧
      ({ a with patches := target.patches targetOffset ++ a.patches } : Assigned).records pos =
        planned pos steps ∧ (c.InRange → FreshSteps c steps.dropLast c' ∧ AllEncode steps)

/-- The lowering `m` finds a parameter that holds `e` by the records of steps. -/
def FollowsHold (pos : Position) (e : Expr) (m : Lowering (List Record × Int)) : Prop :=
  ∀ c rs n c', m c = .ok (rs, n) c' → ∃ steps, Traces e (.hold n) [] steps ∧ rs = planned pos steps ∧
    (c.InRange → FreshSteps c steps c' ∧ AllEncode steps ∧ ∀ data, Finds data e n)

theorem holding_follows {f : Int → Lowering Assigned} (hf : Follows pos e f) : FollowsHold pos e (holding e pos f) := by
  intro c rs n c' h
  unfold holding at h
  cases hnum : e.paramNumber? with
  | some num =>
    rw [hnum] at h
    obtain ⟨h0, h1, h⟩ := checkParamNumber_bind_eq_ok h
    obtain ⟨⟨⟩, rfl⟩ := pure_eq_ok.mp h
    obtain rfl := paramNumber?_eq_some.mp hnum
    exact ⟨[], .own ⟨h0, h1⟩, rfl, fun _ => ⟨.refl c, forall_mem_nil _, fun _ => .own ⟨h0, h1⟩⟩⟩
  | none =>
    rw [hnum] at h
    obtain ⟨t, d, hpop, h⟩ := bind_eq_ok.mp h
    obtain ⟨a, ha, ⟨⟩⟩ := bind_pure_eq_ok.mp h
    obtain ⟨steps, hsteps, hrecords, hencode⟩ := hf (.known n) [] d a c' ha
    refine ⟨steps, .temporary hnum hsteps, hrecords, fun hc => ?_⟩
    obtain ⟨hext, htemp, -⟩ := popTemp_eq_ok hc hpop
    obtain ⟨hfresh, hall⟩ := hencode (hext.inRange hc)
    obtain ⟨init, s, rfl, htarget, -⟩ := hsteps.exists_last
    rw [dropLast_concat] at hfresh
    exact ⟨hfresh.held hc hpop htarget, hall, fun _ => .temporary hnum htemp⟩

/-- The lowering `m` finds a source for `e` by the records of steps. It is the data for a constant, unless that has been
`used`. -/
def FollowsSource (pos : Position) (e : Expr) (used : Bool) (m : Lowering (List Record × Int × Option Int)) : Prop :=
  ∀ c rs s data c', m c = .ok (rs, s, data) c' → ∃ steps, Traces e (.source s data) [] steps ∧
    rs = planned pos steps ∧ (used = true → data = none) ∧
    (∀ k, e = .const k → used = false → s = dataSource) ∧
    (c.InRange → FreshSteps c steps c' ∧ AllEncode steps ∧ ∀ d, (∀ k ∈ data, d = k) → Finds d e s)

theorem combined_follows {op : Operator} {code : Nat} {left right : Expr}
    {first : Lowering (List Record × Int × Option Int)} {second : Bool → Lowering (List Record × Int × Option Int)}
    (hcode : op.assignCode? = some code) (hfirst : FollowsSource pos left false first)
    (hsecond : ∀ used, FollowsSource pos (rightOperand op right) used (second used)) :
    Follows pos (.binary op left right) fun target => combined target code first second := by
  intro target tn c a c' h
  obtain ⟨⟨rs₁, s₁, d₁⟩, m, h₁, h⟩ := bind_eq_ok.mp h
  obtain ⟨⟨rs₂, s₂, d₂⟩, h₂, rfl⟩ := bind_pure_eq_ok.mp h
  obtain ⟨steps₁, hsteps₁, rfl, -, hconst₁, hencode₁⟩ := hfirst c rs₁ s₁ d₁ m h₁
  obtain ⟨steps₂, hsteps₂, rfl, hused, hconst₂, hencode₂⟩ := hsecond _ m rs₂ s₂ d₂ c' h₂
  refine ⟨_, .combined target tn hcode hsteps₁ hsteps₂ hused, ?_, fun hc => ?_⟩
  · exact records_planned _ planned_append.symm rfl rfl
  obtain ⟨hfresh₁, hall₁, hfinds₁⟩ := hencode₁ hc
  obtain ⟨hfresh₂, hall₂, hfinds₂⟩ := hencode₂ (hfresh₁.ext.inRange hc)
  refine ⟨dropLast_concat ▸ hfresh₁.append hfresh₂, forall_mem_append.mpr ⟨forall_mem_append.mpr ⟨hall₁, hall₂⟩, forall_mem_singleton.mpr ?_⟩⟩
  have hop : (code : Int) ≠ 0 := by
    cases op <;> cases hcode <;> decide
  have hsources : (⟨target.number, code, s₁, s₂, (d₁ <|> d₂).getD 0⟩ : AssignRecord).sources = [s₁, s₂] := if_neg hop
  have hdata : ∀ k, k ∈ d₁ ∨ k ∈ d₂ → (d₁ <|> d₂).getD 0 = k := by
    cases d₁ <;> simp_all
  refine encodes_of_sources (fun h => absurd h hop) ?_ fun k hk => ?_
  · exact hsources ▸
      .cons (hfinds₁ _ fun k hk => hdata k (.inl hk)) (.cons (hfinds₂ _ fun k hk => hdata k (.inr hk)) .nil)
  · refine hsources ▸ ?_
    cases hsteps₁ with
    | data => exact mem_cons_self
    | held =>
      -- the data has not been used yet
      rcases mem_pair.mp hk with hk | hk
      · simp [hconst₁ k hk.symm rfl]
      · simp [hconst₂ k hk.symm rfl]

/-- **Assignments follow steps.** -/
theorem follows_assembly (pos : Position) : Assembly pos (Follows pos) (FollowsHold pos) (FollowsSource pos) where
  fail _ _ _ _ _ h := by simp at h
  const k target tn c a c' h := by
    obtain ⟨rfl, rfl⟩ := pure_eq_ok.mp h
    refine ⟨_, .const k target tn, records_planned [] rfl rfl rfl, fun _ => ⟨.refl c, forall_mem_singleton.mpr ?_⟩⟩
    exact encodes_of_sources (fun _ => rfl) (.cons .data .nil) fun _ _ => mem_singleton.mpr rfl
  read n target tn c a c' h := by
    obtain ⟨h0, h1, h⟩ := checkParamNumber_bind_eq_ok h
    obtain ⟨rfl, rfl⟩ := pure_eq_ok.mp h
    refine ⟨_, .read ⟨h0, h1⟩ target tn, records_planned [] rfl rfl rfl, fun _ => ⟨.refl c, forall_mem_singleton.mpr ?_⟩⟩
    exact encodes_of_sources (fun _ => rfl) (.cons (.own ⟨h0, h1⟩) .nil) (by simp [operandsOf, Expr.paramAt])
  computedRead {number _} hconst hm target tn c a c' h := by
    obtain ⟨⟨rs, n⟩, hhold, rfl⟩ := bind_pure_eq_ok.mp h
    obtain ⟨steps, hsteps, rfl, hencode⟩ := hm _ _ _ _ hhold
    have hoperands : operandsOf (.param number) = [.paramAt 0] := by
      cases number <;> first | rfl | exact absurd ⟨_, rfl⟩ hconst
    refine ⟨_, .computedRead target tn hconst hsteps, ?_, fun hc => ?_⟩
    · exact records_planned _ rfl rfl rfl
    · obtain ⟨hfresh, hall, -⟩ := hencode hc
      refine ⟨dropLast_concat ▸ hfresh, forall_mem_append.mpr ⟨hall, forall_mem_singleton.mpr (encodes_of_sources (fun _ => rfl) ?_ ?_)⟩⟩
      · exact hoperands ▸ .cons (.own (by decide)) .nil
      · simp [hoperands, Expr.paramAt]
  combined := combined_follows
  hold := holding_follows
  data k c rs s data c' h := by
    obtain ⟨⟨⟩, rfl⟩ := pure_eq_ok.mp h
    refine ⟨[], .data k, rfl, by simp, fun _ _ _ => rfl, fun _ => ⟨.refl c, forall_mem_nil _, fun d hd => ?_⟩⟩
    obtain rfl := hd k rfl
    exact .data
  noSource _ _ _ _ _ h := by simp at h
  held hused hm c rs s data c' h := by
    obtain ⟨⟨records, param⟩, hhold, ⟨⟩⟩ := bind_pure_eq_ok.mp h
    obtain ⟨steps, hsteps, hrecords, hencode⟩ := hm _ _ _ _ hhold
    refine ⟨steps, .held hsteps, hrecords, fun _ => rfl, fun k hk hfalse => ?_, fun hc => ?_⟩
    · exact absurd (hused k hk) (by simp [hfalse])
    · obtain ⟨hfresh, hall, hfinds⟩ := hencode hc
      exact ⟨hfresh, hall, fun d _ => hfinds d⟩

theorem operandParam_steps (h : operandParam e pos c = .ok (rs, n) c') :
    ∃ steps, Traces e.fold (.hold n) [] steps ∧ rs = planned pos steps ∧
      (c.InRange → FreshSteps c steps c' ∧ AllEncode steps ∧ ∀ data, Finds data e.fold n) :=
  holding_follows ((follows_assembly pos).assign e.fold) c rs n c' h

theorem operandParam_planned (h : operandParam e pos c = .ok (rs, n) c') : ∃ steps, rs = planned pos steps :=
  (operandParam_steps h).imp fun _ h => h.2.1

/-- **Operands are computed before they are used**: after the records of `operandParam` the parameter
it names holds the value of the expression. -/
theorem operandParam_spec (hc : c.InRange) (h : operandParam e pos c = .ok (rs, n) c') :
    c.Extends c' ∧ Scratch c rs ∧ (0 ≤ n ∧ n ≤ 0xFF) ∧ HeldAfter c' rs n e.fold := by
  obtain ⟨steps, hsteps, rfl, hencode⟩ := operandParam_steps h
  obtain ⟨hfresh, -⟩ := hencode hc
  have hheld := hsteps.heldIn hfresh.toDistinct pos
  exact ⟨hfresh.ext, hfresh.scratch pos, hheld.range, hheld.heldAfter hfresh.inUse⟩

/-- The steps of an assignment of a declaration. The target is known, or it is computed first. -/
inductive DeclaredTraces (target value : Expr) : List Step → Prop
  | known {n : Int} {steps : List Step} (htarget : target = .const n) (hn : 0 ≤ n ∧ n ≤ 0xFF)
      (h : Traces value (.assign (.known n)) [] steps) : DeclaredTraces target value steps
  | computed {n : Int} {first second : List Step} (htarget : ¬∃ k, target = .const k)
      (hfirst : Traces target (.hold n) [] first) (hsecond : Traces value (.assign (.held n)) [target] second) :
      DeclaredTraces target value (first ++ second)

/-- The last step assigns the value. The steps before are those of the target and of the operands. -/
theorem DeclaredTraces.exists_last (h : DeclaredTraces target value steps) : ∃ init s, steps = init ++ [s] ∧
    s.value = value ∧ ((∃ n, target = .const n ∧ s.plan.target = .known n) ∨ ∃ n, s.plan.target = .held n) := by
  cases h with
  | known htarget _ h =>
    obtain ⟨init, s, rfl, hs, hvalue⟩ := h.exists_last
    exact ⟨init, s, rfl, hvalue, .inl ⟨_, htarget, hs⟩⟩
  | @computed n first second _ _ hsecond =>
    obtain ⟨init, s, rfl, hs, hvalue⟩ := hsecond.exists_last
    exact ⟨first ++ init, s, (append_assoc ..).symm, hvalue, .inr ⟨n, hs⟩⟩

theorem lowerAssignment_steps (h : lowerAssignment target value pos c = .ok rs c') :
    ∃ steps, DeclaredTraces target.fold value.fold steps ∧ rs = planned pos steps ∧
      (c.InRange → FreshSteps c steps.dropLast c' ∧ AllEncode steps) := by
  have hassign := (follows_assembly pos).assign value.fold
  by_cases hconst : ∃ num, target.fold = .const num
  · obtain ⟨num, hnum⟩ := hconst
    unfold lowerAssignment at h
    rw [hnum] at h
    obtain ⟨h0, h1, h⟩ := checkParamNumber_bind_eq_ok h
    obtain ⟨a, ha, rfl⟩ := bind_pure_eq_ok.mp h
    obtain ⟨steps, hsteps, hrecords, hencode⟩ := hassign (.known num) [] _ a _ ha
    exact ⟨steps, .known hnum ⟨h0, h1⟩ hsteps, hrecords, hencode⟩
  · rw [lowerAssignment_computed hconst] at h
    obtain ⟨⟨before, n⟩, d, hbefore, h⟩ := bind_eq_ok.mp h
    obtain ⟨a, ha, rfl⟩ := bind_pure_eq_ok.mp h
    obtain ⟨first, hfirst, rfl, hencode₁⟩ := operandParam_steps hbefore
    rw [Expr.fold_fold] at hfirst
    obtain ⟨second, hsecond, hrecords, hencode₂⟩ := hassign (.held n) [target.fold] _ a _ ha
    refine ⟨first ++ second, .computed hconst hfirst hsecond, ?_, fun hc => ?_⟩
    · rw [planned_append, ← hrecords]
      rfl
    · obtain ⟨hfresh, hall, -⟩ := hencode₁ hc
      obtain ⟨hfresh', hall'⟩ := hencode₂ (hfresh.ext.inRange hc)
      obtain ⟨init, s, rfl, -⟩ := hsecond.exists_last
      rw [dropLast_concat] at hfresh'
      rw [← append_assoc, dropLast_concat, append_assoc]
      exact ⟨hfresh.append hfresh', forall_mem_append.mpr ⟨hall, hall'⟩⟩

theorem lowerAssignment_planned (h : lowerAssignment target value pos c = .ok rs c') : ∃ steps, rs = planned pos steps :=
  (lowerAssignment_steps h).imp fun _ h => h.2.1

end Lowering

end Grf
