import Grf.Proofs.Lowering.Temporaries

/-! # What records read

A `Reading` is a record together with the expressions that are to be found in the parameters it reads, in their order,
and with the expression whose value it assigns, if it is an assignment. Whatever a step reads in a temporary parameter,
a step before it has computed into that parameter (`Traces.fed`).
-/

namespace Grf

open List

/-- The parameters that a record reads: the one a skip tests, the sources of patches and of assignments,
and the parameters of a message. -/
def Record.reads (r : Record) : List Int :=
  match r.body with
  | .skip _ test _ => [test.param]
  | .bytePatchTable patches => patches.map (·.param)
  | .paramAssignment a => [a.src1, a.src2]
  | .errorMessage m => m.params
  | _ => []

/-- A record with the expression whose value it assigns, and the expressions whose values it reads. -/
structure Reading where
  record : Record
  value : Option Expr := none
  needs : List Expr := []

namespace Reading

/-- The parameters that are read, each with the expression whose value is to be found there. -/
def operands (u : Reading) : List (Int × Expr) := u.record.reads.zip u.needs

/-- Whether a record assigns the value of an expression to a parameter. -/
def Computes (u : Reading) (p : Int × Expr) : Prop := u.record.target? = some p.1 ∧ u.value = some p.2

end Reading

/-- What is read in a temporary parameter is the value of an expression that is supplied in it. -/
def Supplies (supplied : Int × Expr → Prop) : List Int → List Expr → Prop
  | [], _ => True
  | t :: ts, [] => ¬IsTemporary t ∧ Supplies supplied ts []
  | t :: ts, e :: es => (IsTemporary t → supplied (t, e)) ∧ Supplies supplied ts es

/-- What the records read in temporary parameters is supplied to them, or a record before has computed
it. -/
def Fed (supplied : Int × Expr → Prop) : List Reading → Prop
  | [] => True
  | u :: us => Supplies supplied u.record.reads u.needs ∧ Fed (fun p => supplied p ∨ u.Computes p) us

/-- Whether one of the records computes an expression into a parameter. -/
def ComputedIn (us : List Reading) (p : Int × Expr) : Prop := ∃ u ∈ us, u.Computes p

variable {es : List Expr}

section Fed

variable {supplied supplied' : Int × Expr → Prop} {us vs : List Reading} {p : Int × Expr}

theorem Supplies.mono {ts : List Int} (h : Supplies supplied ts es)
    (hsub : ∀ p, supplied p → supplied' p) : Supplies supplied' ts es := by
  induction ts generalizing es with
  | nil => trivial
  | cons t ts ih =>
    cases es with
    | nil => exact ⟨h.1, ih h.2⟩
    | cons e es => exact ⟨fun ht => hsub _ (h.1 ht), ih h.2⟩

theorem Supplies.covers {ts : List Int} (h : Supplies supplied ts es) :
    ∀ t ∈ ts, IsTemporary t → ∃ e, (t, e) ∈ ts.zip es := by
  induction ts generalizing es with
  | nil => simp
  | cons t ts ih =>
    intro s hs hts
    cases es with
    | nil =>
      rcases mem_cons.mp hs with rfl | hs
      · exact absurd hts h.1
      · obtain ⟨e, he⟩ := ih h.2 s hs hts
        simp at he
    | cons e es =>
      rcases mem_cons.mp hs with rfl | hs
      · exact ⟨e, by simp⟩
      · obtain ⟨e', he'⟩ := ih h.2 s hs hts
        exact ⟨e', by simp [he']⟩

theorem Supplies.of_mem_zip {ts : List Int} (h : Supplies supplied ts es) :
    ∀ p ∈ ts.zip es, IsTemporary p.1 → supplied p := by
  induction ts generalizing es with
  | nil => simp
  | cons t ts ih =>
    cases es with
    | nil => simp
    | cons e es =>
      intro p hp hpt
      rcases mem_cons.mp hp with rfl | hp
      · exact h.1 hpt
      · exact ih h.2 p hp hpt

theorem computedIn_append : ComputedIn (us ++ vs) p ↔ ComputedIn us p ∨ ComputedIn vs p := by
  simp [ComputedIn, or_and_right, exists_or]

namespace Fed

theorem mono (h : Fed supplied us) (hsub : ∀ p, supplied p → supplied' p) : Fed supplied' us := by
  induction us generalizing supplied supplied' with
  | nil => trivial
  | cons u us ih => exact ⟨h.1.mono hsub, ih h.2 fun p hp => hp.imp_left (hsub p)⟩

theorem append (h : Fed supplied us) (h' : Fed (fun p => supplied p ∨ ComputedIn us p) vs) :
    Fed supplied (us ++ vs) := by
  induction us generalizing supplied with
  | nil => exact h'.mono fun p hp => hp.resolve_right (by simp [ComputedIn])
  | cons u us ih =>
    refine ⟨h.1, ih h.2 (h'.mono fun p hp => ?_)⟩
    rcases hp with hp | ⟨a, ha, hcomputes⟩
    · exact .inl (.inl hp)
    · rcases mem_cons.mp ha with rfl | ha
      · exact .inl (.inr hcomputes)
      · exact .inr ⟨a, ha, hcomputes⟩

theorem at_split {u : Reading} {pre post : List Reading} (h : Fed supplied (pre ++ u :: post)) :
    Supplies (fun p => supplied p ∨ ComputedIn pre p) u.record.reads u.needs := by
  induction pre generalizing supplied with
  | nil => exact h.1.mono fun p hp => .inl hp
  | cons a pre ih =>
    refine (ih h.2).mono fun p hp => ?_
    rcases hp with (hp | hp) | ⟨b, hb, hcomputes⟩
    · exact .inl hp
    · exact .inr ⟨a, by simp, hp⟩
    · exact .inr ⟨b, by simp [hb], hcomputes⟩

end Fed

end Fed

/-- What the steps for a purpose have done: the value is assigned to the target, or it is found in the
parameter that holds it if that is a temporary one. -/
def Purpose.Served (us : List Reading) (e : Expr) : Purpose → Prop
  | .assign (.known n) => ComputedIn us (n, e)
  | .assign (.held _) => True
  | .hold n => IsTemporary n → ComputedIn us (n, e)
  | .source n _ => IsTemporary n → ComputedIn us (n, e)

/-- The parameter that holds the number of a target is supplied with it. -/
def AssignByte.Needs (supplied : Int × Expr → Prop) (tn : List Expr) : AssignByte → Prop
  | .known _ => tn = []
  | .held n => ∃ e, tn = [e] ∧ (IsTemporary n → supplied (n, e))

def Purpose.Needs (supplied : Int × Expr → Prop) (tn : List Expr) : Purpose → Prop
  | .assign target => target.Needs supplied tn
  | _ => tn = []

namespace Lowering

variable {e target value : Expr} {pos : Position} {purpose : Purpose} {tn : List Expr} {supplied : Int × Expr → Prop}

/-! ## Steps of computations -/

def assignNeeds : Expr → List Expr
  | .param (.const n) => [.paramAt n]
  | .binary op left right => [left, rightOperand op right]
  | _ => []

def patchNeeds : Expr → List Expr
  | .param (.const _) => []
  | .param number => [number]
  | _ => []

namespace Step

def needs (s : Step) (r : Record) : List Expr :=
  match r.body with
  | .bytePatchTable _ => s.targetNeeds ++ patchNeeds s.value
  | _ => assignNeeds s.value

def readings (pos : Position) (s : Step) : List Reading :=
  (s.plan.records pos).map fun r => ⟨r, some s.value, s.needs r⟩

end Step

def readings (pos : Position) (steps : List Step) : List Reading := steps.flatMap (·.readings pos)

theorem readings_append (steps steps' : List Step) :
    readings pos (steps ++ steps') = readings pos steps ++ readings pos steps' := flatMap_append

theorem record_readings (steps : List Step) :
    (readings pos steps).map Reading.record = planned pos steps := by
  simp [readings, planned, map_flatMap, Step.readings, Function.comp_def]

/-! ## What steps read is computed before -/

theorem clear_rightOperand {op : Operator} {right : Expr} (h : right.Clear) : (rightOperand op right).Clear := by
  unfold rightOperand
  split
  · cases right with
    | const k => trivial
    | _ => exact ⟨trivial, h⟩
  · exact h

variable {s : Step} {steps : List Step}

theorem served_last {us : List Reading} {target : AssignByte} (htarget : s.plan.target = target)
    (hvalue : s.value = e) : Purpose.Served (us ++ s.readings pos) e (.assign target) := by
  cases target with
  | held n => trivial
  | known n =>
    let R : Record := ⟨pos, .paramAssignment s.plan.assignment⟩
    have hmem : R ∈ s.plan.records pos := by
      unfold AssignPlan.records Record.withPatches
      split <;> simp [R]
    refine ⟨⟨R, some s.value, s.needs R⟩, ?_, ?_, congrArg some hvalue⟩
    · exact mem_append_right us (mem_map.mpr ⟨R, hmem, rfl⟩)
    · show some s.plan.target.number = some n
      rw [htarget]
      rfl

theorem Traces.served (h : Traces e purpose tn steps) (hclear : e.Clear) : purpose.Served (readings pos steps) e := by
  have last : ∀ {e : Expr} (steps : List Step) (s : Step), s.value = e →
      Purpose.Served (readings pos (steps ++ [s])) e (.assign s.plan.target) := by
    intro e steps s hvalue
    rw [readings_append]
    show Purpose.Served (_ ++ (s.readings pos ++ [])) e _
    rw [append_nil]
    exact served_last rfl hvalue
  induction h with
  | data k => exact fun ht => absurd ht (by decide)
  | held h ih => exact ih hclear
  | own n => exact fun ht => absurd ht hclear.paramAt
  | temporary hnumber h ih => exact fun _ => ih hclear
  | const k target tn => exact last [] _ rfl
  | read n target tn => exact last [] _ rfl
  | computedRead target tn hnumber h ih => exact last _ _ rfl
  | combined target tn hcode hleft hright _ ihl ihr => exact last _ _ rfl

theorem fed_step (hpatch : Supplies supplied ((placeholders 0 s.plan.cells).map (·.param))
      (s.targetNeeds ++ patchNeeds s.value))
    (hassign : Supplies supplied [s.plan.src1.number, s.plan.src2] (assignNeeds s.value)) :
    Fed supplied (s.readings pos) := by
  unfold Step.readings AssignPlan.records Record.withPatches
  split
  · exact ⟨hassign, trivial⟩
  · exact ⟨hpatch, hassign.mono fun p hp => .inl hp, trivial⟩

theorem supplies_patches {plan : AssignPlan} (htarget : plan.target.Needs supplied tn)
    (hsource : Supplies supplied ((plan.src1.patches AssignRecord.src1Offset).map (·.param)) es) :
    Supplies supplied ((placeholders 0 plan.cells).map (·.param)) (tn ++ es) := by
  rw [AssignPlan.placeholders_cells, map_append]
  cases ht : plan.target with
  | known n =>
    rw [ht] at htarget
    obtain rfl : tn = [] := htarget
    exact hsource
  | held n =>
    rw [ht] at htarget
    obtain ⟨e, rfl, hsupplied⟩ := htarget
    exact ⟨hsupplied, hsource⟩

/-- **What a step reads in a temporary parameter has been computed by a step before it.** -/
theorem Traces.fed (h : Traces e purpose tn steps) (hclear : e.Clear)
    (htarget : purpose.Needs supplied tn) : Fed supplied (readings pos steps) := by
  have hzero : ¬IsTemporary 0 := by decide
  have hdata : ¬IsTemporary AssignRecord.dataSource := by decide
  have one : ∀ {supplied : Int × Expr → Prop} {s : Step}, Fed supplied (s.readings pos) →
      Fed supplied (readings pos [s]) := by
    intro supplied s hs
    show Fed supplied (s.readings pos ++ [])
    rwa [append_nil]
  induction h generalizing supplied with
  | data k => trivial
  | held h ih => exact ih hclear rfl
  | own => trivial
  | temporary hnumber h ih => exact ih hclear rfl
  | const k target tn => exact one (fed_step (supplies_patches htarget trivial) ⟨hdata, hzero, trivial⟩)
  | read hn target tn =>
    refine one (fed_step (supplies_patches htarget trivial) ⟨fun ht => ?_, hzero, trivial⟩)
    exact absurd ht hclear.paramAt
  | @computedRead number n steps target tn hnumber h ih =>
    have hneeds : patchNeeds (.param number) = [number] ∧ assignNeeds (.param number) = [] := by
      cases number with
      | const k => exact absurd ⟨k, rfl⟩ hnumber
      | _ => exact ⟨rfl, rfl⟩
    rw [readings_append]
    refine (ih hclear.2 rfl).append (one (fed_step ?_ ?_))
    · refine supplies_patches ?_ ?_
      · cases target with
        | known n => exact htarget
        | held n =>
          obtain ⟨e, rfl, hsupplied⟩ := htarget
          exact ⟨e, rfl, fun ht => .inl (hsupplied ht)⟩
      · rw [hneeds.1]
        exact ⟨fun ht => .inr (h.served hclear.2 ht), trivial⟩
    · rw [hneeds.2]
      exact ⟨hzero, hzero, trivial⟩
  | @combined op code left right s₁ s₂ d₁ d₂ first second target tn hcode hleft hright _ ihl ihr =>
    have hclearRight : (rightOperand op right).Clear := clear_rightOperand hclear.2
    have hfirst : Fed supplied (readings pos first) := ihl hclear.1 rfl
    rw [readings_append, readings_append]
    refine (hfirst.append (ihr hclearRight rfl)).append (one (fed_step (supplies_patches ?_ trivial) ?_))
    · cases target with
      | known n => exact htarget
      | held n =>
        obtain ⟨e, rfl, hsupplied⟩ := htarget
        exact ⟨e, rfl, fun ht => .inl (hsupplied ht)⟩
    · refine ⟨fun ht => .inr ?_, fun ht => .inr ?_, trivial⟩
      · exact computedIn_append.mpr (.inl (hleft.served hclear.1 ht))
      · exact computedIn_append.mpr (.inr (hright.served hclearRight ht))

/-! ## Operands, conditions and assignments -/

theorem operandParam_traces {e : Expr} : Yields (operandParam e pos) fun x =>
    ∃ steps, Traces e.fold (.hold x.2) [] steps ∧ (readings pos steps).map Reading.record = x.1 := by
  intro c x c' hok
  obtain ⟨steps, hsteps, hrecords, -⟩ := operandParam_steps hok
  exact ⟨steps, hsteps, (record_readings steps).trans hrecords.symm⟩

theorem lowerCondition_traces {cond : Expr} : Yields (lowerCondition cond pos) fun x =>
    ∃ steps, Traces (testedOperand cond).fold (.hold x.2.param) [] steps ∧
      (readings pos steps).map Reading.record = x.1 := by
  obtain ⟨condition, message, size, code, value, -, heq⟩ := lowerCondition_eq cond pos
  rw [heq]
  exact .after fun _ => operandParam_traces.bind fun x hx => .pure hx

theorem lowerAssignment_traces : Yields (lowerAssignment target value pos) fun rs =>
    ∃ steps, DeclaredTraces target.fold value.fold steps ∧ (readings pos steps).map Reading.record = rs := by
  intro c rs c' hok
  obtain ⟨steps, hsteps, hrecords, -⟩ := lowerAssignment_steps hok
  exact ⟨steps, hsteps, (record_readings steps).trans hrecords.symm⟩

theorem DeclaredTraces.fed (h : DeclaredTraces target value steps) (htarget : target.Clear) (hvalue : value.Clear) :
    Fed (fun _ => False) (readings pos steps) := by
  cases h with
  | known _ _ h => exact h.fed hvalue rfl
  | computed _ hfirst hsecond =>
    rw [readings_append]
    refine (hfirst.fed htarget rfl).append (hsecond.fed hvalue ⟨target, rfl, fun ht => ?_⟩)
    exact .inr (hfirst.served htarget ht)

end Lowering

end Grf
