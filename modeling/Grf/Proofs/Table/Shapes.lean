import Grf.Proofs.Lowering.Patches
import Grf.Proofs.Lowering.Program
import Grf.Proofs.Table.Shifts

/-! # What switches are lowered to

`StreamOf` puts together the streams that expressions are lowered to, with the records before them, and
`TableOf` says which tables a switch has. Both hold all that has been checked on the way. What is true of
streams and tables, whatever the state of the lowering is, follows by induction over them
(`lowerOperands_streamOf`, `lowerSwitch_tablesOf`).
-/

namespace Grf

open List Grf.Stream Option

namespace Stream

@[simp] theorem items_append (s t : Stream) : (s ++ t).items = s.items ++ t.items := rfl

@[simp] theorem items_ofOp (op : Operator) : (ofOp op).items = [.op op] := rfl

@[simp] theorem items_ofOperand (e : Expr) (width : Int) : (ofOperand e width).items = [.operand e] := rfl

end Stream

/-! ## Operands -/

/-- Whether an expression is written as a field of a variable: a number, or a parameter. -/
def Expr.IsField : Expr → Prop
  | const _ => True
  | param (const n) => 0 ≤ n ∧ n ≤ 0xFF
  | _ => False

theorem Expr.IsField.isImmediate {e : Expr} (h : e.IsField) : e.isImmediate = true := by
  unfold IsField at h
  split at h
  · rfl
  · rfl
  · cases h

/-- Whether an expression is written as the parameter of a variable, in one byte. -/
structure Expr.IsByte (e : Expr) : Prop where
  field : e.IsField
  range : ∀ k, e = const k → 0 ≤ k ∧ k ≤ 0xFF

theorem Expr.IsByte.isImmediate {e : Expr} (h : e.IsByte) : e.isImmediate = true := h.field.isImmediate

/-- A property that the parts of an expression inherit from it. -/
structure Expr.Inherited (Q : Expr → Prop) : Prop where
  binary : ∀ {op l r}, Q (binary op l r) → Q l ∧ Q r
  arg : ∀ {v : VarRead Expr} {arg}, v.param = some arg → Q (var v) → Q arg

theorem Expr.everywhere_inherited (Q : Expr → Prop) : Inherited (Everywhere Q) :=
  ⟨fun h => (everywhere_binary.mp h).2, fun harg h => (everywhere_var.mp h).2 _ harg⟩

/-- A slot that has been made for an operand and waits for its register. -/
def Slot.IsSpill (s : Slot) : Prop := ∃ n, s = .spill n

/-- What is checked of a variable. -/
structure VarRead.Checked (v : VarRead Expr) : Prop where
  num : 0 ≤ v.num ∧ v.num ≤ 0xFF
  divisor : (v.div.isSome && v.mod.isSome) = false
  fields : ∀ field ∈ [v.mask, v.add, v.div, v.mod], ∀ e ∈ field, e.IsField

theorem VarRead.Checked.immediate {v : VarRead Expr} (h : v.Checked) :
    ∀ field ∈ [v.mask, v.add, v.div, v.mod], ∀ e ∈ field, e.isImmediate = true :=
  fun field hf e he => (h.fields field hf e he).isImmediate

/-- Whether a result can be written: a number for the caller is in range. -/
def TableResult.InRange : TableResult → Prop
  | .callback value => 0 ≤ value ∧ value ≤ Lowering.maxCallback
  | .ref .. => True

/-- The expressions of a switch: the one it computes and those of its results. -/
def Switch.expressions (s : Switch) : List Expr := s.expr :: s.ranges.filterMap (·.result) ++ s.default.toList

namespace Lowering

/-! ## Lowerings of strings -/

variable {T : String → Int → Prop} {node slot : Nat} {feature width : Int} {pos : Position} {e : Expr} {stream : Stream}
  {before rs : List Record}

/-- If in the end every string has the id that `T` says, then this is so from the start, and the result of the lowering
has the property `P`. -/
def Settles {α : Type} (T : String → Int → Prop) (m : Lowering α) (P : α → Prop) : Prop :=
  ∀ c a c', m c = .ok a c' → (∀ name id, c'.textId? name = some id → T name id) →
    (∀ name id, c.textId? name = some id → T name id) ∧ P a

abbrev anyId : String → Int → Prop := fun _ _ => True

namespace Settles

variable {α β : Type} {P : α → Prop} {Q : β → Prop} {m : Lowering α} {f : α → Lowering β}

theorem pure {a : α} (h : P a) : Settles T (pure a) P := by
  intro c b c' hok hT
  obtain ⟨rfl, rfl⟩ := pure_eq_ok.mp hok
  exact ⟨hT, h⟩

theorem fail {kind : ErrorKind} {message : String} : Settles T (fail kind pos message) P :=
  fun _ _ _ hok => (fail_eq_ok.mp hok).elim

theorem bind (hm : Settles T m P) (hf : ∀ a, Settles T (f a) fun b => P a → Q b) : Settles T (m >>= f) Q := by
  intro c b c' hok hT
  obtain ⟨a, d, ha, hb⟩ := bind_eq_ok.mp hok
  obtain ⟨hd, hQ⟩ := hf a d b c' hb hT
  obtain ⟨hc, hP⟩ := hm c a d ha hd
  exact ⟨hc, hQ hP⟩

theorem of_program {R : List Int → α → Prop} (h : Program Set.univ m R) (hP : Yields m P) : Settles T m P := by
  intro c a c' hok hT
  have hlast := h.lasting (texts_lasting _) c
  rw [endState_of_ok hok] at hlast
  exact ⟨fun name id hid => hT name id (hlast name id hid), hP c a c' hok⟩

theorem mono {Q : α → Prop} (h : Settles T m P) (hQ : ∀ a, P a → Q a) : Settles T m Q := fun c a c' hok hT =>
  (h c a c' hok hT).imp_right (hQ a)

theorem after {R : List Int → α → Prop} (h : Program Set.univ m R) (hf : ∀ a, Settles T (f a) Q) :
    Settles T (m >>= f) Q :=
  bind (of_program h fun _ _ _ _ => trivial) fun a => (hf a).mono fun _ h _ => h

theorem check {condition : Bool} {kind : ErrorKind} {message : String} :
    Settles T (failIf condition kind pos message) fun _ => condition = false :=
  of_program .failIf Yields.failIf

theorem yields (h : Settles anyId m P) : Yields m P := fun c a c' hok => (h c a c' hok fun _ _ _ => trivial).2

theorem mapM {R : α → β → Prop} (hf : ∀ a, Settles T (f a) (R a)) (as : List α) :
    Settles T (as.mapM f) (Forall₂ R as) := by
  induction as with
  | nil => exact .pure .nil
  | cons a as ih =>
    rw [List.mapM_cons]
    exact (hf a).bind fun b => ih.bind fun bs => .pure fun hbs hb => .cons hb hbs

end Settles

theorem resolveString_settles {name : String} : Settles T (resolveString feature name pos) fun x =>
    T name x.1 ∧ ∀ R ∈ x.2, IsCheckedText x.1 R := by
  intro c x c' hok hT
  obtain ⟨hext, hid, -⟩ := resolveString_spec hok
  exact ⟨fun other i hi => hT other i (hext.texts other i hi), hT name _ hid, resolveString_texts name c x c' hok⟩

/-! ## Streams -/

/-- The variable that an expression is read from, and the records that come before it. Strings have the ids that `T`
says. -/
inductive OperandOf (T : String → Int → Prop) (pos : Position) : Expr → VarRead Expr → List Record → Prop
  | const (c : Int) : OperandOf T pos (.const c) (Expr.constantVar c) []
  | param {number : Expr} {n : Int} {steps : List Step} (h : Traces (Expr.param number).fold (.hold n) [] steps) :
      OperandOf T pos (.param number) { num := VarRead.constantNum, mask := some (.paramAt n) }
        (planned pos steps)
  | string {name : String} (id : Int) {given : Int} {before : List Record} (hid : T name given)
      (h : ∀ R ∈ before, IsCheckedText given R) :
      OperandOf T pos (.string name id) (Expr.constantVar given) before
  | record (name : String) (id : Int) : OperandOf T pos (.record name id) (Expr.procedureCall (.recordRef name)) []
  | read {v : VarRead Expr} (h : v.Checked) (harg : ∀ e ∈ v.param, e.IsByte) : OperandOf T pos (.var v) v []

/-- The stream that an expression is lowered to, and the records that come before its table. The slots of
the stream have numbers from `slot` on. -/
inductive StreamOf (T : String → Int → Prop) (width : Int) (pos : Position) : Expr → Nat → Stream → List Record → Prop
  | operand {e : Expr} {v : VarRead Expr} {before : List Record} (slot : Nat) (h : OperandOf T pos e v before) :
      StreamOf T width pos e slot (.ofOperand (.var v) width) before
  | store (kept : Slot) (slot : Nat) : StreamOf T width pos (.store kept) slot (.ofOperand (.store kept) width) []
  | load (kept : Slot) (slot : Nat) : StreamOf T width pos (.load kept) slot (.ofOperand (.load kept) width) []
  | indirect {v : VarRead Expr} {arg : Expr} {slot : Nat} {stream : Stream} {before : List Record}
      (harg : v.param = some arg) (himm : arg.isImmediate = false) (h : v.Checked)
      (hnum : 0x60 ≤ v.num ∧ v.num ≤ 0x7F) (hstream : StreamOf T width pos arg slot stream before) :
      StreamOf T width pos (.var v) slot (stream ++ .ofOp .val2 ++ .ofOperand (.var (Table.indirect v)) width) before
  | simple {op : Operator} {left right : Expr} {slot : Nat} {rs ls : Stream} {before others : List Record}
      (hop : op.tableCode?.isSome = true) (hsimple : right.isSimple = true)
      (hright : StreamOf T width pos right slot rs before)
      (hleft : StreamOf T width pos left (slot + right.spills) ls others) :
      StreamOf T width pos (.binary op left right) slot (ls ++ .ofOp op ++ rs) (before ++ others)
  | spilled {op : Operator} {left right : Expr} {slot : Nat} {rs ls : Stream} {before others : List Record}
      (hop : op.tableCode?.isSome = true) (hsimple : right.isSimple = false)
      (hright : StreamOf T width pos right slot rs before)
      (hleft : StreamOf T width pos left (slot + right.spills + 1) ls others) :
      StreamOf T width pos (.binary op left right) slot
        (rs ++ .ofOp .stoTmp ++ .ofOperand (.store (.spill (slot + right.spills))) width ++ .ofOp .val2 ++
          ls ++ .ofOp op ++ .ofOperand (.load (.spill (slot + right.spills))) width) (before ++ others)

/-- **What a stream is made of.** Its elements have the property `P` if the expression has a property `Q` that is
needed for it and that its parts inherit. -/
theorem StreamOf.forall_mem {P : StreamItem → Prop} {Q : Expr → Prop}
    (h : StreamOf T width pos e slot stream before) (hQ : Expr.Inherited Q) (he : Q e)
    (hop : ∀ op : Operator, op.tableCode?.isSome = true → P (.op op))
    (hread : ∀ a v before, OperandOf T pos a v before → Q a → P (.operand (.var v)))
    (hindirect : ∀ v : VarRead Expr, v.Checked → Q (.var v) → P (.operand (.var (Table.indirect v))))
    (hstore : ∀ kept, Q (.store kept) ∨ kept.IsSpill → P (.operand (.store kept)))
    (hload : ∀ kept, Q (.load kept) ∨ kept.IsSpill → P (.operand (.load kept))) : ∀ item ∈ stream.items, P item := by
  induction h with
  | operand slot h => exact forall_mem_singleton.mpr (hread _ _ _ h he)
  | store kept slot => exact forall_mem_singleton.mpr (hstore kept (.inl he))
  | load kept slot => exact forall_mem_singleton.mpr (hload kept (.inl he))
  | indirect harg _ hv _ _ ih =>
    simp only [items_append, items_ofOp, items_ofOperand, forall_mem_append, forall_mem_singleton]
    exact ⟨⟨ih (hQ.arg harg he), hop .val2 rfl⟩, hindirect _ hv he⟩
  | simple hcode _ _ _ ihr ihl =>
    obtain ⟨hleft, hright⟩ := hQ.binary he
    simp only [items_append, items_ofOp, forall_mem_append, forall_mem_singleton]
    exact ⟨⟨ihl hleft, hop _ hcode⟩, ihr hright⟩
  | spilled hcode _ _ _ ihr ihl =>
    obtain ⟨hleft, hright⟩ := hQ.binary he
    simp only [items_append, items_ofOp, items_ofOperand, forall_mem_append, forall_mem_singleton]
    exact ⟨⟨⟨⟨⟨⟨ihr hright, hop .stoTmp rfl⟩, hstore _ (.inr ⟨_, rfl⟩)⟩, hop .val2 rfl⟩, ihl hleft⟩, hop _ hcode⟩,
      hload _ (.inr ⟨_, rfl⟩)⟩

theorem StreamOf.forall_before {P : Record → Prop} (h : StreamOf T width pos e slot stream before)
    (hplanned : ∀ steps, ∀ R ∈ planned pos steps, P R) (htext : ∀ R name id, T name id → IsCheckedText id R → P R) :
    ∀ R ∈ before, P R := by
  induction h with
  | operand slot h =>
    cases h with
    | param => exact hplanned _
    | string _ hid h => exact fun R hR => htext R _ _ hid (h R hR)
    | _ => simp
  | store | load => simp
  | indirect _ _ _ _ _ ih => exact ih
  | simple _ _ _ _ ihr ihl | spilled _ _ _ _ ihr ihl => exact forall_mem_append.mpr ⟨ihr, ihl⟩

theorem isField_of_check {n : Int} (h : (decide (n < 0) || decide (0xFF < n)) = false) : (Expr.paramAt n).IsField := by
  simp only [Bool.or_eq_false_iff, decide_eq_false_iff_not] at h
  exact ⟨by omega, by omega⟩

theorem checkVarField_isField (field : Option Expr) :
    Yields (checkVarField pos field) fun _ => ∀ e ∈ field, e.IsField := by
  cases field with
  | none => exact .pure (by simp)
  | some e =>
    cases e with
    | const k => exact .pure fun _ h => mem_some.mp h ▸ trivial
    | param number =>
      cases number with
      | const n => exact fun _ _ _ hok _ h => mem_some.mp h ▸ isField_of_check (failIf_eq_ok.mp hok).1
      | _ => exact .fail
    | _ => exact .fail

theorem checkVar_checked (v : VarRead Expr) : Yields (checkVar v pos) fun _ => v.Checked := by
  refine Yields.failIf.bind fun _ hnum => Yields.failIf.bind fun _ hdivisor c u c' hok => ?_
  refine ⟨?_, hdivisor, Yields.forM checkVarField_isField _ c u c' hok⟩
  grind

/-- **An expression is lowered part by part.** -/
theorem lowerOperands_streamOf :
    Settles T (lowerOperands node feature width pos e slot) fun x => StreamOf T width pos e slot x.1 x.2 := by
  have hchecked : ∀ v : VarRead Expr, Settles T (checkVar v pos) fun _ => v.Checked := fun v =>
    .of_program checkVar_program (checkVar_checked v)
  induction e using Expr.byParts generalizing slot with
  | const k => exact .pure (.operand slot (.const k))
  | param number =>
    refine (Settles.of_program operandParam_program operandParam_yields).bind fun x => .pure fun hx => ?_
    obtain ⟨steps, hsteps, hrecords⟩ := hx
    exact hrecords ▸ .operand slot (.param hsteps)
  | string name id => exact resolveString_settles.bind fun x => .pure fun hx => .operand slot (.string id hx.1 hx.2)
  | record name id => exact .after (addRef_program (Set.mem_univ _)) fun _ => .pure (.operand slot (.record name id))
  | store kept => exact .pure (.store kept slot)
  | load kept => exact .pure (.load kept slot)
  | not operand => exact .fail
  | bare num shift mask add div mod =>
    exact (hchecked _).bind fun _ => .pure fun hv => .operand slot (.read hv (by simp))
  | var num arg shift mask add div mod ih =>
    cases himm : arg.isImmediate with
    | true =>
      cases arg with
      | const k =>
        refine (hchecked _).bind fun _ => Settles.check.bind fun _ => .pure fun hk hv => ?_
        simp only [Bool.or_eq_false_iff, decide_eq_false_iff_not] at hk
        refine .operand slot (.read hv fun e he => mem_some.mp he ▸ ⟨trivial, ?_⟩)
        rintro _ ⟨⟩
        exact ⟨by omega, by omega⟩
      | param number =>
        cases number with
        | const n =>
          refine (hchecked _).bind fun _ => Settles.check.bind fun _ => .pure fun hn hv => ?_
          exact .operand slot (.read hv fun e he => mem_some.mp he ▸ ⟨isField_of_check hn, by rintro _ ⟨⟩⟩)
        | _ => cases himm
      | _ => cases himm
    | false =>
      rw [lowerOperands_computed himm]
      refine (hchecked _).bind fun _ => Settles.check.bind fun _ => ih.bind fun x => .pure fun hx hnum hv => ?_
      simp only [Bool.or_eq_false_iff, decide_eq_false_iff_not] at hnum
      exact .indirect rfl himm hv ⟨Int.not_lt.mp hnum.1, Int.not_lt.mp hnum.2⟩ hx
  | binary op left right ihl ihr =>
    simp only [lowerOperands]
    split
    · intro c x c' hok
      obtain ⟨_, d, hfail, -⟩ := bind_eq_ok.mp hok
      exact (fail_eq_ok.mp hfail).elim
    rename_i hop
    have hop : op.tableCode?.isSome = true := by simpa [isSome_iff_ne_none] using hop
    refine ihr.bind fun x => ?_
    cases hsimple : right.isSimple with
    | true => exact ihl.bind fun y => .pure fun hy hx => .simple hop hsimple hx hy
    | false => exact ihl.bind fun y => .pure fun hy hx => .spilled hop hsimple hx hy

/-! ## Tables -/

/-- The records of one table of a switch: its own one, or the one of a result that has to be computed. -/
inductive TableOf (T : String → Int → Prop) (s : Switch) : List Record → Prop
  | mk {part : Switch} {e : Expr} {head : TableHead} {ranges : List TableRange} {default : TableResult}
      (he : e ∈ s.expressions) (hpart : part.expr = e ∨ part.expr = e.fold) (hsize : part.varSize = s.varSize)
      (hwidth : IsWidth part.varSize)
      (hstream : StreamOf T part.varSize part.pos (part.expr.forTable part.varSize) 0 head.stream head.before)
      (hcount : ranges.length ≤ 0xFF) (hresults : ∀ range ∈ ranges, range.result.InRange)
      (hdefault : default.InRange) : TableOf T s (tableRecords part head [] ranges default)

/-- The records of some tables of a switch, one table after the other. -/
def TablesOf (T : String → Int → Prop) (s : Switch) (rs : List Record) : Prop :=
  ∃ parts : List (List Record), rs = parts.flatten ∧ ∀ part ∈ parts, TableOf T s part

variable {s : Switch}

theorem TablesOf.append {rs' : List Record} (h : TablesOf T s rs) (h' : TablesOf T s rs') :
    TablesOf T s (rs ++ rs') := by
  obtain ⟨parts, rfl, hparts⟩ := h
  obtain ⟨parts', rfl, hparts'⟩ := h'
  exact ⟨parts ++ parts', by simp, forall_mem_append.mpr ⟨hparts, hparts'⟩⟩

theorem TableOf.tablesOf (h : TableOf T s rs) : TablesOf T s rs := ⟨[rs], by simp, by simpa⟩

theorem tablesOf_nil : TablesOf T s [] := ⟨[], rfl, by simp⟩

theorem tablesOf_flatMap {α : Type} {xs : List α} {f : α → List Record} (h : ∀ x ∈ xs, TablesOf T s (f x)) :
    TablesOf T s (xs.flatMap f) := by
  induction xs with
  | nil => exact tablesOf_nil
  | cons x xs ih =>
    rw [forall_mem_cons] at h
    exact h.1.append (ih h.2)

theorem lowerTableHead_streamOf (s : Switch) : Settles T (lowerTableHead s) fun head =>
    s.ranges.length ≤ 0xFF ∧ IsWidth s.varSize ∧
      StreamOf T s.varSize s.pos (s.expr.forTable s.varSize) 0 head.stream head.before := by
  refine .after .failIf fun _ => Settles.check.bind fun _ => .after (define_program (Set.mem_univ _)) fun node =>
    .after log_program fun _ => Settles.bind
      (P := fun x => IsWidth s.varSize ∧ StreamOf T s.varSize s.pos (s.expr.forTable s.varSize) 0 x.1 x.2) ?_
      fun x => .pure fun hx hcount => ⟨by simpa using hcount, hx⟩
  refine Settles.check.bind fun _ => lowerOperands_streamOf.mono fun x hx hwidth => ⟨?_, hx⟩
  simp only [Bool.and_eq_false_iff, decide_eq_false_iff_not, not_not] at hwidth
  unfold IsWidth
  omega

theorem lowerResult_tablesOf {result : Option Expr} (hresult : ∀ e ∈ result, e ∈ s.expressions) :
    Settles T (lowerResult s node result pos) fun x => x.1.InRange ∧ TablesOf T s x.2 := by
  have computed : ∀ e : Expr, result.map Expr.fold = some e → Settles T (computedResult s node pos e) fun x =>
      x.1.InRange ∧ TablesOf T s x.2 := by
    intro e he
    obtain ⟨e', he', rfl⟩ := map_eq_some_iff.mp he
    refine .after generateName_program fun name => Settles.bind (P := TablesOf T s) ?_
      fun records => .after (addRef_program (Set.mem_univ _)) fun _ => .pure fun hrecords => ⟨trivial, hrecords⟩
    refine (lowerTableHead_streamOf _).bind fun head => .pure fun hhead => TableOf.tablesOf ?_
    exact .mk (hresult e' he') (.inr rfl) rfl hhead.2.1 hhead.2.2 (by simp) (by simp) ⟨by decide, by decide⟩
  unfold lowerResult
  split
  · exact .fail
  · refine Settles.check.bind fun _ => .pure fun hvalue => ⟨?_, tablesOf_nil⟩
    simp only [Bool.or_eq_false_iff, decide_eq_false_iff_not] at hvalue
    exact ⟨Int.not_lt.mp hvalue.1, Int.not_lt.mp hvalue.2⟩
  · exact .after (addRef_program (Set.mem_univ _)) fun _ => .pure ⟨trivial, tablesOf_nil⟩
  · exact computed _ ‹_›
  · exact computed _ ‹_›
  · exact computed _ ‹_›
  · exact computed _ ‹_›
  · exact .fail

/-- **A switch is lowered to its tables**, those of its results before its own one. -/
theorem lowerSwitch_tablesOf (s : Switch) : Settles T (lowerSwitch s) (TablesOf T s) := by
  have hrange : ∀ (node : Nat) (x : SwitchRange × Nat), Settles T (lowerRange s node x.1
      (positionOr x.1.pos (s.pos.sub ("ranges[" ++ toString x.2 ++ "]")))) fun y =>
      x.1 ∈ s.ranges → y.1.result.InRange ∧ TablesOf T s y.2 := by
    refine fun node x => .after .failIf fun _ => .after .failIf fun _ => .after .failIf fun _ => ?_
    by_cases hx : x.1 ∈ s.ranges
    · refine (lowerResult_tablesOf fun e he => ?_).bind fun y => .pure fun hy _ => hy
      simp only [Switch.expressions, mem_cons, mem_append, mem_filterMap]
      exact .inl (.inr ⟨x.1, hx, he⟩)
    · exact .after (lowerResult_program (Set.mem_univ _)) fun y => .pure fun h => absurd h hx
  refine (lowerTableHead_streamOf s).bind fun head => (Settles.mapM (hrange head.node) _).bind fun ranges =>
    (lowerResult_tablesOf (by simp +contextual [Switch.expressions])).bind fun default => .pure
      fun hdefault hranges hhead => ?_
  have hall : ∀ y ∈ ranges, y.1.result.InRange ∧ TablesOf T s y.2 := by
    intro y hy
    obtain ⟨x, hx, hxy⟩ := exists_left_of_forall₂ hranges hy
    exact hxy (fst_mem_of_mem_zipIdx hx)
  have hcount : ranges.length = s.ranges.length := by simpa using hranges.length_eq.symm
  have hrecords : tableRecords s head (ranges.flatMap (·.2) ++ default.2) (ranges.map (·.1)) default.1 =
      ranges.flatMap (·.2) ++ default.2 ++ tableRecords s head [] (ranges.map (·.1)) default.1 := by
    simp [tableRecords]
  rw [hrecords]
  refine ((tablesOf_flatMap fun y hy => (hall y hy).2).append hdefault.2).append (TableOf.tablesOf ?_)
  refine .mk (e := s.expr) (by simp [Switch.expressions]) (.inl rfl) rfl hhead.2.1 hhead.2.2 ?_ ?_ hdefault.1
  · rw [length_map, hcount]
    exact hhead.1
  · exact forall_mem_map.mpr fun y hy => (hall y hy).1

end Lowering

end Grf
