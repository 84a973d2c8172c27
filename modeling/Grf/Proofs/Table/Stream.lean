import Grf.Proofs.Lowering.Supplied
import Grf.Proofs.Table.Machine

/-! # Streams compute their expressions

After the records that are made for it, the operand stream of an expression has the value of `Expr.asRead` of the
expression (`StreamOf.spec`), by induction over the stream. This is the value of the expression itself, as long as no
variable with a computed parameter is the right operand of an operator (`lowerStream_computes`).
-/

namespace Grf

open List Grf.Expr VarRead

/-! ## Reads of variables in two environments -/

def Env.withParams (env : Env) (params : Params) : Env := { env with params }

section Reads

variable {env : Env} {q : Params}

theorem field?_withParams {field : Expr} (h : ∀ n ∈ fieldReads (some field), q.read n = env.params.read n) :
    (env.withParams q).field? field = env.field? field := by
  unfold Env.field?
  split
  · rfl
  · exact congrArg some (h _ (by simp [fieldReads]))
  · rfl

theorem fieldOr?_withParams {default : Word} {field : Option Expr}
    (h : ∀ n ∈ fieldReads field, q.read n = env.params.read n) :
    (env.withParams q).fieldOr? default field = env.fieldOr? default field := by
  cases field with
  | none => rfl
  | some field => exact field?_withParams h

variable {v : VarRead Expr} (h : ∀ n ∈ Expr.fieldReads v.mask ++ Expr.fieldReads v.add ++
  Expr.fieldReads v.div ++ Expr.fieldReads v.mod, q.read n = env.params.read n)

include h

theorem adjust?_withParams {raw : Word} : v.adjust? (env.withParams q) raw = v.adjust? env raw := by
  simp only [mem_append] at h
  unfold adjust?
  rw [fieldOr?_withParams fun n hn => h n (by tauto), fieldOr?_withParams fun n hn => h n (by tauto)]
  have hdivided : (env.withParams q).divided? v.div v.mod = env.divided? v.div v.mod := by
    unfold Env.divided?
    cases hdiv : v.div <;> cases hmod : v.mod <;> simp only [] <;>
      first | rfl | rw [field?_withParams fun n hn => h n (by simp [hdiv, hmod, hn])]
  rw [hdivided]

theorem read?_withParams {arg : Option Word} : v.read? (env.withParams q) arg = v.read? env arg := by
  unfold read?
  have hadjust : v.adjust? (env.withParams q) = v.adjust? env := funext fun _ => adjust?_withParams h
  rw [hadjust]
  rfl

theorem operand?_indirect {st : TableState} :
    Table.operand? (env.withParams q) st (.var (Table.indirect v)) = v.read? env (some st.value) := by
  exact read?_withParams h

end Reads

namespace Table

/-- Whether a slot is one of the spills from `first` up to `last`. -/
def Spilled (first last : Nat) (s : Slot) : Prop := ∃ i, first ≤ i ∧ i < last ∧ s = .spill i

/-- At the start of a table, a stream computes `value` and stores in spills from `first` up to `last`
only. -/
def Computes (env : Env) (items : List StreamItem) (first last : Nat) (value : Option Word) : Prop :=
  ∀ st : TableState, ∃ slots, (∀ s, ¬Spilled first last s → slots s = st.slots s) ∧
    run? env (.op .val2 :: items) st = value.map fun v => ⟨v, slots⟩

/-- After an operator, the stream of a simple expression makes `Expr.afterValue?` of the value. -/
def Combines (env source : Env) (items : List StreamItem) (e : Expr) : Prop :=
  ∀ op (st : TableState), run? env (.op op :: items) st =
    (e.afterValue? source op st.value).map fun value => { st with value }

variable {env source : Env} {e : Expr} {items : List StreamItem}

theorem Combines.computes (h : Combines env source items e) (he : e.isSimple = true)
    (first last : Nat) : Computes env items first last (e.asRead.value? source) := by
  intro st
  refine ⟨st.slots, fun _ _ => rfl, ?_⟩
  rw [h, afterValue?_val2 he, asRead_of_isSimple he]

theorem combines_operand {v : VarRead Expr} (hv : ∀ st, operand? env st (.var v) = e.value? source)
    (hafter : ∀ op acc, e.afterValue? source op acc = (e.value? source).bind (op.tableValue? acc)) :
    Combines env source [.operand (.var v)] e := by
  intro op st
  rw [run?_var, hv, hafter]
  cases e.value? source <;> rfl

theorem Computes.spilled {left right : List StreamItem} {first slot last : Nat} {l r : Option Word}
    (hright : Computes env right first slot r) (hleft : Computes env left (slot + 1) last l)
    (hfirst : first ≤ slot) (hlast : slot < last) (hpr : Paired (.op .val2 :: right))
    (hpl : Paired (.op .val2 :: left)) (op : Operator) :
    Computes env (right ++ ([.op .stoTmp, .operand (.store (.spill slot))] ++
      ((.op .val2 :: left) ++ [.op op, .operand (.load (.spill slot))]))) first last
      (l.bind fun x => r.bind fun y => op.tableValue? x y) := by
  intro st
  obtain ⟨slots, hslots, hrun⟩ := hright st
  rw [← cons_append, run?_append hpr, hrun]
  cases r with
  | none => exact ⟨st.slots, fun _ _ => rfl, by cases l <;> rfl⟩
  | some y =>
    obtain ⟨slots', hslots', hrun'⟩ := hleft ⟨y, Function.update slots (.spill slot) y⟩
    -- the left operand does not store in the slot of the right one
    have hkept : slots' (.spill slot) = y := by
      refine (hslots' _ ?_).trans (Function.update_self ..)
      rintro ⟨i, h1, -, h⟩
      injection h with h
      omega
    refine ⟨slots', fun s hs => ?_, ?_⟩
    · have h1 : slots' s = Function.update slots (.spill slot) y s :=
        hslots' s fun ⟨i, h1, h2, h⟩ => hs ⟨i, by omega, h2, h⟩
      have h2 : slots s = st.slots s := hslots s fun ⟨i, h1, h2, h⟩ => hs ⟨i, h1, by omega, h⟩
      rw [h1, Function.update_of_ne (fun h => hs ⟨slot, hfirst, hlast, h⟩), h2]
    · show run? env ((.op .val2 :: left) ++ [.op op, .operand (.load (.spill slot))])
        ⟨y, Function.update slots (.spill slot) y⟩ = _
      grind [run?_append, run?_load]

theorem operand?_constantNum (st : TableState) (field : Expr) :
    operand? env st (.var { num := constantNum, mask := some field }) = env.field? field := by
  show ((env.field? field).bind fun mask => some ((BitVec.allOnes 32 >>> 0 &&& mask) + 0)) = _
  cases env.field? field with
  | none => rfl
  | some mask =>
    show some ((BitVec.allOnes 32 >>> 0 &&& mask) + 0#32) = _
    rw [BitVec.ushiftRight_zero, BitVec.allOnes_and, BitVec.add_zero]

theorem operand?_procedureCall (st : TableState) (name : String) :
    operand? env st (.var (procedureCall (.recordRef name))) = some (env.call name) := by
  show some (((env.call name) >>> 0 &&& BitVec.allOnes 32) + 0#32) = _
  rw [BitVec.and_allOnes, BitVec.ushiftRight_zero, BitVec.add_zero]

end Table

namespace Lowering

variable {T : String → Int → Prop} {env : Env} {e : Expr} {pos : Position} {stream : Stream} {before : List Record}
  {slot : Nat} {width n : Int} {v : VarRead Expr} {q : Params} {params params' : List Int}

/-- The parameters `q` are those with which a table is used. The stream of `e` reads what it needs in `params`. -/
structure Prepared (env : Env) (q : Params) (e : Expr) (params : List Int) : Prop where
  fixed : ∀ n ∈ e.fixedReads, q.read n = env.params.read n
  numbers : ∀ number ∈ e.computedReads, (Expr.param number).AssignFits env ∧ (number.value? env).isSome = true
  held : Forall₂ (fun n e => (0 ≤ n ∧ n ≤ 0xFF) ∧ ∀ w, e.AssignFits env → e.value? env = some w → q.read n = w)
    params e.needs

/-- What the stream of an expression does when it is used with the parameters `q`. -/
structure StreamSpec (env : Env) (q : Params) (e : Expr) (slot : Nat) (stream : Stream) : Prop where
  paired : ∀ op, Table.Paired (.op op :: stream.items)
  computes : Table.Computes (env.withParams q) stream.items slot (slot + e.spills) (e.asRead.value? env)
  combines : e.isSimple = true → Table.Combines (env.withParams q) env stream.items e

theorem streamSpec_operand (hsimple : e.isSimple = true)
    (hafter : ∀ op acc, e.afterValue? env op acc = (e.value? env).bind (op.tableValue? acc))
    (hv : ∀ st, Table.operand? (env.withParams q) st (.var v) = e.value? env) :
    StreamSpec env q e slot (.ofOperand (.var v) width) where
  paired := fun op => .cons op _ .nil
  computes := (Table.combines_operand hv hafter).computes hsimple _ _
  combines := fun _ => Table.combines_operand hv hafter

theorem field?_paramAt (h0 : 0 ≤ n) (h1 : n ≤ 0xFF) : env.field? (.paramAt n) = some (env.params.read n) := by
  show some (env.params.read (Word.ofInt n).lowByte) = _
  rw [Word.lowByte_ofInt h0 h1]

/-! ## Operands -/

theorem streamSpec_paramAt {k : Int} {steps : List Step} (h : Traces (.paramAt k) (.hold n) [] steps)
    (hq : ∀ n ∈ (paramAt k).fixedReads, q.read n = env.params.read n) :
    StreamSpec env q (.paramAt k) slot (.ofOperand (.var { num := constantNum, mask := some (.paramAt n) }) width) := by
  cases h with
  | temporary hnumber => cases hnumber
  | own =>
    refine streamSpec_operand rfl (fun _ _ => rfl) fun st => ?_
    rw [Table.operand?_constantNum]
    exact congrArg some (hq _ (by simp [fixedReads, paramAt]))

theorem streamSpec_param {number : Expr} (hfold : number.fold = number) (hconst : ¬∃ k, number = .const k)
    (hq : Prepared env q (.param number) [n]) :
    StreamSpec env q (.param number) slot (.ofOperand (.var { num := constantNum, mask := some (.paramAt n) }) width) := by
  obtain ⟨hreads, hsimple⟩ : (param number).computedReads = [number] ∧ (param number).isSimple = false := by
    cases number <;> first | exact ⟨rfl, rfl⟩ | exact absurd ⟨_, rfl⟩ hconst
  refine ⟨fun op => .cons op _ .nil, fun st => ?_, ?_⟩
  · obtain ⟨hfits, hsome⟩ := hq.numbers number (by simp [hreads])
    obtain ⟨x, hx⟩ := Option.isSome_iff_exists.mp hsome
    have hvalue : (param number).value? env = some (env.params.read x.lowByte) := by
      simp [value?, hx]
    obtain ⟨⟨hn, hheld⟩, -⟩ := forall₂_cons.mp hq.held
    rw [hfold] at hheld
    have hread := hheld _ hfits hvalue
    refine ⟨st.slots, fun _ _ => rfl, ?_⟩
    show Table.run? _ [.op .val2, .operand (.var _)] st = ((param number).value? env).map _
    rw [Table.run?_var, Table.operand?_constantNum, field?_paramAt hn.1 hn.2, hvalue, ← hread]
    rfl
  · rw [hsimple]
    rintro ⟨⟩

theorem directRead?_withParams (harg : v.param = none ∨ ∃ arg, v.param = some arg ∧ arg.isImmediate = true)
    (h : ∀ n ∈ (var v).fixedReads, q.read n = env.params.read n) :
    Table.directRead? (env.withParams q) v = (var v).value? env := by
  obtain ⟨num, arg, shift, mask, add, div, mod⟩ := v
  rcases harg with harg | ⟨arg', harg, himm⟩
  · obtain rfl : arg = none := harg
    exact read?_withParams (v := ⟨num, none, shift, mask, add, div, mod⟩) h
  · obtain rfl : arg = some arg' := harg
    simp only [fixedReads, mem_append] at h
    have hread : ∀ w, read? (env.withParams q) ⟨num, some arg', shift, mask, add, div, mod⟩ w =
        read? env ⟨num, some arg', shift, mask, add, div, mod⟩ w := fun w =>
      read?_withParams fun n hn => h n (.inr (by simpa [or_assoc] using hn))
    have hfield : (env.withParams q).field? arg' = arg'.value? env := by
      unfold isImmediate at himm
      split at himm
      · rfl
      · exact congrArg some (h _ (.inl (by simp [fixedReads])))
      · cases himm
    have hdirect : Table.directRead? (env.withParams q) ⟨num, some arg', shift, mask, add, div, mod⟩ =
        ((env.withParams q).field? arg').bind fun w =>
          read? (env.withParams q) ⟨num, some arg', shift, mask, add, div, mod⟩ (some w) := by
      unfold isImmediate at himm
      split at himm
      · rfl
      · rfl
      · cases himm
    rw [hdirect, hfield]
    simp only [hread]
    rfl

theorem isSimple_of_isImmediate {e : Expr} (h : e.isImmediate = true) : e.isSimple = true := by
  unfold isImmediate at h
  split at h
  · rfl
  · rfl
  · cases h

theorem OperandOf.spec (h : OperandOf T pos e v before) (hT : ∀ name id, T name id → env.text name = Word.ofInt id)
    (he : e.TableForm) (hq : Prepared env q e (Stream.ofOperand (.var v) width).params) :
    StreamSpec env q e slot (.ofOperand (.var v) width) := by
  cases h with
  | const k => exact streamSpec_operand rfl (fun _ _ => rfl) fun st => Table.operand?_constantNum st _
  | @param number n steps h =>
    by_cases hconst : ∃ k, number = .const k
    · obtain ⟨k, rfl⟩ := hconst
      exact streamSpec_paramAt h hq.fixed
    · exact streamSpec_param he hconst hq
  | string id hid h =>
    refine streamSpec_operand rfl (fun _ _ => rfl) fun st => ?_
    rw [constantVar, Table.operand?_constantNum]
    exact congrArg some (hT _ _ hid).symm
  | record name id => exact streamSpec_operand rfl (fun _ _ => rfl) fun st => Table.operand?_procedureCall st name
  | read hv harg =>
    obtain ⟨num, arg, shift, mask, add, div, mod⟩ := v
    cases arg with
    | none =>
      refine streamSpec_operand rfl (fun _ _ => rfl) fun st => ?_
      rw [Table.operand?, if_neg (show num ≠ computedParamNum from he)]
      exact directRead?_withParams (.inl rfl) hq.fixed
    | some arg =>
      have himm := (harg arg rfl).isImmediate
      have hsimple : arg.isSimple = true := isSimple_of_isImmediate himm
      refine streamSpec_operand hsimple (fun op acc => ?_) fun st => ?_
      · simp only [afterValue?, himm, if_true]
      · rw [Table.operand?, if_neg (show num ≠ computedParamNum from he.1)]
        exact directRead?_withParams (.inr ⟨arg, rfl, himm⟩) hq.fixed

theorem streamSpec_var {num shift : Int} {arg : Expr} {mask add div mod : Option Expr}
    (harg : arg.isImmediate = false) (ih : StreamSpec env q arg slot stream)
    (hfixed : ∀ n ∈ (var ⟨num, some arg, shift, mask, add, div, mod⟩).fixedReads, q.read n = env.params.read n) :
    StreamSpec env q (.var ⟨num, some arg, shift, mask, add, div, mod⟩) slot (stream ++ .ofOp .val2 ++
        .ofOperand (.var (Table.indirect ⟨num, some arg, shift, mask, add, div, mod⟩)) width) := by
  generalize hv : (⟨num, some arg, shift, mask, add, div, mod⟩ : VarRead Expr) = v at hfixed
  have hread : ∀ st, Table.run? (env.withParams q) [.op .val2, .operand (.var (Table.indirect v))] st =
      (v.read? env (some st.value)).map fun value => { st with value } := by
    subst hv
    intro st
    rw [Table.run?_var, operand?_indirect fun n hn => hfixed n (mem_append_right _ hn)]
    cases read? env _ (some st.value) <;> rfl
  have hitems : ∀ op, .op op :: (stream ++ .ofOp .val2 ++ .ofOperand (.var (Table.indirect v)) width).items =
      (.op op :: stream.items) ++ [.op .val2, .operand (.var (Table.indirect v))] := by
    intro op
    show StreamItem.op op :: (stream.items ++ [_] ++ [_]) = _
    simp
  subst hv
  refine ⟨fun op => ?_, fun st => ?_, fun hs op st => ?_⟩
  · rw [hitems]
    exact (ih.paired op).append (.cons _ _ .nil)
  · obtain ⟨slots, hslots, hrun⟩ := ih.computes st
    refine ⟨slots, hslots, ?_⟩
    rw [hitems, Table.run?_append (ih.paired _), hrun]
    simp only [asRead, harg, Bool.false_eq_true, if_false, value?]
    cases arg.asRead.value? env with
    | none => rfl
    | some w => exact hread ⟨w, slots⟩
  · rw [hitems, Table.run?_append (ih.paired _), ih.combines hs]
    simp only [afterValue?, harg, Bool.false_eq_true, if_false]
    cases arg.afterValue? env op st.value with
    | none => rfl
    | some w => exact hread ⟨w, st.slots⟩

/-! ## Operators -/

section Binary

variable {op : Operator} {left right : Expr} {leftStream rightStream : Stream}

theorem streamSpec_simple (hsimple : right.isSimple = true) (hright : StreamSpec env q right slot rightStream)
    (hleft : StreamSpec env q left (slot + right.spills) leftStream) :
    StreamSpec env q (.binary op left right) slot (leftStream ++ .ofOp op ++ rightStream) where
  paired := by
    intro op'
    show Table.Paired (StreamItem.op op' :: (leftStream.items ++ [.op op] ++ rightStream.items))
    rw [append_assoc, singleton_append, ← cons_append]
    exact (hleft.paired op').append (hright.paired op)
  computes := by
    intro st
    obtain ⟨slots, hslots, hrun⟩ := hleft.computes st
    refine ⟨slots, fun s hs => hslots s ?_, ?_⟩
    · rintro ⟨i, h1, h2, rfl⟩
      simp only [spills, hsimple] at hs
      exact hs ⟨i, by omega, by omega, rfl⟩
    · show Table.run? _ (StreamItem.op .val2 :: (leftStream.items ++ [.op op] ++ rightStream.items)) st = _
      rw [append_assoc, singleton_append, ← cons_append, Table.run?_append (hleft.paired _), hrun]
      simp only [asRead, hsimple, if_true]
      rw [value?_readAfter]
      cases left.asRead.value? env with
      | none => rfl
      | some w => exact hright.combines hsimple op ⟨w, slots⟩
  combines := nofun

theorem streamSpec_spilled (hsimple : right.isSimple = false) (hright : StreamSpec env q right slot rightStream)
    (hleft : StreamSpec env q left (slot + right.spills + 1) leftStream) :
    StreamSpec env q (.binary op left right) slot
      (rightStream ++ .ofOp .stoTmp ++ .ofOperand (.store (.spill (slot + right.spills))) width ++
        .ofOp .val2 ++ leftStream ++ .ofOp op ++
        .ofOperand (.load (.spill (slot + right.spills))) width) := by
  let kept : Slot := .spill (slot + right.spills)
  have hitems : ∀ op', .op op' :: (rightStream ++ .ofOp .stoTmp ++ .ofOperand (.store kept) width ++
      .ofOp .val2 ++ leftStream ++ .ofOp op ++ .ofOperand (.load kept) width).items =
        (.op op' :: rightStream.items) ++ ([.op .stoTmp, .operand (.store kept)] ++
          ((.op .val2 :: leftStream.items) ++ [.op op, .operand (.load kept)])) := by
    intro op'
    show StreamItem.op op' :: (rightStream.items ++ [_] ++ [_] ++ [_] ++ leftStream.items ++ [_] ++ [_]) = _
    simp
  refine ⟨fun op' => ?_, fun st => ?_, nofun⟩
  · rw [hitems]
    exact (hright.paired op').append ((Table.Paired.nil.cons _ _).append
      ((hleft.paired _).append (Table.Paired.nil.cons _ _)))
  · have hvalue := hright.computes.spilled hleft.computes (by omega) (by omega) (hright.paired _) (hleft.paired _) op st
    rw [hitems]
    simpa only [asRead, hsimple, Bool.false_eq_true, if_false, value?_binary, spills,
      Nat.add_assoc, cons_append] using hvalue

end Binary

theorem Prepared.part {a : Expr} (h : Prepared env q e params) (hfixed : a.fixedReads ⊆ e.fixedReads)
    (hnumbers : a.computedReads ⊆ e.computedReads)
    (hheld : Forall₂ (fun n e => (0 ≤ n ∧ n ≤ 0xFF) ∧ ∀ w, e.AssignFits env → e.value? env = some w → q.read n = w)
      params' a.needs) : Prepared env q a params' :=
  ⟨fun n hn => h.fixed n (hfixed hn), fun number hnumber => h.numbers number (hnumbers hnumber), hheld⟩

theorem forall₂_of_append {α β : Type} {R : α → β → Prop} {as as' : List α} {bs bs' : List β}
    (hlength : as.length = bs.length) (h : Forall₂ R (as ++ as') (bs ++ bs')) : Forall₂ R as bs ∧ Forall₂ R as' bs' := by
  have hfirst := forall₂_take as.length h
  have hsecond := forall₂_drop as.length h
  rw [take_left, take_left' hlength.symm] at hfirst
  rw [drop_left, drop_left' hlength.symm] at hsecond
  exact ⟨hfirst, hsecond⟩

/-- **A stream computes what `Expr.asRead` says**, if the parameters hold what it needs. -/
theorem StreamOf.spec (h : StreamOf T width pos e slot stream before)
    (hT : ∀ name id, T name id → env.text name = Word.ofInt id) (he : e.TableForm)
    (hq : Prepared env q e stream.params) : StreamSpec env q e slot stream := by
  induction h with
  | operand slot h => exact h.spec hT he hq
  | store | load => exact he.elim
  | @indirect v arg slot stream before harg himm hv hnum hstream ih =>
    obtain ⟨num, param, shift, mask, add, div, mod⟩ := v
    obtain rfl : param = some arg := harg
    have hheld := hq.held
    rw [Stream.params_append, Stream.params_append, Stream.params_ofOp, append_nil] at hheld
    simp only [Expr.needs, himm, Bool.false_eq_true, if_false] at hheld
    obtain ⟨harg, -⟩ := forall₂_of_append hstream.brings.length_eq hheld
    exact streamSpec_var himm (ih he.2 (hq.part (subset_append_left ..) (Subset.refl _) harg)) hq.fixed
  | simple hop hsimple hright hleft ihr ihl =>
    have hheld := hq.held
    rw [Stream.params_append, Stream.params_append, Stream.params_ofOp, append_nil] at hheld
    simp only [Expr.needs, hsimple, if_true] at hheld
    obtain ⟨hl, hr⟩ := forall₂_of_append hleft.brings.length_eq hheld
    exact streamSpec_simple hsimple (ihr he.2 (hq.part (subset_append_right ..) (subset_append_right ..) hr))
      (ihl he.1 (hq.part (subset_append_left ..) (subset_append_left ..) hl))
  | spilled hop hsimple hright hleft ihr ihl =>
    have hheld := hq.held
    simp only [Stream.params_append, Stream.params_ofOp, Stream.params_store, Stream.params_load, append_nil, Expr.needs,
      hsimple, Bool.false_eq_true, if_false] at hheld
    obtain ⟨hr, hl⟩ := forall₂_of_append hright.brings.length_eq hheld
    exact streamSpec_spilled hsimple (ihr he.2 (hq.part (subset_append_right ..) (subset_append_right ..) hr))
      (ihl he.1 (hq.part (subset_append_left ..) (subset_append_left ..) hl))

/-- Without computed numbers the records before a table assign to nothing. -/
theorem StreamOf.idle (h : StreamOf T width pos e slot stream before) (hreads : e.computedReads = []) :
    targets before = [] := by
  induction h with
  | operand slot h =>
    cases h with
    | const | record | read => rfl
    | string _ _ h => exact filterMap_eq_nil_iff.mpr fun r hr => (silent_of_isText (h r hr).isText).target
    | @param number n steps h =>
      cases number with
      | const k =>
        cases h with
        | own => rfl
        | temporary hnumber => cases hnumber
      | _ => cases hreads
  | store | load => rfl
  | @indirect v arg _ _ _ harg _ _ _ _ ih =>
    obtain ⟨num, param, shift, mask, add, div, mod⟩ := v
    obtain rfl : param = some arg := harg
    exact ih hreads
  | simple _ _ _ _ ihr ihl | spilled _ _ _ _ ihr ihl =>
    obtain ⟨hl, hr⟩ := append_eq_nil_iff.mp hreads
    rw [targets_append, ihr hr, ihl hl]
    rfl

end Lowering

def Env.after (env : Env) (records : List Record) : Env :=
  env.withParams (Engine.executeAll { params := env.params } records).params

namespace Lowering

variable {env : Env} {c c' : Context} {e : Expr} {pos : Position} {stream : Stream}
  {before : List Record} {node : Nat} {feature : Int}

/-- The parameters after the records of a stream are fit for running it. Without computed numbers the
records change no parameter at all, and otherwise they change temporary ones only. -/
theorem prepared_after {T : String → Int → Prop} {width : Int} (h : StreamOf T width pos e 0 stream before)
    (hdistinct : Distinct (targets before))
    (hnumbers : ∀ number ∈ e.computedReads, (param number).AssignFits env ∧ (number.value? env).isSome = true)
    (hfixed : e.computedReads = [] ∨ ∀ n ∈ e.fixedReads, ¬IsTemporary n) :
    Prepared env (env.after before).params e stream.params := by
  obtain ⟨ops, us, hgathers, rfl, -, hparams⟩ := h.brings
  refine ⟨fun n hn => Params.read_congr ?_, hnumbers, hparams.imp fun n e hmem => ?_⟩
  · refine ((hgathers.straight hdistinct).frame rfl).2 n ?_ False.elim
    rcases hfixed with hnone | hfixed
    · simp [h.idle hnone]
    · exact mt (hdistinct.temporary n) (hfixed n hn)
  · obtain ⟨hrange, hheld⟩ := hgathers.heldIn hdistinct _ hmem
    exact ⟨hrange, fun w hfits hw => (hheld env w hfits hw).2.2 _ rfl fun _ _ => rfl⟩

/-- **A decision table computes its expression.** In every environment, the stream of an expression has
the value of what is read from the table form of the expression. This is the value of the expression
itself if no variable with a computed parameter stands to the right of an operator, and no constant is
beyond the numbers that are folded correctly.

Parameters with computed numbers are assigned before the table, so that their numbers have to be
defined and fit for assignments, and the other parameters have to be no temporary ones. -/
theorem lowerStream_computes (env : Env)
    (h : lowerStream node feature e 4 pos c = .ok (stream, before) c') (hc : c.InRange)
    (hsource : e.Source)
    (htexts : ∀ name id, c'.textId? name = some id → env.text name = Word.ofInt id)
    (hnumbers : ∀ number ∈ (e.forTable 4).computedReads,
      (Expr.param number).AssignFits env ∧ (number.value? env).isSome = true)
    (hfixed : (e.forTable 4).computedReads = [] ∨ ∀ n ∈ (e.forTable 4).fixedReads, ¬IsTemporary n) :
    Table.value? (env.after before) stream.items = (e.forTable 4).asRead.value? env ∧
      ((e.forTable 4).Direct → e.NegationsFit → e.fold.ShiftsFit →
        Table.value? (env.after before) stream.items = e.value? env) := by
  obtain ⟨-, hstream⟩ := lowerOperands_streamOf (T := fun name id => env.text name = Word.ofInt id) c _ c' h htexts
  have hdistinct := ((lowerOperands_program (by simp)).distinct hc h).1
  have hprepared := prepared_after hstream hdistinct hnumbers hfixed
  obtain ⟨slots, -, hrun⟩ := (hstream.spec (fun _ _ => id) (tableForm_forTable hsource) hprepared).computes
    ⟨0, fun _ => 0⟩
  have hvalue : Table.value? (env.after before) stream.items = (e.forTable 4).asRead.value? env := by
    show (Table.run? (env.withParams (env.after before).params) _ _).map _ = _
    rw [hrun]
    cases (e.forTable 4).asRead.value? env <;> rfl
  refine ⟨hvalue, fun hdirect hnot hshift => ?_⟩
  rw [hvalue, Expr.asRead_of_direct hdirect, Expr.value?_forTable hnot hshift]

/-- A table with an operand that is kept in a slot, a variable with a computed parameter to the left of
the operator, and a parameter with a computed number. -/
theorem lowerStream_computes_spilled :
    let env : Env :=
      { engineVar := fun num arg => Word.ofInt num + arg.getD 0
        params := fun _ => 3
        call := fun _ => 0
        text := fun _ => 0 }
    let e : Expr :=
      .binary .sub (.var { num := 0x60, param := some (.binary .mul (.var { num := 0x41 }) (.const 5)) })
        (.param (.binary .add (.paramAt 1) (.const 2)))
    ∃ stream before c', lowerStream 0 0 e 4 {} (saveTemps (.create 0 none none)) = .ok (stream, before) c' ∧
        Table.value? (env.after before) stream.items = e.value? env ∧ e.value? env = some 418 := by
  intro env e
  have hok : succeeds (lowerStream 0 0 e 4 {}) (saveTemps (.create 0 none none))
      (fun _ c' => c'.strings.isNone) = true := by
    decide +kernel
  obtain ⟨⟨stream, before⟩, c', h, hstrings⟩ := eq_ok_of_succeeds hok
  have hc : (saveTemps (.create 0 none none)).InRange := saveTemps_inRange (Context.create_inRange 0 none none)
  have hform : e.forTable 4 = e := rfl
  have hvalue : e.value? env = some 418 := by decide +kernel
  refine ⟨stream, before, c', h, (lowerStream_computes env h hc ?_ ?_ ?_ ?_).2 ?_ ?_ ?_, hvalue⟩
  · exact ⟨⟨by decide, show (0x41 : Int) ≠ VarRead.computedParamNum by decide, trivial⟩, trivial⟩
  · intro name id hid
    simp [Context.textId?, Option.isNone_iff_eq_none.mp hstrings] at hid
  · intro number hnumber
    obtain rfl := List.mem_singleton.mp hnumber
    refine ⟨⟨⟨⟨trivial, fun w hw => ?_⟩, trivial, fun hshift => ?_⟩, fun w hw => ?_⟩, rfl⟩
    · cases hw
      decide
    · exact absurd hshift (by unfold Operator.IsShift; decide)
    · cases hw
      decide
  · exact Or.inr (by simp [hform, e, Expr.fixedReads, Expr.fieldReads])
  · exact ⟨⟨trivial, trivial, fun _ => rfl⟩, trivial, fun _ => rfl⟩
  · exact ⟨⟨trivial, trivial⟩, trivial, trivial⟩
  · exact ⟨⟨trivial, trivial, fun hop => absurd hop (by decide)⟩, trivial, fun hop => absurd hop (by decide)⟩

end Lowering

end Grf
