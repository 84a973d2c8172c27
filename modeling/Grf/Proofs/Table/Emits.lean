import Grf.Proofs.Lowering.Emits
import Grf.Proofs.Table.Shapes

/-! # References of decision tables

A decision table refers to the procedures that its stream calls and to its results. Each reference is counted when it is
lowered (`Calling`, `Answers`), while the definition of the table is pending. A result that is computed has a table of
its own, which goes before the table: if it refers back to the table, there is a cycle.
-/

namespace Grf

open List
open Registry (Referred Defined ShortCycle)

variable {r r' r'' : Registry} {node : Nat} {feature : Int} {pos : Position} {targets : List Nat}

namespace Stream

def names (s : Stream) : List String := (s.items.filterMap (·.reference?)).map Prod.fst

@[simp] theorem names_append (s t : Stream) : (s ++ t).names = s.names ++ t.names := by simp [names]

@[simp] theorem names_ofOp (op : Operator) : (ofOp op).names = [] := rfl

@[simp] theorem names_store (slot : Slot) (width : Int) : (ofOperand (.store slot) width).names = [] := rfl

@[simp] theorem names_load (slot : Slot) (width : Int) : (ofOperand (.load slot) width).names = [] := rfl

theorem names_var {v : VarRead Expr} (h : ∀ name id, v.param ≠ some (.record name id)) (width : Int) :
    (ofOperand (.var v) width).names = [] := by
  simp [StreamItem.reference?, names]

end Stream

/-- The references that a stream adds to the registry, for the definition `node`. -/
def Calling (node : Nat) (feature : Int) (r : Registry) (s : Stream) (r' : Registry) : Prop :=
  node < r.size → ∃ targets, Referred (some node) feature r targets r' ∧ s.names = targets.map r.nameOf

namespace Calling

variable {s t : Stream}

theorem none (h : s.names = []) : Calling node feature r s r := fun _ => ⟨[], .refl r, h⟩

theorem both (hs : Calling node feature r s r') (ht : Calling node feature r' t r'')
    (hnode : node < r.size) : ∃ first second, Referred (some node) feature r (first ++ second) r'' ∧
      s.names = first.map r.nameOf ∧ t.names = second.map r.nameOf := by
  obtain ⟨first, hfirst, hnames⟩ := hs hnode
  obtain ⟨second, hsecond, hnames'⟩ := ht (hfirst.size ▸ hnode)
  grind [hfirst.trans, hfirst.grows.map_nameOf, hfirst.size, hsecond.lt_size]

end Calling

namespace Lowering

variable {T : String → Int → Prop} {width : Int} {e : Expr} {slot : Nat} {stream : Stream} {before : List Record}

theorem StreamOf.detached (h : StreamOf T width pos e slot stream before) : AllDetached before :=
  h.forall_before allDetached_planned fun _ _ _ _ h => h.isText.detached

theorem StreamOf.callsOnly (h : StreamOf T width pos e slot stream before) : ∀ item ∈ stream.items, item.CallsOnly := by
  refine h.forall_mem (Q := fun _ => True) ⟨fun _ => ⟨trivial, trivial⟩, fun _ _ => trivial⟩ trivial
    (fun _ _ => trivial) (fun a v before h _ => ?_) (fun v _ _ => ?_) (fun _ _ => trivial) fun _ _ => trivial
  · cases h with
    | read _ harg => exact fun name id hparam => (harg _ hparam).field.elim
    | record => exact fun _ _ _ => rfl
    | _ => simp [StreamItem.CallsOnly, Expr.constantVar]
  · simp [StreamItem.CallsOnly, Table.indirect]

theorem lowerOperands_calling :
    Relates (lowerOperands node feature width pos e slot) fun r x r' => Calling node feature r x.1 r' := by
  have constant : ∀ (k : Int) (field : Option Expr),
      (Stream.ofOperand (.var { num := k, mask := field }) width).names = [] := fun _ _ =>
    Stream.names_var (by simp) width
  induction e using Expr.byParts generalizing slot with
  | const k => exact .pure fun r => .none (constant _ _)
  | param number => exact .after operandParam_detached fun x _ => .pure fun r => .none (constant _ _)
  | string name id => exact .after resolveString_detached fun x _ => .pure fun r => .none (constant _ _)
  | record name id =>
    refine addRef_relates.yield fun r _ r' hadd hnode => ?_
    obtain ⟨t, rfl, hreferred⟩ := hadd (by simpa using hnode)
    exact ⟨[t], hreferred, rfl⟩
  | store slot => exact .pure fun r => .none rfl
  | load slot => exact .pure fun r => .none rfl
  | not operand => exact .fail
  | bare num shift mask add div mod =>
    exact .after (.step checkVar_program) fun _ _ => .pure fun r => .none (Stream.names_var (by simp) width)
  | var num arg shift mask add div mod ih =>
    cases himm : arg.isImmediate with
    | true =>
      have hnames : (Stream.ofOperand (.var ⟨num, some arg, shift, mask, add, div, mod⟩) width).names = [] := by
        refine Stream.names_var (fun name id hparam => ?_) width
        rw [Option.some.inj hparam] at himm
        cases himm
      unfold Expr.isImmediate at himm
      split at himm
      · exact .after (.step checkVar_program) fun _ _ => .after .failIf fun _ _ => .pure fun r => .none hnames
      · exact .after (.step checkVar_program) fun _ _ => .after .failIf fun _ _ => .pure fun r => .none hnames
      · cases himm
    | false =>
      rw [lowerOperands_computed himm]
      refine .after (.step checkVar_program) fun _ _ => .after .failIf fun _ _ => ih.yield fun r x r' hx hnode => ?_
      obtain ⟨targets, hreferred, hnames⟩ := hx hnode
      refine ⟨targets, hreferred, ?_⟩
      simp_all [Stream.names_var, Table.indirect]
  | binary op left right ihl ihr =>
    simp only [lowerOperands]
    split
    · exact .after (p := fun _ => False) .fail fun _ h => h.elim
    -- the right side is lowered first, but it is written last if it is a single operand
    refine ihr.bind (Q := fun x r' y r'' => ∃ z, Calling node feature r' z r'' ∧
        (y.1.names = x.1.names ++ z.names ∨ y.1.names = z.names ++ x.1.names)) (fun x => ?_) fun r x r' y r'' hx => ?_
    · split
      · exact ihl.yield fun r' z r'' hz => ⟨z.1, hz, .inr (by simp)⟩
      · exact ihl.yield fun r' z r'' hz => ⟨z.1, hz, .inl (by simp)⟩
    · rintro ⟨z, hz, hnames⟩ hnode
      obtain ⟨first, second, hreferred, hright, hleft⟩ := hx.both hz hnode
      grind [hreferred.perm, perm_append_comm]

/-! ## Tables -/

def tableOf (s : Switch) (head : TableHead) (ranges : List TableRange) (default : TableResult) : Record :=
  ⟨s.pos, .decisionTable {
    node := head.node, name := s.name, feature := s.feature, related := s.related
    varSize := s.varSize, stream := head.stream.items, streamSize := head.stream.size
    ranges, default }⟩

def resultNames (results : List TableResult) : List String := (results.filterMap (·.reference?)).map Prod.fst

/-- A table that has been defined and whose stream has been lowered. It calls the procedures `called`. -/
structure Headed (s : Switch) (r : Registry) (head : TableHead) (called : List Nat) (r' : Registry) : Prop where
  node : head.node = r.size
  stream : ∃ e, StreamOf anyId s.varSize s.pos e 0 head.stream head.before
  defined : ∃ r₁, r.Defined s.name s.feature r₁ ∧ Referred (some r.size) s.feature r₁ called r'
  names : head.stream.names = called.map r'.nameOf

variable {s : Switch}

theorem lowerTableHead_headed : Relates (lowerTableHead s) fun r head r' => ∃ called, Headed s r head called r' := by
  have hcalling : Relates (lowerTableHead s) fun r head r' => head.node = r.size ∧ ∃ r₁,
      r.Defined s.name s.feature r₁ ∧ Calling r.size s.feature r₁ head.stream r' := by
    refine .after .failIf fun _ _ => .after .failIf fun _ _ => define_relates.bind (Q := fun node r₁ head r' =>
        head.node = node ∧ Calling node s.feature r₁ head.stream r') (fun node => ?_) ?_
    · refine .after (.step log_program) fun _ _ => Relates.yield ?_ fun r₁ x r' hx => ⟨rfl, hx⟩
      exact .after .failIf fun _ _ => lowerOperands_calling
    · rintro r node r₁ head r' ⟨rfl, hdefined⟩ ⟨hnode, hcalling⟩
      exact ⟨hnode, r₁, hdefined, hcalling⟩
  rintro c head c' hok
  obtain ⟨hscratch, hnode, r₁, hdefined, hcalling⟩ := hcalling c head c' hok
  obtain ⟨called, hreferred, hnames⟩ := hcalling (hdefined.size ▸ Nat.lt_succ_self _)
  obtain ⟨-, -, hstream⟩ := (lowerTableHead_streamOf s).yields c head c' hok
  refine ⟨hscratch, called, hnode, ⟨_, hstream⟩, ⟨r₁, hdefined, hreferred⟩, ?_⟩
  rwa [hreferred.grows.map_nameOf hreferred.lt_size]

namespace Headed

variable {s : Switch} {head : TableHead} {called : List Nat}
variable (h : Headed s r head called r')
include h

theorem grows : r.Grows r' := by
  obtain ⟨r₁, hdefined, hcalled⟩ := h.defined
  exact hdefined.grows.trans hcalled.grows

theorem size : r'.size = r.size + 1 := by
  obtain ⟨r₁, hdefined, hcalled⟩ := h.defined
  rw [hcalled.size, hdefined.size]

theorem nameOf : r'.nameOf head.node = s.name := by
  obtain ⟨r₁, hdefined, hcalled⟩ := h.defined
  rw [h.node, hcalled.grows.nameOf (hdefined.size ▸ Nat.lt_succ_self _), hdefined.name]

theorem edge : ∀ t ∈ called, r'.graph.Edge head.node t := by
  obtain ⟨r₁, hdefined, hcalled⟩ := h.defined
  rw [h.node]
  exact hcalled.edge r.size rfl

theorem written {steps : List BindStep} {pending owed : List Nat}
    (hr : r.Written steps pending owed) : r'.Written steps (pending ++ [head.node]) (owed ++ called) := by
  obtain ⟨r₁, hdefined, hcalled⟩ := h.defined
  rw [h.node]
  exact (hr.define hdefined).refer hcalled

theorem tied (hgrows : r'.Grows r'') {ranges : List TableRange} {default : TableResult} {answered : List Nat}
    (hnames : resultNames (ranges.map (·.result) ++ [default]) = answered.map r''.nameOf)
    (hanswered : ∀ t ∈ answered, t < r''.size ∧ (r''.entry t).feature = s.feature) :
    Tied r'' (tableOf s head ranges default) (called ++ answered) := by
  obtain ⟨r₁, hdefined, hcalled⟩ := h.defined
  have hnode : head.node < r₁.size := h.node ▸ hdefined.size ▸ Nat.lt_succ_self _
  have hcalled' : ∀ t ∈ called, t < r'.size := fun t ht => hcalled.size ▸ hcalled.lt_size t ht
  have hgrows₁ := hcalled.grows.trans hgrows
  have htargets : ∀ t ∈ called ++ answered, t < r''.size ∧ (r''.entry t).feature = s.feature := by
    grind [hcalled.lt_size, hgrows₁.size, hgrows₁.feature, hcalled.feature]
  refine ⟨?_, fun t ht => (htargets t ht).1, fun t ht => congrArg some (htargets t ht).2.symm, fun d hd => ?_, ?_⟩
  · rw [map_append, hgrows.map_nameOf hcalled', ← h.names, ← hnames]
    show (head.stream.items.filterMap _ ++ ranges.filterMap (fun range : TableRange => range.result.reference?)
      ++ default.reference?.toList).map _ = _
    grind [Stream.names, resultNames]
  · obtain rfl := Option.some.inj hd
    grind [hgrows₁.size, hgrows.nameOf, hcalled.size, h.nameOf, hgrows₁.feature, h.node, hdefined.feature]
  · obtain ⟨e, hstream⟩ := h.stream
    exact hstream.callsOnly

theorem attached (results : List Record) (ranges : List TableRange)
    (default : TableResult) : Record.attached (tableRecords s head results ranges default) =
      Record.attached (results ++ [tableOf s head ranges default]) := by
  obtain ⟨e, hstream⟩ := h.stream
  show Record.attached (results ++ head.before ++ (tableOf s head ranges default).withPatches _) = _
  rw [Record.attached_append, Record.attached_append, Record.attached_of_detached hstream.detached,
    Record.attached_withPatches, append_nil, Record.attached_append]

end Headed

/-! ## Results -/

/-- The records and references that results add, while the definition `node` of their table is
pending. -/
structure Answers (s : Switch) (node : Nat) (r : Registry) (results : List TableResult)
    (records : List Record) (r' : Registry) : Prop where
  grows : r.Grows r'
  written : ∀ {steps owed}, r.Written steps [node] owed → ∃ targets new, resultNames results = targets.map r'.nameOf ∧
    (∀ t ∈ targets, t < r'.size ∧ (r'.entry t).feature = s.feature ∧ r'.graph.Edge node t) ∧
    Spelled r' records new ∧ r'.Written (steps ++ new) [node] (owed ++ targets)

namespace Answers

variable {s : Switch} {results results' : List TableResult} {records records' : List Record}

theorem none (h : resultNames results = []) : Answers s node r results [] r where
  grows := .refl r
  written {steps owed} hr := by
    refine ⟨[], [], h, by simp, .nil, ?_⟩
    rwa [append_nil, append_nil]

theorem append (h : Answers s node r results records r') (h' : Answers s node r' results' records' r'') :
    Answers s node r (results ++ results') (records ++ records') r'' where
  grows := h.grows.trans h'.grows
  written {steps owed} hr := by
    obtain ⟨targets, new, hnames, htargets, hnew, hr'⟩ := h.written hr
    obtain ⟨targets', new', hnames', htargets', hnew', hr''⟩ := h'.written hr'
    refine ⟨targets ++ targets', new ++ new', ?_, forall_mem_append.mpr ⟨fun t ht => ?_, htargets'⟩,
      (hnew.grows h'.grows).append hnew', ?_⟩
    · grind [h'.grows.map_nameOf, resultNames]
    · grind [h'.grows.size, h'.grows.feature, h'.grows.edges]
    · rwa [← append_assoc, ← append_assoc]

theorem target_of_referred {t : Nat} (h : Referred (some node) s.feature r [t] r') :
    ∀ u ∈ [t], u < r'.size ∧ (r'.entry u).feature = s.feature ∧ r'.graph.Edge node u := by
  intro u hu
  have hlt := h.lt_size u hu
  exact ⟨h.size ▸ hlt, (h.grows.feature u hlt).trans (h.feature u hu), h.edge node rfl u hu⟩

theorem ref {t : Nat} {id : Int} (h : Referred (some node) s.feature r [t] r') :
    Answers s node r [.ref (r.nameOf t) id] [] r' where
  grows := h.grows
  written {steps owed} hr := by
    refine ⟨[t], [], ?_, target_of_referred h, .nil, ?_⟩
    · show [r.nameOf t] = [r'.nameOf t]
      rw [h.grows.nameOf (h.lt_size t (by simp))]
    · rw [append_nil]
      exact hr.refer h

/-- A result with a table `s'` of its own. The reference to the table is added when its stream is
there. -/
theorem computed {s' : Switch} {head : TableHead} {called : List Nat} {t : Nat} {id : Int}
    (hhead : Headed s' r head called r') (hname : r'.nameOf t = s'.name)
    (href : Referred (some node) s.feature r' [t] r'') :
    Answers s node r [.ref s'.name id] (tableRecords s' head [] [] (.callback 0)) r'' := by
  refine ⟨hhead.grows.trans href.grows, fun {steps owed} hr => ?_⟩
  have hr'' : r''.Written steps [node, head.node] ((owed ++ [t]) ++ called) := by
    refine ((hhead.written hr).refer href).perm_owed ?_
    simp [Perm.append_left]
  have htied : Tied r'' (tableOf s' head [] (.callback 0)) (called ++ []) := hhead.tied href.grows rfl (by simp)
  rw [append_nil] at htied
  refine ⟨[t], (tableOf s' head [] (.callback 0)).bindSteps called, ?_, target_of_referred href, ?_,
    hr''.emit fun hunique => ?_⟩
  · show [s'.name] = [r''.nameOf t]
    rw [href.grows.nameOf (href.lt_size t (by simp)), hname]
  · have hspelled := Spelled.cons htied .nil
    rw [append_nil] at hspelled
    exact hspelled.congr (hhead.attached ..)
  -- the table may call itself, or the table whose result it is
  have hlt : head.node < r'.size := hhead.node ▸ hhead.size ▸ Nat.lt_succ_self _
  have hedge : ∀ u ∈ called, r''.graph.Edge head.node u := fun u hu => href.grows.edges _ _ (hhead.edge u hu)
  by_cases hback : node ∈ called ∨ head.node ∈ called
  · rcases hback with hback | hself
    · have ht : t = head.node := by
        refine hunique t (href.size ▸ href.lt_size t (by simp)) head.node (href.size ▸ hlt) ?_
        rw [href.grows.nameOf hlt, hhead.nameOf, ← hname, href.grows.nameOf (href.lt_size t (by simp))]
      exact .inl ⟨head.node, node, hedge node hback, .inr (ht ▸ href.edge node rfl t (by simp))⟩
    · exact .inl ⟨head.node, head.node, hedge _ hself, .inl rfl⟩
  · refine .inr fun u hu => (hr''.bound_or_pending (htied.lt_size u hu)).resolve_right fun hpending => hback ?_
    rcases mem_pair.mp hpending with rfl | rfl
    · exact .inl hu
    · exact .inr hu

end Answers

theorem lowerResult_answers {result : Option Expr} : Relates (lowerResult s node result pos) fun r x r' =>
      node < r.size → Answers s node r [x.1] x.2 r' := by
  have computed : ∀ e : Expr, Relates (computedResult s node pos e) fun r x r' =>
        node < r.size → Answers s node r [x.1] x.2 r' := by
    intro e
    refine .after (.step generateName_program) fun name _ => ?_
    let s' : Switch := { s with name, expr := e, ranges := [], default := none, pos }
    have hcomputed : Relates (lowerComputed s') fun r records r' =>
        ∃ head called, Headed s' r head called r' ∧ records = tableRecords s' head [] [] (.callback 0) :=
      lowerTableHead_headed.yield fun r head r' h => ⟨head, h.imp fun _ h => ⟨h, rfl⟩⟩
    refine hcomputed.bind (fun records => addRef_relates.yield (T := fun r' x r'' => x = (.ref name (-1), records) ∧
      (node < r'.size → ∃ t, r'.nameOf t = name ∧ Referred (some node) s.feature r' [t] r''))
      fun r' _ r'' h => ⟨rfl, fun hnode => h (by simpa using hnode)⟩) ?_
    rintro r _ r' _ r'' ⟨head, called, hhead, rfl⟩ ⟨rfl, href⟩ hnode
    obtain ⟨t, hname, href⟩ := href (Nat.lt_of_lt_of_le hnode hhead.grows.size)
    exact .computed hhead hname href
  unfold lowerResult
  split
  · exact .fail
  · exact .after .failIf fun _ _ => .pure fun r _ => .none rfl
  · refine addRef_relates.yield fun r _ r' hadd hnode => ?_
    obtain ⟨t, rfl, href⟩ := hadd (by simpa using hnode)
    exact .ref href
  · exact computed _
  · exact computed _
  · exact computed _
  · exact computed _
  · exact .fail

theorem lowerRange_answers {range : SwitchRange} : Relates (lowerRange s node range pos) fun r x r' =>
      node < r.size → Answers s node r [x.1.result] x.2 r' :=
  .after .failIf fun _ _ => .after .failIf fun _ _ => .after .failIf fun _ _ =>
    lowerResult_answers.yield fun _ _ _ h => h

theorem mapM_answers {α : Type} {f : α → Lowering (TableRange × List Record)} (as : List α)
    (h : ∀ a, Relates (f a) fun r x r' => node < r.size → Answers s node r [x.1.result] x.2 r') :
    Relates (as.mapM f) fun r xs r' =>
      node < r.size → Answers s node r (xs.map (·.1.result)) (xs.flatMap (·.2)) r' := by
  induction as with
  | nil => exact .pure fun r _ => .none rfl
  | cons a as ih =>
    rw [List.mapM_cons]
    refine (h a).bind (fun x => ih.yield (T := fun r' ys r'' => ∃ xs, ys = x :: xs ∧
      (node < r'.size → Answers s node r' (xs.map (·.1.result)) (xs.flatMap (·.2)) r''))
      fun r' xs r'' hxs => ⟨xs, rfl, hxs⟩) ?_
    rintro r x r' _ r'' hx ⟨xs, rfl, hxs⟩ hnode
    have hx := hx hnode
    exact hx.append (hxs (Nat.lt_of_lt_of_le hnode hx.grows.size))

/-- **What a switch leaves to bind.** -/
theorem lowerSwitch_emits : Emits (lowerSwitch s) := by
  refine lowerTableHead_headed.bind (Q := fun head r' records r'' => ∃ ranges default results,
      records = tableRecords s head results ranges default ∧
      (head.node < r'.size → Answers s head.node r' (ranges.map (·.result) ++ [default]) results r''))
    (fun head => ?_) ?_
  · refine (mapM_answers _ fun x => lowerRange_answers).bind (fun ranges => lowerResult_answers.yield
      (T := fun r' records r'' => ∃ default others,
        records = tableRecords s head (ranges.flatMap (·.2) ++ others) (ranges.map (·.1)) default ∧
        (head.node < r'.size → Answers s head.node r' [default] others r'')) fun r' x r'' hx => ⟨x.1, x.2, rfl, hx⟩) ?_
    rintro r' ranges r₁ _ r'' hranges ⟨default, others, rfl, hdefault⟩
    refine ⟨_, default, _, rfl, fun hnode => ?_⟩
    have hranges := hranges hnode
    have hall := hranges.append (hdefault (Nat.lt_of_lt_of_le hnode hranges.grows.size))
    rwa [map_map]
  · rintro r head r' _ r'' ⟨called, hhead⟩ ⟨ranges, default, results, rfl, hanswers⟩
    have hanswers := hanswers (hhead.node ▸ hhead.size ▸ Nat.lt_succ_self _)
    refine ⟨hhead.grows.trans hanswers.grows, fun {steps} hr => ?_⟩
    have hr' : r'.Written steps [head.node] called := hhead.written hr
    obtain ⟨answered, new, hnames, hanswered, hnew, hr''⟩ := hanswers.written hr'
    have htied : Tied r'' (tableOf s head ranges default) (called ++ answered) :=
      hhead.tied hanswers.grows hnames fun t ht => ⟨(hanswered t ht).1, (hanswered t ht).2.1⟩
    refine ⟨new ++ (tableOf s head ranges default).bindSteps (called ++ answered), ?_, ?_⟩
    · have hspelled := hnew.append (.cons htied .nil)
      rw [append_nil] at hspelled
      exact hspelled.congr (hhead.attached ..)
    · rw [← append_assoc]
      refine hr''.emit fun _ => ?_
      -- all that the table refers to has its record, but for the table itself
      have hedge : ∀ t ∈ called ++ answered, r''.graph.Edge head.node t := by
        grind [hanswers.grows.edges, hhead.edge]
      by_cases hself : head.node ∈ called ++ answered
      · exact .inl ⟨head.node, head.node, hedge _ hself, .inl rfl⟩
      grind [hr''.bound_or_pending, htied.lt_size]

theorem lowerSpriteGroup_emits {g : SpriteGroup} : Emits (lowerSpriteGroup g) := by
  refine .after .failIf fun _ _ => .after .failIf fun _ _ => .after .failIf fun _ _ =>
    .after (.step (.idle_mapM fun _ _ => spriteSetNumber_program)) fun loaded _ => .after (.step (.idle_mapM fun _ _ => spriteSetNumber_program)) fun loading _ =>
      define_relates.yield fun r node r' => ?_
  rintro ⟨rfl, hdefined⟩
  refine ⟨hdefined.grows, fun {steps} hr => ?_⟩
  have htied : Tied r' ⟨g.pos, .spriteGroup {
      node := r.size, name := g.name, feature := g.feature, loaded, loading }⟩ [] := by
    refine ⟨rfl, by simp, by simp, fun d hd => ?_, trivial⟩
    obtain rfl := Option.some.inj hd
    exact ⟨hdefined.size ▸ Nat.lt_succ_self _, hdefined.name.symm, hdefined.feature.symm⟩
  refine ⟨_, .cons htied .nil, ?_⟩
  have hr' : r'.Written steps ([] ++ [r.size]) ([] ++ []) := hr.define hdefined
  exact hr'.emit fun _ => .inr (by simp)

theorem lowerGraphics_emits {g : Graphics} : Emits (lowerGraphics g) := by
  have cargo : ∀ xs : List ((Int × String) × Nat), Relates (xs.mapM fun x => do
      let pos := g.pos.sub ("cargo[" ++ toString x.2 ++ "]")
      failIf (x.1.1 < 0 || 0xFF < x.1.1) .outOfRange pos ("cargo 0x" ++ Text.hex 0 x.1.1 ++ " is out of range")
      addRef none x.1.2 g.feature pos
      return (x.1.1, { name := x.1.2 : GraphicsRef })) fun r entries r' =>
        ∃ targets, Referred none g.feature r targets r' ∧ entries.map (·.2.name) = targets.map r.nameOf := by
    intro xs
    induction xs with
    | nil => exact .pure fun r => ⟨[], .refl r, rfl⟩
    | cons x xs ih =>
      rw [List.mapM_cons]
      refine Relates.bind (P := fun r entry r' => ∃ t, entry.2.name = r.nameOf t ∧
        Referred none g.feature r [t] r') ?_ (fun entry => ih.yield (T := fun r' entries r'' =>
          ∃ rest targets, entries = entry :: rest ∧ Referred none g.feature r' targets r'' ∧
            rest.map (·.2.name) = targets.map r'.nameOf) ?_) ?_
      · refine .after .failIf fun _ _ => addRef_relates.yield fun r _ r' hadd => ?_
        grind
      · rintro r' rest r'' ⟨targets, hrefs, hnames⟩
        exact ⟨rest, targets, rfl, hrefs, hnames⟩
      · rintro r entry r' _ r'' ⟨t, hname, href⟩ ⟨rest, targets, rfl, hrefs, hnames⟩
        refine ⟨t :: targets, href.trans hrefs, ?_⟩
        grind [href.grows.map_nameOf, href.size, hrefs.lt_size]
  refine .after .failIf fun _ _ => .after .failIf fun _ _ => .after (.step (.idle_forM fun _ _ => .failIf)) fun _ _ =>
    .after .failIf fun _ _ => (cargo _).bind (fun entries => addRef_relates.yield (T := fun r' records r'' =>
      ∃ t, r'.nameOf t = g.default ∧ Referred none g.feature r' [t] r'' ∧
        records = [⟨g.pos, .graphicsTable { feature := g.feature, ids := g.ids, livery := g.livery
                                            cargo := entries, default := { name := g.default } }⟩])
      fun r' _ r'' hadd => ?_) ?_
  · obtain ⟨t, hname, href⟩ := hadd (by simp)
    exact ⟨t, hname, href, rfl⟩
  · rintro r entries r' _ r'' ⟨targets, hrefs, hnames⟩ ⟨t, hname, href, rfl⟩
    have hall := hrefs.trans href
    refine ⟨hall.grows, fun {steps} hr => ?_⟩
    have htied : Tied r'' ⟨g.pos, .graphicsTable {
        feature := g.feature, ids := g.ids, livery := g.livery, cargo := entries
        default := { name := g.default } }⟩ (targets ++ [t]) := by
      refine ⟨?_, fun n hn => hall.size ▸ hall.lt_size n hn, fun n hn => ?_, nofun, trivial⟩
      · rw [hall.grows.map_nameOf hall.lt_size, map_append, ← hnames]
        show (entries.map _ ++ [_]).map Prod.fst = _
        rw [map_append, map_map]
        show _ ++ [g.default] = _ ++ [r.nameOf t]
        rw [← hrefs.grows.nameOf (hrefs.size ▸ href.lt_size t (by simp)), hname]
        rfl
      · exact congrArg some ((hall.grows.feature n (hall.lt_size n hn)).trans (hall.feature n hn)).symm
    refine ⟨_, .cons htied .nil, ?_⟩
    have hr'' : r''.Written steps ([] ++ []) ([] ++ (targets ++ [t])) := hr.refer hall
    rw [append_nil]
    refine hr''.emit fun _ => .inr fun n hn => ?_
    exact (hr''.bound_or_pending (hall.size ▸ hall.lt_size n hn)).resolve_right (by simp)

end Lowering

end Grf
