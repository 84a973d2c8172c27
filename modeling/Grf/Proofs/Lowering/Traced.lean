import Grf.Proofs.Lowering.Followers
import Grf.Proofs.Lowering.Readings

/-! # What declarations read

A declaration is lowered to the steps of its computations and to the tables or messages that read their results.
`Traced` says which expression each of them is read for: the computed properties of an item, the parameters that the
expression of a table reads, in the order in which they are written, the parameters of a message. All of them are
computed before they are read (`Traced.fed`).
-/

namespace Grf

open List Grf.Expr Property Record

/-- A record that neither reads nor assigns parameters. -/
structure Record.IsSilent (r : Record) : Prop where
  reads : r.reads = []
  target : r.target? = none

/-! ## What tables need -/

def VarRead.needs (v : VarRead Expr) : List Expr :=
  (v.param.toList ++ v.mask.toList ++ v.add.toList ++ (v.div <|> v.mod).toList).filter (·.paramNumber?.isSome)

/-- The parameters that the operands of a simplified expression read, in the order of writing: a right side that is
more than an operand comes first. -/
def Expr.needs : Expr → List Expr
  | param number => [param number.fold]
  | binary _ left right => if right.isSimple then left.needs ++ right.needs else right.needs ++ left.needs
  | var ⟨num, none, shift, mask, add, div, mod⟩ => VarRead.needs ⟨num, none, shift, mask, add, div, mod⟩
  | var ⟨num, some arg, shift, mask, add, div, mod⟩ =>
    if arg.isImmediate then VarRead.needs ⟨num, some arg, shift, mask, add, div, mod⟩
    else arg.needs ++ VarRead.needs ⟨num, none, shift, mask, add, div, mod⟩
  | _ => []
termination_by structural e => e

/-- What the value of a property is read for, unless it is written as it is. -/
def Property.need? (p : Property) : Option Expr :=
  match p.value with
  | .computed e => if e.fold.constant?.isSome then none else some e.fold
  | _ => none

def resultNeeds (width : Int) (result : Option Expr) : List (List Expr) :=
  match result.map Expr.fold with
  | some e@(.binary ..) | some e@(.var _) | some e@(.param _) | some e@(.not _) => [(e.forTable width).needs]
  | _ => []

/-- What the tables and messages of a declaration need, in their order. -/
def Declaration.needs : Declaration → List (List Expr)
  | properties _ _ props _ => [props.filterMap Property.need?]
  | message m => [m.params.map Expr.fold]
  | switch s =>
    s.ranges.flatMap (fun r => resultNeeds s.varSize r.result) ++ resultNeeds s.varSize s.default ++
      [(s.expr.forTable s.varSize).needs]
  | _ => [[]]

def Stream.params (s : Stream) : List Int := s.patches.map (·.param)

@[simp] theorem Stream.params_ofOp (op : Operator) : (Stream.ofOp op).params = [] := rfl

@[simp] theorem Stream.params_store (slot : Slot) (width : Int) : (Stream.ofOperand (.store slot) width).params = [] :=
  rfl

@[simp] theorem Stream.params_load (slot : Slot) (width : Int) : (Stream.ofOperand (.load slot) width).params = [] :=
  rfl

@[simp] theorem Stream.params_append (s t : Stream) : (s ++ t).params = s.params ++ t.params := by
  show (s.patches ++ t.patches.map _).map _ = _
  rw [map_append, map_map]
  rfl

namespace Lowering

variable {T : String → Int → Prop} {pos : Position} {feature width : Int} {v : VarRead Expr} {r : Record} {e : Expr}
  {before : List Record} {s : Switch} {result : Option Expr} {decl : Declaration}

/-! ## Computations and what reads their results -/

theorem silent_of_isText (h : IsText r) : r.IsSilent := by
  obtain ⟨feature, lang, id, text, hbody⟩ := h
  constructor
  · rw [reads, hbody]
  · rw [target?, hbody]

theorem targets_cons_text {rs : List Record} (h : IsText r) : targets (r :: rs) = targets rs := by
  rw [targets, filterMap_cons_none (silent_of_isText h).target]
  rfl

/-- Steps that compute expressions in parameters, and texts. -/
inductive Gathers : List (Int × Expr) → List Reading → Prop
  | nil : Gathers [] []
  | text {r : Record} {ops : List (Int × Expr)} {us : List Reading} (hr : IsText r)
      (h : Gathers ops us) : Gathers ops (⟨r, none, []⟩ :: us)
  | computation {e : Expr} {n : Int} {steps : List Step} {ops : List (Int × Expr)} {us : List Reading}
      (pos : Position) (hsteps : Traces e (.hold n) [] steps) (h : Gathers ops us) :
      Gathers ((n, e) :: ops) (readings pos steps ++ us)

/-- The tables or messages that need the values of some expressions, after what computes these. -/
inductive Delivers (needs : List Expr) : List Reading → Prop
  | after {ops : List (Int × Expr)} {params : List Int} {us : List Reading} {rs : List Record}
      (hgathers : Gathers ops us) (hops : ∀ p ∈ ops, p.2 ∈ needs)
      (hparams : Forall₂ (fun n e => (n, e) ∈ ops) params needs)
      (hrecords : ∀ r ∈ rs, r.target? = none ∧ (r.reads = params ∨ r.reads = [])) :
      Delivers needs (us ++ rs.map fun r => ⟨r, none, needs⟩)

/-- What the records of a declaration read. -/
inductive Traced : Declaration → List Reading → Prop
  | assign {target value : Expr} {pos : Position} {steps : List Step}
      (h : DeclaredTraces target.fold value.fold steps) :
      Traced (.assign target value pos) (readings pos steps)
  | tables {decl : Declaration} {parts : List (List Reading)}
      (hdecl : ∀ target value pos, decl ≠ .assign target value pos)
      (h : Forall₂ Delivers decl.needs parts) : Traced decl parts.flatten

namespace Gathers

variable {ops ops' : List (Int × Expr)} {us us' : List Reading}

theorem append (h : Gathers ops us) (h' : Gathers ops' us') : Gathers (ops ++ ops') (us ++ us') := by
  induction h with
  | nil => exact h'
  | text hr _ ih => exact .text hr ih
  | computation pos hsteps _ ih =>
    rw [append_assoc]
    exact .computation pos hsteps ih

theorem of_texts {rs : List Record} (h : ∀ r ∈ rs, IsText r) : Gathers [] (rs.map fun r => ⟨r, none, []⟩) := by
  induction rs with
  | nil => exact .nil
  | cons r rs ih =>
    rw [forall_mem_cons] at h
    exact .text h.1 (ih h.2)

theorem fed (h : Gathers ops us) (hclear : ∀ p ∈ ops, p.2.Clear) {supplied : Int × Expr → Prop} : Fed supplied us := by
  induction h generalizing supplied with
  | nil => trivial
  | text hr _ ih =>
    refine ⟨?_, ih hclear⟩
    rw [(silent_of_isText hr).reads]
    trivial
  | computation pos hsteps _ ih =>
    rw [forall_mem_cons] at hclear
    exact (hsteps.fed hclear.1 rfl).append (ih hclear.2)

theorem computedIn (h : Gathers ops us) (hclear : ∀ p ∈ ops, p.2.Clear) :
    ∀ p ∈ ops, IsTemporary p.1 → ComputedIn us p := by
  induction h with
  | nil => simp
  | text hr _ ih =>
    intro p hp ht
    obtain ⟨u, hu, hcomputes⟩ := ih hclear p hp ht
    exact ⟨u, mem_cons_of_mem _ hu, hcomputes⟩
  | computation pos hsteps _ ih =>
    rw [forall_mem_cons] at hclear
    intro p hp ht
    rcases mem_cons.mp hp with rfl | hp
    · exact computedIn_append.mpr (.inl (hsteps.served hclear.1 ht))
    · exact computedIn_append.mpr (.inr (ih hclear.2 p hp ht))

end Gathers

theorem Delivers.fed {needs : List Expr} {us : List Reading} (h : Delivers needs us)
    (hclear : ∀ e ∈ needs, e.Clear) {supplied : Int × Expr → Prop} : Fed supplied us := by
  obtain ⟨hgathers, hops, hparams, hrecords⟩ := h
  rename_i ops params us rs
  have hclearOps : ∀ p ∈ ops, p.2.Clear := fun p hp => hclear p.2 (hops p hp)
  have hcomputed := hgathers.computedIn hclearOps
  refine (hgathers.fed hclearOps).append ?_
  -- all tables and messages read the same parameters, which have been computed before the first one
  have hsupplies : Supplies (fun p => supplied p ∨ ComputedIn us p) params needs := by
    clear hrecords hops hclear
    induction hparams with
    | nil => trivial
    | cons hmem _ ih => exact ⟨fun ht => .inr (hcomputed _ hmem ht), ih⟩
  have hread : ∀ r ∈ rs, Supplies (fun p => supplied p ∨ ComputedIn us p) r.reads needs := by
    intro r hr
    rcases (hrecords r hr).2 with hreads | hreads
    · rwa [hreads]
    · rw [hreads]
      trivial
  clear hsupplies hrecords hparams
  generalize (fun p => supplied p ∨ ComputedIn us p) = known at hread
  induction rs generalizing known with
  | nil => trivial
  | cons r rs ih =>
    rw [forall_mem_cons] at hread
    exact ⟨hread.1, ih _ fun r hr => (hread.2 r hr).mono fun p hp => .inl hp⟩

/-! ## Decision tables -/

theorem needs_eq (h : Expr.Plain v) (width offset : Int) :
    v.needs = ((patchesOf v width offset).map (·.param)).map paramAt := by
  have leaf : ∀ {e : Expr}, e.IsLeaf → ∀ place size : Int, [e].filter (·.paramNumber?.isSome) =
      (([Expr.Field.mk place size e].filterMap (patch? offset)).map (·.param)).map paramAt := by
    intro e he place size
    rcases he.exists_eq with ⟨value, rfl⟩ | ⟨number, rfl⟩ | ⟨name, id, rfl⟩ <;> rfl
  have field : ∀ {field : Option Expr}, (∀ e ∈ field, e.IsLeaf) → ∀ place : Int,
      field.toList.filter (·.paramNumber?.isSome) =
        (((field.toList.map (Expr.Field.mk place width)).filterMap (patch? offset)).map (·.param)).map paramAt := by
    intro field hfield place
    cases field with
    | none => rfl
    | some e => exact leaf (hfield e rfl) place width
  have arg : v.param.toList.filter (·.paramNumber?.isSome) =
      (((argFields v.param).filterMap (patch? offset)).map (·.param)).map paramAt := by
    cases hparam : v.param with
    | none => rfl
    | some e =>
      have he := h.param e hparam
      simp only [argFields, he.isValue, if_true]
      exact leaf he 1 1
  have mask : ∀ place : Int, v.mask.toList.filter (·.paramNumber?.isSome) =
      (([Expr.Field.mk place width (v.mask.getD (.const (VarRead.fullMask width)))].filterMap
        (patch? offset)).map (·.param)).map paramAt := by
    intro place
    cases hmask : v.mask with
    | none => rfl
    | some e => exact leaf (h.mask e hmask) place width
  show _ = (((argFields v.param ++ [_] ++ _ ++ _).filterMap (patch? offset)).map Patch.param).map paramAt
  unfold VarRead.needs
  simp only [filter_append, filterMap_append, map_append]
  rw [← arg, ← mask, ← field h.add, ← field h.divisor]

/-- The records compute what is needed, and it is found in the parameters. -/
def Brings (needs : List Expr) (params : List Int) (rs : List Record) : Prop :=
  ∃ ops us, Gathers ops us ∧ us.map Reading.record = rs ∧ (∀ p ∈ ops, p.2 ∈ needs) ∧
    Forall₂ (fun n e => (n, e) ∈ ops) params needs

namespace Brings

variable {needs needs' : List Expr} {params params' : List Int} {rs rs' : List Record}

theorem of_texts (h : ∀ r ∈ rs, IsText r) : Brings [] [] rs := by
  refine ⟨[], _, .of_texts h, ?_, by simp, .nil⟩
  simp [Function.comp_def]

theorem of_traces {e : Expr} {n : Int} {steps : List Step} (pos : Position)
    (h : Traces e (.hold n) [] steps) : Brings [e] [n] ((readings pos steps).map Reading.record) := by
  have hgathers := Gathers.computation pos h .nil
  rw [append_nil] at hgathers
  exact ⟨_, _, hgathers, rfl, by simp, .cons (mem_singleton.mpr rfl) .nil⟩

theorem own {params : List Int} (h : ∀ n ∈ params, 0 ≤ n ∧ n ≤ 0xFF) : Brings (params.map paramAt) params [] := by
  have hgathers : Gathers (params.map fun n => (n, paramAt n)) [] := by
    induction params with
    | nil => exact .nil
    | cons n params ih =>
      rw [forall_mem_cons] at h
      exact .computation {} (.own h.1) (ih h.2)
  refine ⟨_, [], hgathers, rfl, fun p hp => ?_, ?_⟩
  · obtain ⟨n, hn, rfl⟩ := mem_map.mp hp
    exact mem_map.mpr ⟨n, hn, rfl⟩
  · refine forall₂_map_right_iff.mpr (forall₂_same.mpr fun n hn => ?_)
    exact mem_map.mpr ⟨n, hn, rfl⟩

/-- Computations can be made in any order. -/
theorem both (h : Brings needs params rs) (h' : Brings needs' params' rs') :
    Brings (needs ++ needs') (params ++ params') (rs ++ rs') ∧
      Brings (needs ++ needs') (params ++ params') (rs' ++ rs) := by
  obtain ⟨ops, us, hgathers, rfl, hops, hparams⟩ := h
  obtain ⟨ops', us', hgathers', rfl, hops', hparams'⟩ := h'
  have hneeds : ∀ p, p ∈ ops ∨ p ∈ ops' → p.2 ∈ needs ++ needs' := fun p hp =>
    mem_append.mpr (hp.imp (hops p) (hops' p))
  have hfound : ∀ all : List (Int × Expr), (∀ p, p ∈ ops ∨ p ∈ ops' → p ∈ all) →
      Forall₂ (fun n e => (n, e) ∈ all) (params ++ params') (needs ++ needs') := fun all hall =>
    rel_append (hparams.imp fun _ _ h => hall _ (.inl h)) (hparams'.imp fun _ _ h => hall _ (.inr h))
  constructor
  · exact ⟨ops ++ ops', us ++ us', hgathers.append hgathers', map_append,
      fun p hp => hneeds p (mem_append.mp hp), hfound _ fun p => mem_append.mpr⟩
  · exact ⟨ops' ++ ops, us' ++ us, hgathers'.append hgathers, map_append,
      fun p hp => hneeds p (mem_append.mp hp).symm, hfound _ fun p hp => mem_append.mpr hp.symm⟩

theorem length_eq (h : Brings needs params rs) : params.length = needs.length := by
  obtain ⟨_, _, _, _, _, hparams⟩ := h
  exact hparams.length_eq

theorem append (h : Brings needs params rs) (h' : Brings needs' params' rs') :
    Brings (needs ++ needs') (params ++ params') (rs ++ rs') := (h.both h').1

end Brings

theorem isField_of_mem_needs (h : v.Checked) (harg : ∀ e ∈ v.param, e.IsByte) : ∀ e ∈ v.needs, e.IsField := by
  intro e he
  obtain ⟨he, -⟩ := mem_filter.mp he
  simp only [mem_append, Option.mem_toList] at he
  rcases he with ((he | he) | he) | he
  · exact (harg e he).field
  · exact h.fields v.mask (by simp) e he
  · exact h.fields v.add (by simp) e he
  · cases hdiv : v.div with
    | some div => exact h.fields v.div (by simp) e (by rwa [hdiv] at he ⊢)
    | none => exact h.fields v.mod (by simp) e (by rwa [hdiv] at he)

/-- The fields of a variable are numbers and parameters, which hold their values themselves. -/
theorem brings_var (h : v.Checked) (harg : ∀ e ∈ v.param, e.IsByte) :
    Brings v.needs (Stream.ofOperand (.var v) width).params [] := by
  have hfields := isField_of_mem_needs h harg
  have hplain : Expr.Plain v := ⟨fun e he => isLeaf_of_isImmediate (harg e he).isImmediate, h.leaf⟩
  rw [needs_eq hplain width 0] at hfields ⊢
  exact .own fun n hn => hfields _ (mem_map_of_mem hn)

theorem OperandOf.brings (h : OperandOf T pos e v before) :
    Brings e.needs (Stream.ofOperand (.var v) width).params before := by
  cases h with
  | const | record => exact .of_texts (by simp)
  | @param _ _ steps h =>
    rw [← record_readings steps]
    exact .of_traces pos h
  | string _ _ h => exact .of_texts fun r hr => (h r hr).isText
  | read hv harg =>
    have hneeds : (var v).needs = v.needs := by
      obtain ⟨num, arg, shift, mask, add, div, mod⟩ := v
      cases arg with
      | none => rfl
      | some arg => simp only [needs, (harg arg rfl).isImmediate, if_true]
    rw [hneeds]
    exact brings_var hv harg

/-- **The operands of a table read the parameters of its expression.** -/
theorem StreamOf.brings {slot : Nat} {stream : Stream} (h : StreamOf T width pos e slot stream before) :
    Brings e.needs stream.params before := by
  induction h with
  | operand slot h => exact h.brings
  | store | load => exact .of_texts (by simp)
  | @indirect v arg _ stream _ harg himm hv _ _ ih =>
    obtain ⟨num, param, shift, mask, add, div, mod⟩ := v
    obtain rfl : param = some arg := harg
    have hread : Brings (VarRead.needs ⟨num, none, shift, mask, add, div, mod⟩) (Stream.ofOperand
        (.var (Table.indirect ⟨num, some arg, shift, mask, add, div, mod⟩)) width).params [] := by
      have hnum : (0 : Int) ≤ VarRead.computedParamNum ∧ VarRead.computedParamNum ≤ 0xFF := by decide
      have hchecked : (Table.indirect ⟨num, some arg, shift, mask, add, div, mod⟩).Checked :=
        ⟨hnum, hv.divisor, hv.fields⟩
      refine brings_var hchecked fun e he => ?_
      obtain rfl := Option.mem_some.mp he
      exact ⟨trivial, by rintro _ ⟨⟩; exact hv.num⟩
    have hboth := ih.append hread
    simpa [needs, himm] using hboth
  | simple _ hsimple _ _ ihr ihl => simpa [needs, hsimple] using (ihl.both ihr).2
  | spilled _ hsimple _ _ ihr ihl =>
    -- the right side is written first, into a scratch slot
    simpa [needs, hsimple] using ihr.append ihl

/-- Records that are made of tables and messages with the given needs. -/
def Makes (needs : List (List Expr)) (rs : List Record) : Prop :=
  ∃ parts, Forall₂ Delivers needs parts ∧ parts.flatten.map Reading.record = rs

section Makes

variable {needs needs' : List (List Expr)} {rs rs' : List Record}

theorem makes_single {needs : List Expr} {us : List Reading} (h : Delivers needs us)
    (hrecords : us.map Reading.record = rs) : Makes [needs] rs :=
  ⟨[us], .cons h .nil, by simpa using hrecords⟩

theorem Makes.append (h : Makes needs rs) (h' : Makes needs' rs') : Makes (needs ++ needs') (rs ++ rs') := by
  obtain ⟨parts, hparts, rfl⟩ := h
  obtain ⟨parts', hparts', rfl⟩ := h'
  exact ⟨parts ++ parts', rel_append hparts hparts', by simp⟩

theorem makes_silent (h : ∀ r ∈ rs, r.IsSilent) : Makes [[]] rs := by
  refine makes_single (.after .nil (by simp) .nil fun r hr => ⟨(h r hr).target, .inr (h r hr).reads⟩) ?_
  simp [Function.comp_def]

theorem Brings.makes {needs : List Expr} {params : List Int} (h : Brings needs params before)
    (hrs : ∀ r ∈ rs, r.target? = none ∧ (r.reads = params ∨ r.reads = [])) : Makes [needs] (before ++ rs) := by
  obtain ⟨ops, us, hgathers, rfl, hops, hparams⟩ := h
  refine makes_single (.after hgathers hops hparams hrs) ?_
  simp [Function.comp_def]

/-- A table that is written after its patches. Before that the values of the parameters which they name are computed. -/
inductive TableFor (needs : List Expr) : List Record → Prop
  | mk {before : List Record} {R : Record} {cells : List Cell}
      (hbefore : Brings needs ((placeholders 0 cells).map (·.param)) before) (hR : R.WrittenAs cells) (hsilent : R.IsSilent) :
      TableFor needs (before ++ R.withPatches (placeholders 0 cells))

theorem TableFor.makes {needs : List Expr} (h : TableFor needs rs) : Makes [needs] rs := by
  obtain ⟨hbefore, -, hsilent⟩ := h
  refine hbefore.makes fun r hr => ?_
  unfold withPatches at hr
  split at hr
  · obtain rfl := mem_singleton.mp hr
    exact ⟨hsilent.target, .inr hsilent.reads⟩
  · rcases mem_cons.mp hr with rfl | hr
    · exact ⟨rfl, .inl rfl⟩
    · obtain rfl := mem_singleton.mp hr
      exact ⟨hsilent.target, .inr hsilent.reads⟩

/-- Records that are made of tables with the given needs. -/
def Tables (needs : List (List Expr)) (rs : List Record) : Prop := ∃ parts, Forall₂ TableFor needs parts ∧ parts.flatten = rs

theorem tables_nil : Tables [] [] := ⟨[], .nil, rfl⟩

theorem Tables.append (h : Tables needs rs) (h' : Tables needs' rs') : Tables (needs ++ needs') (rs ++ rs') := by
  obtain ⟨parts, hparts, rfl⟩ := h
  obtain ⟨parts', hparts', rfl⟩ := h'
  exact ⟨parts ++ parts', rel_append hparts hparts', flatten_append⟩

theorem Tables.makes (h : Tables needs rs) : Makes needs rs := by
  obtain ⟨parts, hparts, rfl⟩ := h
  induction hparts with
  | nil => exact ⟨[], .nil, rfl⟩
  | cons hpart _ ih => exact hpart.makes.append ih

end Makes

/-- The table of a switch needs the operands of its expression. -/
theorem lowerTableHead_tables (s : Switch) : Yields (lowerTableHead s) fun head => ∀ needs results ranges default,
    Tables needs results →
      Tables (needs ++ [(s.expr.forTable s.varSize).needs]) (tableRecords s head results ranges default) := by
  intro c head c' hok needs results ranges default hresults
  obtain ⟨-, hwidth, hstream⟩ := (lowerTableHead_streamOf s).yields c head c' hok
  obtain ⟨R, t, hbody, hR, hparams, hrecords⟩ := hstream.table hwidth results ranges default
  have hsilent : R.IsSilent := ⟨by rw [reads, hbody], by rw [target?, hbody]⟩
  rw [hrecords, append_assoc]
  exact hresults.append ⟨_, .cons ⟨hparams ▸ hstream.brings, hR, hsilent⟩ .nil, append_nil _⟩

theorem lowerResult_tables {node : Nat} :
    Yields (lowerResult s node result pos) fun x => Tables (resultNeeds s.varSize result) x.2 := by
  have computed : ∀ e : Expr, Yields (computedResult s node pos e) fun x => Tables [(e.forTable s.varSize).needs] x.2 := by
    intro e
    refine .after fun name => Yields.bind ?_ fun records hrecords => .after fun _ => .pure hrecords
    exact (lowerTableHead_tables _).bind fun head hhead => .pure (hhead [] [] [] _ tables_nil)
  unfold lowerResult resultNeeds
  cases result.map fold with
  | none => exact .fail
  | some e =>
    cases e with
    | const k => exact .after fun _ => .pure tables_nil
    | record name id => exact .after fun _ => .pure tables_nil
    | binary | var | param | not => exact computed _
    | string | store | load => exact .fail

theorem lowerSwitch_tables (s : Switch) : Yields (lowerSwitch s) (Tables (Declaration.switch s).needs) := by
  refine (lowerTableHead_tables s).bind fun head hhead => ?_
  refine (Yields.mapM_zipIdx (T := fun r y => Tables (resultNeeds s.varSize r.result) y.2) (fun _ =>
    .after fun _ => .after fun _ => .after fun _ => lowerResult_tables.bind fun _ h => .pure h) s.ranges).bind
    fun ranges hranges => lowerResult_tables.bind fun default hdefault => .pure ?_
  refine hhead _ _ _ _ (Tables.append ?_ hdefault)
  clear hhead
  generalize s.ranges = xs at hranges
  induction hranges with
  | nil => exact tables_nil
  | cons h _ ih => exact h.append ih

/-! ## Properties and messages -/

theorem params_placeholders (offset : Int) (cells : List Cell) :
    (placeholders offset cells).map (·.param) = cells.filterMap (·.param) := by
  induction cells generalizing offset with
  | nil => rfl
  | cons cell cells ih => grind [placeholders]

theorem need?_computed {num size : Int} (hconst : ¬∃ k, e.fold = .const k) :
    need? ⟨num, size, .computed e, pos⟩ = some e.fold := by
  have hvalue : e.fold.constant? = none := by
    cases hfold : e.fold with
    | const k => exact absurd ⟨k, hfold⟩ hconst
    | _ => rfl
  simp [need?, hvalue]

theorem PropertyPlans.brings {prop : Property} {content : PropertyContent} {steps : List Step}
    (h : PropertyPlans prop.value content steps) (num size : Int) (pos : Position) :
    Brings prop.need?.toList ((PropertyEntry.cells ⟨num, size, content⟩).filterMap (·.param)) (planned pos steps) := by
  obtain ⟨num', size', value, pos'⟩ := prop
  cases h with
  | constant | string => exact .of_texts (by simp [planned])
  | folded hfold =>
    rw [show need? _ = none by simp [need?, hfold, constant?]]
    exact .of_texts (by simp [planned])
  | @computed e n steps hconst h =>
    rw [need?_computed hconst, ← record_readings steps]
    exact .of_traces pos h
  | array items =>
    rw [show (PropertyEntry.cells ⟨num, size, .items items⟩).filterMap (·.param) = [] by simp [PropertyEntry.cells]]
    exact .of_texts (by simp [planned])

theorem lowerProperties_tables {id : Int} {props : List Property} : Yields (lowerProperties feature id props pos) fun rs =>
    (props = [] ∧ rs = []) ∨ TableFor (props.filterMap need?) rs := by
  refine fun c rs c' hok => (lowerProperties_planned c rs c' hok).imp_right ?_
  rintro ⟨lowered, hlowered, rfl⟩
  have htexts : ∀ r ∈ lowered.flatMap (·.definitions), IsText r := by
    intro r hr
    obtain ⟨p, hp, hr⟩ := mem_flatMap.mp hr
    obtain ⟨i, hi, rfl⟩ := getElem_of_mem hp
    have hi' : i < props.length := hlowered.length_eq ▸ hi
    obtain ⟨steps, hsteps⟩ := (forall₂_iff_get.mp hlowered).2 i hi' hi
    exact hsteps.texts r hr
  -- the computations of all properties, and what they are for
  have hcomputed : Brings (props.filterMap need?)
      ((lowered.flatMap (·.entry.cells)).filterMap (·.param)) (lowered.flatMap (·.computations)) := by
    clear htexts hok
    induction hlowered with
    | nil => exact .of_texts (by simp)
    | @cons prop p props lowered hp _ ih =>
      obtain ⟨steps, hsteps⟩ := hp
      have hneeds : (prop :: props).filterMap need? = prop.need?.toList ++ props.filterMap need? := by
        cases hneed : prop.need? <;> simp [hneed]
      rw [hneeds, flatMap_cons, flatMap_cons, filterMap_append, hsteps.computations]
      exact (hsteps.content.brings p.entry.num p.entry.size (positionOr prop.pos pos)).append ih
  let table : Record := ⟨pos, .propertyTable feature id (lowered.map (·.entry))⟩
  have hcells : (placeholders 0 table.cells).map (·.param) = (lowered.flatMap (·.entry.cells)).filterMap (·.param) := by
    rw [params_placeholders]
    show (_ ++ (lowered.map (·.entry)).flatMap (·.cells)).filterMap _ = _
    rw [filterMap_append, flatMap_map]
    rfl
  have hbefore := (Brings.of_texts htexts).append hcomputed
  rw [nil_append, nil_append, ← hcells] at hbefore
  exact ⟨hbefore, writtenAs_lowered feature id hlowered, rfl, rfl⟩

theorem lowerMessage_makes (m : Message) : Yields (lowerMessage m) (Makes [m.params.map fold]) := by
  rw [lowerMessage_eq]
  refine .after fun _ => (Yields.mapM_zipIdx (T := fun e x => ∃ pos steps, Traces e.fold (.hold x.2) [] steps ∧
    (readings pos steps).map Reading.record = x.1) (fun _ c a c' h => ⟨_, operandParam_traces c a c' h⟩) m.params).bind
    fun params hparams => ?_
  have hbrings : Brings (m.params.map fold) (params.map (·.2)) (params.flatMap (·.1)) := by
    generalize m.params = xs at hparams
    induction hparams with
    | nil => exact .of_texts (by simp)
    | cons h _ ih =>
      obtain ⟨_, steps, hsteps, hrecord⟩ := h
      rw [flatMap_cons, ← hrecord]
      exact (Brings.of_traces _ hsteps).append ih
  refine (messageRecords_yields m _).bind fun records hrecords => .pure (hbrings.makes fun r hr => ?_)
  -- every message reads all parameters
  obtain ⟨_, _, _, rfl, -⟩ := hrecords r hr
  exact ⟨rfl, .inl rfl⟩

/-! ## Declarations -/

theorem silent_of_sprite (h : r.kind = .realSprite) : r.IsSilent := by
  unfold kind at h
  constructor
  · unfold reads
    cases hbody : r.body <;> simp_all
  · unfold target?
    cases hbody : r.body <;> simp_all

/-- **What the records of a declaration that holds no others read.** -/
theorem lower_traced (hd : decl.IsSimple) :
    Yields decl.lower fun rs => ∃ us, Traced decl us ∧ us.map Reading.record = rs := by
  have tables : ∀ {body : Lowering (List Record)},
      (∀ target value pos, decl ≠ .assign target value pos) → Yields body (Makes decl.needs) →
      Yields (framed decl body) fun rs => ∃ us, Traced decl us ∧ us.map Reading.record = rs := by
    intro body hne hbody
    refine framed_yields fun c rs c' hok => ?_
    obtain ⟨parts, hparts, hrecords⟩ := hbody c rs c' hok
    exact ⟨_, .tables hne hparts, hrecords⟩
  -- a record before sprites
  have head : ∀ {r : Record} {rs : List Record} {n : Nat}, r.IsSilent → AreSprites n rs →
      Makes [[]] (r :: rs) := fun hr hrs =>
    makes_silent (forall_mem_cons.mpr ⟨hr, fun r hr => silent_of_sprite (hrs.2 r hr)⟩)
  have alone : ∀ {r : Record}, r.IsSilent → Makes [[]] [r] := fun hr => makes_silent (by simpa using hr)
  cases decl with
  | properties =>
    refine tables (by simp) fun c rs c' hok => ?_
    rcases lowerProperties_tables c rs c' hok with ⟨rfl, rfl⟩ | htable
    · exact makes_silent (by simp)
    · exact htable.makes
  | spriteSets feature sets pos =>
    refine tables (by simp) ?_
    refine .after fun _ => .after fun _ => .after fun _ => .after fun _ => ?_
    exact (lowerSets_areSprites sets).bind fun x hx => .after fun _ => .pure (head ⟨rfl, rfl⟩ hx)
  | spriteGroup group =>
    exact tables (by simp) (.after fun _ => .after fun _ => .after fun _ => .after fun _ =>
      .after fun _ => .after fun _ => .pure (alone ⟨rfl, rfl⟩))
  | switch table => exact tables (by simp) fun c rs c' hok => (lowerSwitch_tables table c rs c' hok).makes
  | graphics table =>
    exact tables (by simp) (.after fun _ => .after fun _ => .after fun _ => .after fun _ =>
      .after fun _ => .after fun _ => .pure (alone ⟨rfl, rfl⟩))
  | message m => exact tables (by simp) (lowerMessage_makes m)
  | assign target value pos =>
    refine framed_yields fun c rs c' hok => ?_
    obtain ⟨steps, hsteps, hrecords⟩ := lowerAssignment_traces c rs c' hok
    exact ⟨_, .assign hsteps, hrecords⟩
  | conditional => exact hd.elim
  | loop => exact hd.elim
  | deactivate ids pos =>
    refine tables (by simp) fun c rs c' hok => ?_
    obtain ⟨ids, rfl, -⟩ := lowerDeactivate_yields ids c rs c' hok
    exact alone ⟨rfl, rfl⟩
  | replace blocks pos =>
    refine tables (by simp) fun c rs c' hok => ?_
    obtain ⟨ranges, sprites, rfl, hsprites⟩ := lowerReplace_yields blocks c rs c' hok
    exact head ⟨rfl, rfl⟩ hsprites

theorem clear_of_field {n : Int} (hn : e.paramNumber? = some n) (h : Expr.FieldClear (some e)) : e.Clear := by
  obtain rfl := paramNumber?_eq_some.mp hn
  refine ⟨fun m hm => ?_, trivial⟩
  obtain rfl : n = m := by simpa [fold] using hm
  exact h

theorem clear_varNeeds (hparam : ∀ e ∈ v.param, e.Clear)
    (hfields : ∀ field ∈ [v.mask, v.add, v.div, v.mod], Expr.FieldClear field) : ∀ e ∈ v.needs, e.Clear := by
  intro e he
  obtain ⟨he, hnumber⟩ := mem_filter.mp he
  obtain ⟨n, hn⟩ := Option.isSome_iff_exists.mp hnumber
  have hcases : e ∈ v.param ∨ ∃ field ∈ [v.mask, v.add, v.div, v.mod], e ∈ field := by
    have hdivisor : e ∈ (v.div <|> v.mod) → e ∈ v.div ∨ e ∈ v.mod := by
      cases v.div with
      | none => exact .inr
      | some d => exact .inl
    simp only [mem_append, Option.mem_toList] at he
    rcases he with ((he | he) | he) | he
    · exact .inl he
    · exact .inr ⟨v.mask, by simp, he⟩
    · exact .inr ⟨v.add, by simp, he⟩
    · rcases hdivisor he with he | he
      · exact .inr ⟨v.div, by simp, he⟩
      · exact .inr ⟨v.mod, by simp, he⟩
  rcases hcases with he | ⟨field, hfield, he⟩
  · exact hparam e he
  · obtain rfl : field = some e := he
    exact clear_of_field hn (hfields _ hfield)

theorem clear_needs (h : e.Clear) : ∀ x ∈ e.needs, x.Clear := by
  induction e using byParts with
  | const | string | record | not | store | load => simp [needs]
  | param number =>
    intro x hx
    obtain rfl := mem_singleton.mp hx
    exact clear_fold h
  | binary op left right ihl ihr =>
    intro x hx
    have hx' : x ∈ left.needs ∨ x ∈ right.needs := by
      simp only [needs] at hx
      split at hx
      · exact mem_append.mp hx
      · exact (mem_append.mp hx).symm
    exact hx'.elim (ihl h.1 x) (ihr h.2 x)
  | bare num shift mask add div mod => exact clear_varNeeds (by simp) h
  | var num arg shift mask add div mod ih =>
    intro x hx
    simp only [needs] at hx
    split at hx
    · exact clear_varNeeds (v := ⟨num, some arg, shift, mask, add, div, mod⟩)
        (fun e he => Option.mem_some.mp he ▸ h.1) h.2 x hx
    · rcases mem_append.mp hx with hx | hx
      · exact ih h.1 x hx
      · exact clear_varNeeds (v := ⟨num, none, shift, mask, add, div, mod⟩) (by simp) h.2 x hx

theorem clear_resultNeeds (h : ∀ e ∈ result, e.Clear) : ∀ needs ∈ resultNeeds width result, ∀ e ∈ needs, e.Clear := by
  cases result with
  | none => simp [resultNeeds]
  | some e =>
    have hfold : (e.fold.forTable width).Clear := clear_forTable (clear_fold (h e rfl))
    unfold resultNeeds
    rw [Option.map_some]
    cases hcase : e.fold with
    | const | string | record | store | load => simp
    | binary | var | param | not =>
      rw [hcase] at hfold
      simpa using clear_needs hfold

theorem clear_declarationNeeds (h : decl.Clear) : ∀ needs ∈ decl.needs, ∀ e ∈ needs, e.Clear := by
  cases decl with
  | properties feature id props pos =>
    intro needs hneeds e he
    obtain rfl := mem_singleton.mp hneeds
    obtain ⟨p, hp, hneed⟩ := mem_filterMap.mp he
    unfold need? at hneed
    split at hneed
    · rename_i value hvalue
      split at hneed
      · cases hneed
      · obtain rfl := Option.some.inj hneed
        exact clear_fold (h p hp value hvalue)
    · cases hneed
  | message m =>
    intro needs hneeds e he
    obtain rfl := mem_singleton.mp hneeds
    obtain ⟨param, hparam, rfl⟩ := mem_map.mp he
    exact clear_fold (h param hparam)
  | switch s =>
    intro needs hneeds
    simp only [Declaration.needs, mem_append, mem_flatMap, mem_singleton] at hneeds
    rcases hneeds with (⟨r, hr, hneeds⟩ | hneeds) | rfl
    · exact clear_resultNeeds (h.2.1 r hr) needs hneeds
    · exact clear_resultNeeds h.2.2 needs hneeds
    · exact clear_needs (clear_forTable h.1)
  | _ => simp [Declaration.needs]

/-- **What a declaration reads in temporary parameters is computed before.** -/
theorem Traced.fed {us : List Reading} (h : Traced decl us) (hclear : decl.Clear) : Fed (fun _ => False) us := by
  cases h with
  | assign h => exact h.fed (clear_fold hclear.1.2) (clear_fold hclear.2)
  | @tables _ parts hdecl h =>
    have hneeds := clear_declarationNeeds hclear
    generalize decl.needs = needs at h hneeds
    have hall : ∀ supplied, Fed supplied parts.flatten := by
      induction h with
      | nil => exact fun _ => trivial
      | cons h _ ih =>
        rw [forall_mem_cons] at hneeds
        exact fun supplied => (h.fed hneeds.1).append (ih hneeds.2 _)
    exact hall _

end Lowering

end Grf
