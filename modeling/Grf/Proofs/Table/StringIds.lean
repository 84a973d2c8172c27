import Grf.Proofs.Lowering.Drafts
import Grf.Proofs.Record.Numbers

/-! # Ids of strings

The ids of strings take two bytes, but the operands of a table have the width of the table, whatever they are. So the
ids in properties and definitions can be read back, and those in a table if and only if it is wider than one byte
(`stringIds_readBack`).
-/

namespace Grf

open List

variable {width id : Int}

/-- For each element of the stream of an expression, the string whose id it is. -/
def Expr.origins : Expr → List (Option String)
  | string name _ => [some name]
  | var ⟨_, some arg, _, _, _, _, _⟩ => if arg.isImmediate then [none] else arg.origins ++ [none, none]
  | binary _ left right =>
    if right.isSimple then left.origins ++ [none] ++ right.origins
    else right.origins ++ [none, none, none] ++ left.origins ++ [none, none]
  | _ => [none]
termination_by structural e => e

/-- What is written ends with an id in `width` bytes, which can be read back if and only if it is not cut to one byte. -/
def WritesId (width id : Int) (written : Except Fault (List Token)) : Prop :=
  ∃ tokens head, written = .ok tokens ∧ Token.bytesOfAll tokens = head ++ numberBytes width id ∧
    ((littleEndian (numberBytes width id) : Int) = id ↔ width ≠ 1)

/-- The ids of strings in a record: it defines a string with an id that `T` says, or it is a table. -/
def Record.IdsIn (T : String → Int → Prop) (table : TableRecord → Prop) (entries : List PropertyEntry → Prop)
    (r : Record) : Prop :=
  match r.body with
  | .stringDefinition _ _ id _ => ∃ name, T name id
  | .decisionTable t => table t
  | .propertyTable _ _ es => entries es
  | .paramAssignment _ | .bytePatchTable _ => True
  | _ => False

namespace Lowering

variable {T : String → Int → Prop} {table : TableRecord → Prop} {entries : List PropertyEntry → Prop}
  {slot : Nat} {feature : Int} {pos : Position} {e : Expr} {stream : Stream} {before rs : List Record}
  {s : Switch} {c c' : Context}

/-- An element that is the id of a string has the id that `T` says. -/
def NamesIn (T : String → Int → Prop) (origin : Option String) (item : StreamItem) : Prop :=
  ∀ name ∈ origin, ∃ id, T name id ∧ item = .operand (.var (Expr.constantVar id))

theorem StreamOf.namesIn (h : StreamOf T width pos e slot stream before) :
    Forall₂ (NamesIn T) e.origins stream.items := by
  have hnone : ∀ {origins items} (item : StreamItem), Forall₂ (NamesIn T) origins items →
      Forall₂ (NamesIn T) (none :: origins) (item :: items) := fun _ h => .cons (by rintro _ ⟨⟩) h
  induction h with
  | @operand _ v _ _ h =>
    cases h with
    | string _ hid => exact .cons (fun _ hname => ⟨_, Option.mem_some.mp hname ▸ hid, rfl⟩) .nil
    | read _ harg =>
      obtain ⟨num, arg, shift, mask, add, div, mod⟩ := v
      cases arg with
      | none => exact hnone _ .nil
      | some arg =>
        rw [Expr.origins, if_pos (harg arg rfl).isImmediate]
        exact hnone _ .nil
    | _ => exact hnone _ .nil
  | store | load => exact hnone _ .nil
  | @indirect v arg _ _ _ harg himm _ _ _ ih =>
    obtain ⟨num, param, shift, mask, add, div, mod⟩ := v
    obtain rfl : param = some arg := harg
    rw [Expr.origins, if_neg (by simp [himm])]
    simpa using rel_append ih (hnone _ (hnone _ .nil))
  | simple _ hsimple _ _ ihr ihl =>
    rw [Expr.origins, if_pos hsimple]
    exact rel_append (rel_append ihl (hnone _ .nil)) ihr
  | spilled _ hsimple _ _ ihr ihl =>
    rw [Expr.origins, if_neg (by simp [hsimple])]
    simpa using rel_append ihr (hnone _ (hnone _ (hnone _ (rel_append ihl (hnone _ (hnone _ .nil))))))

theorem idsIn_withPatches {r : Record} (h : r.IdsIn T table entries) (patches : List Patch) :
    ∀ R ∈ r.withPatches patches, R.IdsIn T table entries := by
  unfold Record.withPatches
  split
  · exact forall_mem_singleton.mpr h
  · exact forall_mem_cons.mpr ⟨trivial, forall_mem_singleton.mpr h⟩

theorem idsIn_planned (steps : List Step) : ∀ R ∈ planned pos steps, R.IdsIn T table entries := by
  intro R hR
  obtain ⟨s, -, hR⟩ := mem_flatMap.mp hR
  exact @idsIn_withPatches _ _ _ ⟨pos, .paramAssignment s.plan.assignment⟩ trivial _ R hR

theorem IsCheckedText.idsIn {name : String} {R : Record} (hid : T name id) (h : IsCheckedText id R) :
    R.IdsIn T table entries := by
  obtain ⟨feature, lang, text, hbody, -⟩ := h
  unfold Record.IdsIn
  rw [hbody]
  exact ⟨name, hid⟩

/-- The ids of strings in the stream of a table of the switch `s`, which computes one of its expressions and has its
width. -/
def TableIds (T : String → Int → Prop) (s : Switch) (t : TableRecord) : Prop :=
  t.varSize = s.varSize ∧ IsWidth t.varSize ∧ ∃ e ∈ s.expressions, ∃ e', (e' = e ∨ e' = e.fold) ∧
    Forall₂ (NamesIn T) (e'.forTable t.varSize).origins t.stream

theorem TableOf.idsIn (h : TableOf T s rs) : ∀ R ∈ rs, R.IdsIn T (TableIds T s) fun _ => False := by
  obtain @⟨part, e, head, ranges, default, he, hpart, hsize, hwidth, hstream, -⟩ := h
  have hbefore := hstream.forall_before (P := fun R => R.IdsIn T (TableIds T s) fun _ => False) idsIn_planned
    fun _ _ _ hid h => h.idsIn hid
  refine forall_mem_append.mpr ⟨by simpa using hbefore, ?_⟩
  refine idsIn_withPatches (show Record.IdsIn T (TableIds T s) _ ⟨part.pos, .decisionTable _⟩ from ?_) _
  exact ⟨hsize, hwidth, e, he, part.expr, hpart, hstream.namesIn⟩

/-- A property that is a string has the id that `T` says. -/
def EntryIds (T : String → Int → Prop) (prop : Property) (entry : PropertyEntry) : Prop :=
  ∀ name, prop.value = .string name → (entry.size = 2 ∨ entry.size = 4) ∧
    ∃ id, T name id ∧ entry.content = .value (.string name id)

theorem lowerProperty_settles (table : TableRecord → Prop) (entries : List PropertyEntry → Prop) (prop : Property) :
    Settles T (lowerProperty feature prop pos) fun p =>
      EntryIds T prop p.entry ∧ ∀ R ∈ p.definitions ++ p.computations, R.IdsIn T table entries := by
  obtain ⟨num, size, value, at'⟩ := prop
  refine .after .failIf fun _ => Settles.check.bind fun _ => ?_
  cases value with
  | constant k => exact .after .failIf fun _ => .pure fun _ => ⟨by rintro _ ⟨⟩, by simp⟩
  | computed value =>
    dsimp only
    split
    · exact .after .failIf fun _ => .pure fun _ => ⟨by rintro _ ⟨⟩, by simp⟩
    · refine (Settles.of_program operandParam_program operandParam_yields).bind fun x => .pure fun hx _ => ?_
      obtain ⟨steps, -, hrecords⟩ := hx
      exact ⟨by rintro _ ⟨⟩, by simpa [hrecords] using idsIn_planned _⟩
  | string name =>
    refine Settles.check.bind fun _ => resolveString_settles.bind fun x => .pure fun hx hsmall hwidth => ⟨?_, ?_⟩
    · rintro _ ⟨⟩
      simp only [Bool.and_eq_false_iff, decide_eq_false_iff_not, not_not] at hwidth hsmall
      refine ⟨?_, x.1, hx.1, rfl⟩
      show size = 2 ∨ size = 4
      omega
    · simpa using fun R hR => (hx.2 R hR).idsIn hx.1
  | array items =>
    exact .after .failIf fun _ => .after (.idle_forM fun _ _ => .failIf) fun _ => .pure
      fun _ => ⟨by rintro _ ⟨⟩, by simp⟩
  | missing => exact .fail

theorem lowerProperties_settles {id : Int} {props : List Property} : Settles T (lowerProperties feature id props pos)
    fun rs => ∀ R ∈ rs, R.IdsIn T (fun _ => False) (Forall₂ (EntryIds T) props) := by
  unfold lowerProperties
  split
  · exact .pure (by simp)
  refine .after .failIf fun _ => .after .failIf fun _ => .after .failIf fun _ =>
    (Settles.mapM (fun prop => lowerProperty_settles (fun _ => False) (Forall₂ (EntryIds T) props) prop) props).bind
      fun lowered => .pure fun hlowered => ?_
  have hentries : Forall₂ (EntryIds T) props (lowered.map (·.entry)) :=
    forall₂_map_right_iff.mpr (hlowered.imp fun _ _ h => h.1)
  have hothers : ∀ p ∈ lowered, ∀ R ∈ p.definitions ++ p.computations,
      R.IdsIn T (fun _ => False) (Forall₂ (EntryIds T) props) := by
    intro p hp
    obtain ⟨prop, -, h⟩ := exists_left_of_forall₂ hlowered hp
    exact h.2
  refine forall_mem_append.mpr ⟨forall_mem_append.mpr ⟨fun R hR => ?_, fun R hR => ?_⟩, ?_⟩
  · obtain ⟨p, hp, hR⟩ := mem_flatMap.mp hR
    exact hothers p hp R (mem_append_left _ hR)
  · obtain ⟨p, hp, hR⟩ := mem_flatMap.mp hR
    exact hothers p hp R (mem_append_right _ hR)
  · exact idsIn_withPatches (show Record.IdsIn T _ _ ⟨pos, .propertyTable feature id _⟩ from hentries) _

/-! ## Reading ids -/

/-- The string `name` has the id `id`, in a definition, in an operand of a table and in a property. -/
structure HasId (c : Context) (name : String) (id : Int) : Prop where
  given : c.textId? name = some id
  definition : (littleEndian (Token.wordOf id).bytes : Int) = id
  operand : ∀ width last, IsWidth width → WritesId width id ((Expr.var (Expr.constantVar id)).tokensAs last width)
  entry : ∀ num width, IsWidth width → WritesId width id (PropertyEntry.tokens ⟨num, width, .value (.string name id)⟩)

theorem hasId {name : String} {id : Int} (h : c.textId? name = some id) (hid : IsStringId id) : HasId c name id := by
  obtain ⟨hlow, hhigh⟩ := hid
  have hread : ∀ width, IsWidth width → ((littleEndian (numberBytes width id) : Int) = id ↔ width ≠ 1) := by
    rintro _ (rfl | rfl | rfl)
    · rw [show littleEndian (numberBytes 1 id) = _ from littleEndian_byteOf id, residue, show modulus 1 = 0x100 from rfl]
      omega
    · rw [show littleEndian (numberBytes 2 id) = _ from littleEndian_wordOf id, residue, show modulus 2 = 0x10000 from rfl]
      omega
    · rw [show littleEndian (numberBytes 4 id) = _ from littleEndian_dwordOf id, residue,
        show modulus 4 = 0x100000000 from rfl]
      omega
  refine ⟨h, (hread 2 (.inr (.inl rfl))).mpr (by decide), fun width last hwidth => ?_, fun num width hwidth => ?_⟩
  · have hread := hread width hwidth
    let head := Token.bytesOfAll [Token.byteOf 0x1A, Token.byteOf ((Expr.constantVar id).shiftByte last)]
    rcases hwidth with rfl | rfl | rfl <;> exact ⟨_, head, rfl, rfl, hread⟩
  · obtain ⟨t, ht⟩ := hwidth.sized id
    have hwritten : (Expr.string name id).tokens width = .ok [t] := by
      refine (if_neg (by omega)).trans ?_
      rw [ht]
      rfl
    refine ⟨[Token.byteOf num, t, lineBreak], (Token.byteOf num).bytes, ?_, ?_, hread width hwidth⟩
    · unfold PropertyEntry.tokens
      dsimp only
      rw [hwritten]
      rfl
    · rw [← bytes_of_sized ht]
      exact congrArg _ (append_nil _)

/-- **Ids of strings are read back unless a table is one byte wide.** Each element of a stream that stands for a string,
each property that is a string and each definition has the id that the string has in the end. -/
theorem stringIds_readBack (hc : c.Numbered) :
    (∀ s rs, lowerSwitch s c = .ok rs c' → ∀ R ∈ rs, R.IdsIn (HasId c') (TableIds (HasId c') s) fun _ => False) ∧
    ∀ feature id props pos rs, lowerProperties feature id props pos c = .ok rs c' →
      ∀ R ∈ rs, R.IdsIn (HasId c') (fun _ => False) (Forall₂ (EntryIds (HasId c')) props) := by
  have hkept : ∀ {m : Lowering (List Record)} {Q : List Int → List Record → Prop} {rs : List Record},
      Program Set.univ m Q → m c = .ok rs c' → ∀ name id, c'.textId? name = some id → HasId c' name id := by
    exact fun h hok name id hid => hasId hid ((h.numbered hc hok).2 name id hid)
  constructor
  · intro s rs h
    obtain ⟨-, parts, rfl, hparts⟩ := lowerSwitch_tablesOf s c rs c' h (hkept (lowerSwitch_program (Set.mem_univ _)) h)
    intro R hR
    obtain ⟨part, hpart, hR⟩ := List.mem_flatten.mp hR
    exact (hparts part hpart).idsIn R hR
  · intro feature id props pos rs h
    exact (lowerProperties_settles c rs c' h (hkept lowerProperties_program h)).2

/-- In a table of one byte, the first string is cut. -/
theorem stringIds_readBack_narrow :
    let c : Context := .create 0 (some { entries := [("s", [⟨0x7F, "x", {}⟩])] }) none
    let s : Switch := ⟨"sw", 0, false, 1, .string "s" (-1), [], some (.const 1), {}⟩
    ∃ rs c', lowerSwitch s c = .ok rs c' ∧ c'.textId? "s" = some 0xD000 ∧ (s.expr.forTable 1).origins = [some "s"] ∧
      (∀ R ∈ rs, R.IdsIn (HasId c') (TableIds (HasId c') s) fun _ => False) ∧
      littleEndian (numberBytes 1 0xD000) ≠ 0xD000 := by
  intro c s
  have hc : c.Numbered := by
    rintro _ ⟨⟩
    exact ⟨by simp, fun _ => Context.mem_free_ofRange⟩
  have hok : succeeds (lowerSwitch s) c (fun _ c' => c'.textId? "s" = some 0xD000) := by decide +kernel
  obtain ⟨rs, c', h, hid⟩ := eq_ok_of_succeeds hok
  exact ⟨rs, c', h, of_decide_eq_true hid, by decide +kernel, (stringIds_readBack hc).1 s rs h, by decide +kernel⟩

end Lowering

end Grf
