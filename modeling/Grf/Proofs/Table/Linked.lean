import Grf.Proofs.Finalize.Shapes
import Grf.Proofs.Table.Bytes

/-! # Streams are well formed

The engine walks over a stream by alternation: an operand, and then operators with an operand each, as long as the flag
of a following operand is set. A right side that is more than an operand is kept in a slot of its own, which the stream
stores to once and loads once, later on (`lowerStream_wellFormed`).
-/

namespace Grf

open List StreamItem Grf.Expr VarRead

/-! ## Slots -/

def Expr.NoSpill : Expr → Prop
  | store (.spill _) | load (.spill _) => False
  | _ => True

theorem Expr.noSpill_pervades (width : Int) : Pervades width NoSpill :=
  ⟨fun _ => trivial, fun _ _ _ => trivial, fun _ => trivial, fun _ => trivial, fun _ => trivial, fun _ _ _ => trivial⟩

/-- Whether an element of a stream stores to the spilled slot `k` or loads it. -/
def StreamItem.mentions (k : Nat) : StreamItem → Bool
  | .operand (.store (.spill n)) | .operand (.load (.spill n)) => n == k
  | _ => false

/-- The elements of a stream that have to do with the slot `k`, if it is one of the given ones. -/
def slotUses (first count k : Nat) : List StreamItem :=
  if first ≤ k ∧ k < first + count then [.operand (.store (.spill k)), .operand (.load (.spill k))] else []

theorem slotUses_add (first m n k : Nat) :
    slotUses (first + m) n k ++ slotUses first m k = slotUses first (m + n) k := by
  unfold slotUses
  by_cases hm : first ≤ k ∧ k < first + m
  · grind
  · rw [if_neg hm, append_nil]
    exact if_congr (by omega) rfl rfl

theorem slotUses_between (first m n k : Nat) :
    slotUses first m k ++ [.operand (.store (.spill (first + m)))].filter (·.mentions k) ++
      slotUses (first + m + 1) n k ++ [.operand (.load (.spill (first + m)))].filter (·.mentions k) =
        slotUses first (m + 1 + n) k := by
  by_cases hk : first + m = k
  · subst hk
    simp only [slotUses]
    rw [if_neg (by omega), if_neg (by omega), if_pos (by omega)]
    simp [mentions]
  · have hskip : ∀ e : Slot → Expr, e = .store ∨ e = .load →
        [operand (e (.spill (first + m)))].filter (·.mentions k) = [] := by
      rintro e (rfl | rfl) <;> simp [mentions, hk]
    rw [hskip .store (.inl rfl), hskip .load (.inr rfl), append_nil, append_nil]
    unfold slotUses
    by_cases hm : first ≤ k ∧ k < first + m
    · grind
    · rw [if_neg hm, nil_append]
      exact if_congr (by omega) rfl rfl

/-- Operators with an operand each. Only `STO_TMP` stores to a spilled slot. -/
inductive Linked : List StreamItem → Prop
  | nil : Linked []
  | cons {op : Operator} {e : Expr} {rest : List StreamItem} (h : ∀ k, e = .store (.spill k) → op = .stoTmp)
      (hrest : Linked rest) : Linked (.op op :: .operand e :: rest)

namespace Linked

variable {xs ys : List StreamItem}

theorem append (hx : Linked xs) (hy : Linked ys) : Linked (xs ++ ys) := by
  induction hx with
  | nil => exact hy
  | cons h _ ih => exact .cons h ih

theorem paired (h : Linked xs) : Table.Paired xs := by
  induction h with
  | nil => exact .nil
  | cons _ _ ih => exact .cons _ _ ih

theorem after (h : Linked (.op .val2 :: xs)) (op : Operator) : Linked (.op op :: xs) := by
  cases h with
  | cons h hrest => exact .cons (fun k hk => absurd (h k hk) (by simp)) hrest

theorem before_store (h : Linked xs) {pre post : List StreamItem} {k : Nat}
    (hxs : xs = pre ++ .operand (.store (.spill k)) :: post) : ∃ pre', pre = pre' ++ [.op .stoTmp] := by
  induction h generalizing pre with
  | nil => simp at hxs
  | @cons op e rest h _ ih =>
    rcases pre with _ | ⟨a, _ | ⟨b, pre⟩⟩
    · cases hxs
    · obtain ⟨rfl, hrest⟩ := List.cons.inj hxs
      obtain ⟨he, -⟩ := List.cons.inj hrest
      rw [h k (operand.inj he)]
      exact ⟨[], rfl⟩
    · obtain ⟨rfl, hrest⟩ := List.cons.inj hxs
      obtain ⟨rfl, htail⟩ := List.cons.inj hrest
      obtain ⟨pre', rfl⟩ := ih htail
      exact ⟨_ :: _ :: pre', rfl⟩

end Linked

namespace Lowering

variable {T : String → Int → Prop} {width : Int} {pos : Position} {e : Expr} {slot : Nat} {stream : Stream}
  {before : List Record}

theorem StreamOf.linked (h : StreamOf T width pos e slot stream before) (he : e.Everywhere Expr.NoSpill) :
    Linked (.op .val2 :: stream.items) := by
  have hself {a : Expr} (ha : a.Everywhere Expr.NoSpill) : a.NoSpill := ha a a.self_mem_walk
  induction h with
  | operand | load => exact .cons (fun k hk => by cases hk) .nil
  | store kept slot =>
    refine .cons (fun k hk => ?_) .nil
    cases hk
    exact (hself he).elim
  | @indirect v _ _ _ _ harg _ _ _ _ ih =>
    have hread : Linked [.op .val2, .operand (.var (Table.indirect v))] := .cons (fun k hk => by cases hk) .nil
    simpa using (ih ((everywhere_var.mp he).2 _ harg)).append hread
  | @simple op _ _ _ _ _ _ _ _ _ _ _ ihr ihl =>
    obtain ⟨-, hleft, hright⟩ := everywhere_binary.mp he
    simpa using (ihl hleft).append ((ihr hright).after op)
  | @spilled op _ right slot _ _ _ _ _ _ _ _ ihr ihl =>
    obtain ⟨-, hleft, hright⟩ := everywhere_binary.mp he
    have hstore : Linked [.op .stoTmp, .operand (.store (.spill (slot + right.spills)))] := .cons (fun _ _ => rfl) .nil
    have hload : Linked [.op op, .operand (.load (.spill (slot + right.spills)))] :=
      .cons (fun k hk => by cases hk) .nil
    simpa using (((ihr hright).append hstore).append (ihl hleft)).append hload

theorem OperandOf.spills {v : VarRead Expr} (h : OperandOf T pos e v before) : e.spills = 0 := by
  cases h with
  | read hv harg =>
    obtain ⟨num, arg, shift, mask, add, div, mod⟩ := v
    cases arg with
    | none => rfl
    | some arg =>
      have himm := (harg arg rfl).isImmediate
      unfold isImmediate at himm
      split at himm
      · rfl
      · rfl
      · cases himm
  | _ => rfl

/-- **The slots of a stream** are those from its first one on, each stored to and then loaded. -/
theorem StreamOf.filter_mentions (h : StreamOf T width pos e slot stream before)
    (he : e.Everywhere Expr.NoSpill) (k : Nat) : stream.items.filter (·.mentions k) = slotUses slot e.spills k := by
  have hself {a : Expr} (ha : a.Everywhere Expr.NoSpill) : a.NoSpill := ha a a.self_mem_walk
  have hnone : ∀ slot, slotUses slot 0 k = [] := fun slot => if_neg (by omega)
  induction h with
  | operand slot h => exact (congrArg (slotUses slot · k) h.spills).trans (hnone slot) ▸ rfl
  | store kept slot =>
    refine Eq.trans ?_ (hnone slot).symm
    cases kept with
    | spill n => exact (hself he).elim
    | _ => rfl
  | load kept slot =>
    refine Eq.trans ?_ (hnone slot).symm
    cases kept with
    | spill n => exact (hself he).elim
    | _ => rfl
  | @indirect v arg slot _ _ harg _ _ _ _ ih =>
    have hspills : (var v).spills = arg.spills := by
      obtain ⟨num, param, shift, mask, add, div, mod⟩ := v
      obtain rfl : param = some arg := harg
      rfl
    rw [hspills, ← ih ((everywhere_var.mp he).2 _ harg)]
    simp [mentions]
  | @simple op left right slot _ _ _ _ _ hsimple _ _ ihr ihl =>
    obtain ⟨-, hleft, hright⟩ := everywhere_binary.mp he
    have hspills : (binary op left right).spills = right.spills + left.spills := by
      simp only [spills, hsimple, if_true, Nat.add_zero]
    rw [hspills, ← slotUses_add, ← ihr hright, ← ihl hleft]
    simp [mentions]
  | @spilled op left right slot _ _ _ _ _ hsimple _ _ ihr ihl =>
    obtain ⟨-, hleft, hright⟩ := everywhere_binary.mp he
    have hspills : (binary op left right).spills = right.spills + 1 + left.spills := by
      simp [spills, hsimple]
    have hop : ∀ op, [StreamItem.op op].filter (·.mentions k) = [] := fun _ => rfl
    rw [hspills, ← slotUses_between, ← ihr hright, ← ihl hleft]
    simp only [Stream.items_append, Stream.items_ofOp, Stream.items_ofOperand, filter_append, hop, append_nil]

theorem StreamOf.plain (h : StreamOf T width pos e slot stream before) :
    ∀ item ∈ stream.items, item.MadeOf Expr.Plain fun _ => True :=
  h.forall_mem (Q := fun _ => True) ⟨fun _ => ⟨trivial, trivial⟩, fun _ _ => trivial⟩ trivial (fun _ _ => trivial) (fun _ _ _ hv _ => hv.plain)
    (fun _ hv _ => hv.indirect) (fun _ _ => trivial) fun _ _ => trivial

end Lowering

namespace StreamItem.Becomes

variable {item item' : StreamItem} {items items' : List StreamItem}

theorem plain (h : item.Becomes item') (hitem : item.MadeOf Expr.Plain fun _ => True) :
    item'.MadeOf Expr.Plain fun _ => True := by
  cases h with
  | same => exact hitem
  | call h id' => exact ⟨fun _ he => Option.mem_some.mp he ▸ trivial, hitem.fields⟩
  | store | load => trivial

theorem operand {e : Expr} (h : (operand e).Becomes item') : ∃ e', item' = .operand e' := by
  cases h <;> exact ⟨_, rfl⟩

theorem paired (h : Forall₂ Becomes items items') (hitems : Table.Paired items) : Table.Paired items' := by
  induction hitems generalizing items' with
  | nil => exact forall₂_nil_left_iff.mp h ▸ .nil
  | cons op e _ ih =>
    obtain ⟨_, _, hop, htail, rfl⟩ := forall₂_cons_left_iff.mp h
    obtain ⟨_, _, he, hrest, rfl⟩ := forall₂_cons_left_iff.mp htail
    cases hop
    obtain ⟨e', rfl⟩ := he.operand
    exact .cons op e' (ih hrest)

end StreamItem.Becomes

theorem TableOperand.ShiftFits.flags {o : TableOperand} (h : o.ShiftFits) (last : Bool) :
    0 ≤ o.flags last ∧ o.flags last ≤ 0xFF ∧ o.flags last / 0x20 % 2 = if last then 0 else 1 := by
  obtain ⟨hlow, hhigh⟩ := h
  unfold maxShift at hhigh
  have hpost : (o.post.elim 0 fun p => if p.modulo then modFlag else divFlag) ∈ [0, 0x40, 0x80] := by
    rcases o.post with _ | ⟨_ | _, _, _⟩ <;> simp [modFlag, divFlag]
  simp only [mem_cons, not_mem_nil, or_false] at hpost
  unfold TableOperand.flags
  rcases hpost with hpost | hpost | hpost <;> rw [hpost] <;> cases last <;>
    simp only [chainedFlag, if_true, Bool.false_eq_true, if_false] <;> omega

namespace Lowering

/-- **Streams are well formed**, for any expression without slots of its own. An operand comes first, and
then operators with an operand each. The slots have numbers from zero on: each is stored to once, by
`STO_TMP`, and loaded once after that. However the calls are bound and the slots get registers, the stream is
written in as many bytes as its size says, and the flag of a following operand is set in all operands but the
last one. -/
theorem lowerStream_wellFormed {node : Nat} {feature width : Int} {pos : Position} {e : Expr} {c c' : Context}
    {stream : Stream} {before : List Record} (h : lowerStream node feature e width pos c = .ok (stream, before) c')
    (he : e.Everywhere Expr.NoSpill) :
    (∃ first rest, stream.items = .operand first :: rest ∧ Table.Paired rest) ∧
    (∀ k, stream.items.filter (·.mentions k) = slotUses 0 (e.forTable width).spills k) ∧
    (∀ k pre post, stream.items = pre ++ .operand (.store (.spill k)) :: post → ∃ pre', pre = pre' ++ [.op .stoTmp]) ∧
    ∀ items tokens, Forall₂ StreamItem.Becomes stream.items items → streamTokens width items = .ok tokens →
      ((Token.bytesOfAll tokens).length : Int) = stream.size ∧
      ∃ first rest, items = .operand first :: rest ∧ Table.Paired rest ∧
        Token.bytesOfAll tokens = chainBytes width (first.operand width) (operandPairs width rest) ∧
        ∀ o ∈ first.operand width :: (operandPairs width rest).map (·.2), ∀ last : Bool,
          0 ≤ o.flags last ∧ o.flags last ≤ 0xFF ∧ o.flags last / 0x20 % 2 = if last then 0 else 1 := by
  obtain ⟨_, d, hwidth, h⟩ := bind_eq_ok.mp h
  have hstream : StreamOf anyId width pos (e.forTable width) 0 stream before := lowerOperands_streamOf.yields d _ c' h
  have hform := (Expr.noSpill_pervades width).forTable he
  have hlinked := hstream.linked hform
  have hpaired := hlinked.paired
  obtain ⟨first, rest, hitems, hrest⟩ : ∃ first rest, stream.items = .operand first :: rest ∧ Table.Paired rest := by
    generalize stream.items = items at hpaired
    cases hpaired with
    | cons _ first hrest => exact ⟨first, _, rfl, hrest⟩
  refine ⟨⟨first, rest, hitems, hrest⟩, hstream.filter_mentions hform, fun k pre post hsplit => ?_,
    fun items tokens hbecomes htokens => ⟨?_, ?_⟩⟩
  · obtain ⟨pre', hpre⟩ : ∃ pre', .op .val2 :: pre = pre' ++ [.op .stoTmp] := hlinked.before_store (congrArg _ hsplit)
    rcases pre' with _ | ⟨_, pre'⟩
    · -- the stream does not start with a store
      cases hpre
    · exact ⟨pre', (List.cons.inj hpre).2⟩
  · have hcells : stream.items.flatMap (·.cells width) = items.flatMap (·.cells width) :=
      flatMap_eq_of_forall₂ (hbecomes.imp fun _ _ hitem => hitem.cells width)
    rw [(streamTokens_lays width items tokens htokens).spells.length, hstream.placed.1.size, ← hcells]
  · rw [hitems] at hbecomes
    obtain ⟨_, rest', hfirst, hrest', rfl⟩ := forall₂_cons_left_iff.mp hbecomes
    obtain ⟨first', rfl⟩ := hfirst.operand
    have hplain : ∀ item ∈ .operand first' :: rest', item.MadeOf Expr.Plain fun _ => True := by
      intro item hitem
      obtain ⟨item', hitem', hitem⟩ := exists_left_of_forall₂ (.cons hfirst hrest') hitem
      exact hitem.plain (hstream.plain item' (hitems ▸ hitem'))
    have hpaired' := StreamItem.Becomes.paired hrest' hrest
    obtain ⟨hbytes, hfits⟩ := streamTokens_chain hpaired' hplain htokens
    exact ⟨first', rest', rfl, hpaired', hbytes, fun o ho last => (hfits o ho).flags last⟩

/-- A table of two bytes a value, with an operand that is kept in a slot and a variable with a computed
parameter. The slot gets a register before the table is written. -/
theorem lowerStream_wellFormed_spilled :
    let e : Expr :=
      .binary .sub (.var { num := 0x61, param := some (.binary .mul (.var { num := 0x40 }) (.const 3)) })
        (.binary .mul (.var { num := 0x41 }) (.const 5))
    ∃ (stream : Stream) (items : List StreamItem) (tokens : List Token) (c' : Context),
      lowerStream 0 0 e 2 {} (.create 0 none none) = .ok (stream, []) c' ∧
      stream.items.filter (·.mentions 0) = [.operand (.store (.spill 0)), .operand (.load (.spill 0))] ∧
      Forall₂ StreamItem.Becomes stream.items items ∧ streamTokens 2 items = .ok tokens ∧
      ((Token.bytesOfAll tokens).length : Int) = stream.size ∧ stream.size = 36 := by
  intro e
  let read (num : Int) : StreamItem := .operand (.var { num := num })
  let number (n : Int) : StreamItem := .operand (.var { num := 0x1A, mask := some (.const n) })
  let items (kept : Slot) : List StreamItem :=
    [read 0x41, .op .mul, number 5, .op .stoTmp, .operand (.store kept), .op .val2, read 0x40, .op .mul, number 3,
      .op .val2, .operand (.var { num := 0x7B, param := some (.const 0x61) }), .op .sub, .operand (.load kept)]
  have h : lowerStream 0 0 e 2 {} (.create 0 none none) =
      .ok (⟨items (.spill 0), [], 36⟩, []) (.create 0 none none) := rfl
  have hbecomes : Forall₂ StreamItem.Becomes (items (.spill 0)) (items (.register 0x80)) := by
    repeat' first | exact .nil | apply Forall₂.cons
    all_goals first | exact .same _ | exact .store .. | exact .load ..
  obtain ⟨tokens, htokens⟩ : ∃ tokens, streamTokens 2 (items (.register 0x80)) = .ok tokens := ⟨_, rfl⟩
  have he : e.Everywhere Expr.NoSpill := by
    intro a ha
    simp only [e, Expr.walk, List.mem_cons, List.mem_append, List.not_mem_nil, or_false] at ha
    rcases ha with rfl | (rfl | rfl | rfl | rfl) | rfl | rfl | rfl <;> trivial
  obtain ⟨-, hslots, -, hwritten⟩ := lowerStream_wellFormed h he
  exact ⟨_, _, tokens, _, h, hslots 0, hbecomes, htokens, (hwritten _ _ hbecomes htokens).1, rfl⟩
end Lowering

end Grf
