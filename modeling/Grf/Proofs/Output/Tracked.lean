import Grf.Proofs.Record.Sizes

/-! # Tracked outputs

The tracker of an output follows the sprites that are written. A record that prints as many bytes as it has announced
leaves no sprite open, so a list of such records is written to its end (`Output.Tracks.writeAll_cases`). What can go
wrong are the shifts of variables, and sizes that a container has no room for.
-/

namespace Grf

open List Container Tracker Record

namespace Writing

variable {σ α β : Type} {tracker : σ → Tracker} {m : Writing σ α} {f : α → Writing σ β} {t t₁ t' : Tracker}

/-- The computation succeeds wherever the tracker is `t`, and the tracker is `t'` then. -/
def Brings (tracker : σ → Tracker) (m : Writing σ α) (t t' : Tracker) : Prop :=
  ∀ o, tracker o = t → ∃ a o', m o = .ok a o' ∧ tracker o' = t'

theorem lift_eq_ok {o o' : σ} {x : Except Fault α} {a : α} : (lift x : Writing σ α) o = .ok a o' ↔ x = .ok a ∧ o = o' := by
  cases x with
  | ok b =>
    show EStateM.Result.ok b o = .ok a o' ↔ _
    simp
  | error f =>
    show EStateM.Result.error f o = .ok a o' ↔ _
    simp

theorem updated_eq_ok {o o' : σ} {f : σ → Except Fault α} {g : σ → α → σ} {u : PUnit} :
    (do let o ← get; let a ← lift (f o); set (g o a) : Writing σ PUnit) o = .ok u o' ↔
      ∃ a, f o = .ok a ∧ o' = g o a := by
  show ((lift (f o) >>= fun a => set (g o a)) : Writing σ PUnit) o = _ ↔ _
  rw [bind_eq_ok]
  constructor
  · rintro ⟨a, o₁, hlift, ⟨⟩⟩
    exact ⟨a, (lift_eq_ok.mp hlift).1, rfl⟩
  · rintro ⟨a, ha, rfl⟩
    exact ⟨a, o, lift_eq_ok.mpr ⟨ha, rfl⟩, rfl⟩

theorem tracked_eq_ok {o o' : σ} {f : σ → Except Fault α} {g : σ → α → σ} {h : σ → σ} {u : PUnit} :
    ((do let o ← get; let a ← lift (f o); set (g o a)) >>= fun _ => modify h : Writing σ PUnit) o = .ok u o' ↔
      ∃ a, f o = .ok a ∧ o' = h (g o a) := by
  rw [bind_eq_ok]
  constructor
  · rintro ⟨⟨⟩, o₁, htrack, hmodify⟩
    obtain ⟨a, ha, rfl⟩ := updated_eq_ok.mp htrack
    exact ⟨a, ha, (modify_eq_ok.mp hmodify).symm⟩
  · rintro ⟨a, ha, rfl⟩
    exact ⟨⟨⟩, _, updated_eq_ok.mpr ⟨a, ha, rfl⟩, modify_eq_ok.mpr rfl⟩

namespace Brings

theorem pure (a : α) : Brings tracker (Pure.pure a : Writing σ α) t t := fun o ho => ⟨a, o, rfl, ho⟩

theorem bind (hm : Brings tracker m t t₁) (hf : ∀ a, Brings tracker (f a) t₁ t') : Brings tracker (m >>= f) t t' := by
  intro o ho
  obtain ⟨a, o₁, hrun, ho₁⟩ := hm o ho
  obtain ⟨b, o', hrest, ho'⟩ := hf a o₁ ho₁
  exact ⟨b, o', by rw [bind_of_ok hrun, hrest], ho'⟩

theorem modify {g : σ → σ} (hg : ∀ o, tracker (g o) = tracker o) :
    Brings tracker (modify g : Writing σ PUnit) t t := fun o ho => ⟨⟨⟩, g o, rfl, (hg o).trans ho⟩

theorem set {o : σ} (h : tracker o = t') : Brings tracker (MonadStateOf.set o : Writing σ PUnit) t t' :=
  fun _ _ => ⟨⟨⟩, o, rfl, h⟩

theorem get {f : σ → Writing σ β} (h : ∀ o, tracker o = t → Brings tracker (f o) t t') :
    Brings tracker (MonadState.get >>= f) t t' := fun o ho => h o ho o ho

theorem updated {step : Tracker → Except Fault Tracker} {g : σ → Tracker → σ} (hg : ∀ o, tracker (g o t') = t')
    (h : step t = .ok t') :
    Brings tracker (do let o ← MonadState.get; let t ← lift (step (tracker o)); MonadStateOf.set (g o t)) t t' := by
  rintro o rfl
  exact ⟨⟨⟩, g o t', updated_eq_ok.mpr ⟨t', h, rfl⟩, hg o⟩

end Brings

end Writing

open Writing (Brings)

namespace Tracker

variable (size : Int)

theorem start_none : ({} : Tracker).start size = .ok ⟨some (size, 0)⟩ := rfl

theorem addToken_current (printed : Nat) (token : Token) :
    (⟨some (size, printed)⟩ : Tracker).addToken token = .ok ⟨some (size, printed + token.bytes.length)⟩ := by
  cases token <;> rfl

theorem finish_exact (printed : Nat) : (⟨some ((printed : Int), printed)⟩ : Tracker).finish = .ok {} := if_pos rfl

end Tracker

/-- The tracker of an output follows what is written. The output takes pseudo sprites of the sizes that `accepts`
tells. -/
structure Output.Counts (σ : Type) [Output σ] (tracker : σ → Tracker) (accepts : Int → Prop) : Prop where
  start : ∀ size, accepts size → Brings tracker (Output.start size) {} ⟨some (size, 0)⟩
  print : ∀ size printed token,
    Brings tracker (Output.print token) ⟨some (size, printed)⟩ ⟨some (size, printed + token.bytes.length)⟩
  finish : ∀ printed : Nat, Brings tracker Output.finish ⟨some ((printed : Int), printed)⟩ {}
  reference : ∀ num, Brings tracker (Output.reference num) {} {}
  close : Brings tracker Output.close {} {}

/-- The tracker follows what is written, and other sizes than those that `accepts` tells are refused. -/
structure Output.Tracks (σ : Type) [Output σ] (tracker : σ → Tracker) (accepts : Int → Prop) : Prop
    extends Output.Counts σ tracker accepts where
  refuse : ∀ size, ¬accepts size → ∀ o : σ, ∃ o', Output.start size o = .error (.invalidSpriteSize size) o'

/-- The fault `f` is one that the record `r` can cause: a shift that cannot be written, or a size that is not
accepted. -/
def Record.Causes (accepts : Int → Prop) (r : Record) (f : Fault) : Prop :=
  (∃ v ∈ r.varReads, ¬v.ShiftFits ∧ f = .invalidShift v.shift v.num) ∨
    ∃ n, r.size? = some n ∧ ¬accepts n ∧ f = .invalidSpriteSize n

namespace Output.Counts

variable {σ : Type} [Output σ] {tracker : σ → Tracker} {accepts : Int → Prop}

theorem printAll (ht : Counts σ tracker accepts) (tokens : List Token) (size : Int) (printed : Nat) :
    Brings tracker (tokens.forM Output.print) ⟨some (size, printed)⟩
      ⟨some (size, printed + (Token.bytesOfAll tokens).length)⟩ := by
  induction tokens generalizing printed with
  | nil => exact .pure _
  | cons token tokens ih =>
    rw [Token.bytesOfAll_cons, length_append, ← Nat.add_assoc]
    exact (ht.print size printed token).bind fun _ => ih _

theorem pseudo (ht : Counts σ tracker accepts) {x : Except Fault (List Token)} {n : Int} (hn : accepts n)
    (hx : Prints x n) : Brings tracker (Output.pseudo n x) {} {} := by
  obtain ⟨tokens, rfl, rfl⟩ := hx
  have hprint := ht.printAll tokens (Token.bytesOfAll tokens).length 0
  rw [Nat.zero_add] at hprint
  exact (ht.start _ hn).bind fun _ => hprint.bind fun _ => ht.finish _

end Output.Counts

theorem Record.write_of_size? {σ : Type} [Output σ] {r : Record} {n : Int} (h : r.size? = some n) :
    (r.write : Writing σ Unit) = Output.pseudo n r.tokens := by
  obtain ⟨pos, body⟩ := r
  cases body <;> cases h <;> rfl

namespace Output.Tracks

variable {σ : Type} [Output σ] {tracker : σ → Tracker} {accepts : Int → Prop} {fits : Prop} {o : σ}
  {records : List Record}
variable (ht : Tracks σ tracker accepts)
include ht

/-- **A record is written**, and no sprite is left open, or it causes a fault. -/
theorem write_cases {r : Record} (hr : r.Complete fits) (ho : tracker o = {}) :
    (∃ o', r.write o = .ok () o' ∧ tracker o' = {}) ∨ ∃ f o', r.write o = .error f o' ∧ r.Causes accepts f := by
  cases hsize : r.size? with
  | none =>
    obtain ⟨pos, body⟩ := r
    cases body <;> cases hsize
    obtain ⟨⟨⟩, hwrite⟩ := ht.reference _ o ho
    exact .inl hwrite
  | some n =>
    rw [write_of_size? hsize]
    by_cases hn : accepts n
    · rcases tokens_cases hr hsize with ⟨-, hprints⟩ | ⟨v, hv, hfits, herror⟩
      · obtain ⟨⟨⟩, hpseudo⟩ := ht.pseudo hn hprints o ho
        exact .inl hpseudo
      · -- The sprite has been opened when the fault is met.
        obtain ⟨⟨⟩, o₁, hstart, -⟩ := ht.start n hn o ho
        have hfault : Output.pseudo n r.tokens o = .error (.invalidShift v.shift v.num) o₁ := by
          unfold Output.pseudo
          rw [bind_of_ok hstart, herror]
          rfl
        exact .inr ⟨_, o₁, hfault, .inl ⟨v, hv, hfits, rfl⟩⟩
    · obtain ⟨o', ho'⟩ := ht.refuse n hn o
      exact .inr ⟨_, o', bind_of_error ho', .inr ⟨n, hsize, hn, rfl⟩⟩

theorem forM_cases (hrecords : ∀ r ∈ records, r.Complete fits) (ho : tracker o = {}) :
    (∃ o', records.forM write o = .ok () o' ∧ tracker o' = {}) ∨
      ∃ r ∈ records, ∃ f o', records.forM write o = .error f o' ∧ r.Causes accepts f := by
  induction records generalizing o with
  | nil => exact .inl ⟨o, rfl, ho⟩
  | cons r records ih =>
    rw [forall_mem_cons] at hrecords
    have hcons : (r :: records).forM write = (r.write >>= fun _ => records.forM write : Writing σ PUnit) := rfl
    rw [hcons]
    rcases ht.write_cases hrecords.1 ho with ⟨o₁, hwrite, ho₁⟩ | ⟨f, o₁, hwrite, hcauses⟩
    · rw [bind_of_ok hwrite]
      rcases ih hrecords.2 ho₁ with hok | ⟨r', hr', hfault⟩
      · exact .inl hok
      · exact .inr ⟨r', mem_cons_of_mem _ hr', hfault⟩
    · exact .inr ⟨r, mem_cons_self, f, o₁, bind_of_error hwrite, hcauses⟩

/-- **Records are written to the end**, or one of them causes a fault. -/
theorem writeAll_cases (hrecords : ∀ r ∈ records, r.Complete fits) (ho : tracker o = {}) :
    (∃ e o', writeAll records o = .ok e o') ∨
      ∃ r ∈ records, ∃ f o', writeAll records o = .error f o' ∧ r.Causes accepts f := by
  unfold writeAll
  rcases ht.forM_cases hrecords ho with ⟨o₁, hwrite, ho₁⟩ | ⟨r, hr, f, o', hwrite, hcauses⟩
  · obtain ⟨e, o', hclose, -⟩ := ht.close o₁ ho₁
    exact .inl ⟨e, o', by rw [bind_of_ok hwrite, hclose]⟩
  · exact .inr ⟨r, hr, f, o', bind_of_error hwrite, hcauses⟩

end Output.Tracks

namespace Listing

theorem put_tracker (o : Listing) (text : String) : (o.put text).tracker = o.tracker := by
  unfold put
  split <;> rfl

theorem createOn_tracker (sink : Sink) (source : String) : (createOn sink source).tracker = {} := by
  unfold createOn
  split <;> simp only [put_tracker]

theorem track_brings (f : Tracker → Except Fault Tracker) {t t' : Tracker} (h : f t = .ok t') :
    Brings Listing.tracker (track f) t t' := .updated (fun _ => rfl) h

theorem start_brings (size : Int) : Brings Listing.tracker (start size) {} ⟨some (size, 0)⟩ :=
  (track_brings (·.start size) (start_none size)).bind fun _ => .modify fun _ => rfl

theorem finish_brings (printed : Nat) : Brings Listing.tracker finish ⟨some ((printed : Int), printed)⟩ {} :=
  (track_brings (·.finish) (finish_exact printed)).bind fun _ => .modify fun o => by
    simp only [put_tracker]

theorem close_brings : Brings Listing.tracker close {} {} := by
  refine .get fun o ho => ?_
  have hnone : o.tracker.current.isSome = false := ho ▸ rfl
  split
  · exact .pure _
  · refine Brings.bind (.set ho) fun _ => ?_
    simp only [hnone, Bool.false_eq_true, if_false]
    split
    · exact .pure _
    · exact Brings.bind (.set ho) fun _ => .pure _

theorem tracks : Output.Tracks Listing Listing.tracker fun _ => True where
  start size _ := start_brings size
  refuse _ h := absurd trivial h
  print size printed token :=
    (track_brings (·.addToken token) (addToken_current size printed token)).bind fun _ =>
      .modify fun _ => rfl
  finish := finish_brings
  reference num := by
    refine (start_brings 4).bind fun _ => Brings.bind (.modify ?_) fun _ =>
      (track_brings (·.add 4) rfl).bind fun _ => finish_brings 4
    exact fun _ => rfl
  close := close_brings

end Listing

namespace Container

theorem put_brings (bytes : List UInt8) (t : Tracker) : Brings tracker (put bytes) t t := by
  refine .modify fun o => ?_
  split <;> rfl

theorem track_brings (f : Tracker → Except Fault Tracker) {t t' : Tracker} (h : f t = .ok t') :
    Brings tracker (track f) t t' := .updated (fun _ => rfl) h

theorem print_brings (size : Int) (printed : Nat) (token : Token) :
    Brings tracker (print token) ⟨some (size, printed)⟩ ⟨some (size, printed + token.bytes.length)⟩ :=
  (track_brings (·.addToken token) (addToken_current size printed token)).bind fun _ => by
    cases token with
    | lineEnd => exact .pure _
    | _ => exact put_brings _ _

theorem finish_brings (printed : Nat) : Brings tracker finish ⟨some ((printed : Int), printed)⟩ {} :=
  (track_brings (·.finish) (finish_exact printed)).bind fun _ => .modify fun _ => rfl

theorem close_brings : Brings tracker close {} {} := by
  refine .get fun o ho => ?_
  have hnone : o.tracker.current.isSome = false := ho ▸ rfl
  split
  · exact .pure _
  · refine Brings.bind (.set ho) fun _ => ?_
    simp only [hnone, Bool.false_eq_true, if_false]
    refine (put_brings _ _).bind fun _ => .get fun o' ho' => ?_
    split
    · exact .pure _
    · exact Brings.bind (.set ho') fun _ => .pure _

theorem tracks : Output.Tracks Container tracker fun n => 0 < n ∧ n ≤ 0xFFFF where
  start size h := by
    have hsize : (decide (size ≤ 0) || decide (0xFFFF < size)) = false := by
      grind
    show Brings tracker (start size) _ _
    unfold start
    simp only [hsize, Bool.false_eq_true, if_false]
    exact (track_brings (·.start size) (start_none size)).bind fun _ => (put_brings _ _).bind fun _ => put_brings _ _
  refuse size h o := by
    have hsize : (decide (size ≤ 0) || decide (0xFFFF < size)) = true := by
      simp only [Bool.or_eq_true, decide_eq_true_eq]
      omega
    refine ⟨o, ?_⟩
    show start size o = _
    unfold start
    simp only [hsize]
    rfl
  print := print_brings
  finish := finish_brings
  reference num := by
    have hprint : Brings tracker (print (Token.dwordOf num)) ⟨some (4, 0)⟩ ⟨some (4, 4)⟩ := print_brings 4 0 _
    exact (track_brings (·.start 4) (start_none 4)).bind fun _ => (put_brings _ _).bind fun _ =>
      (put_brings _ _).bind fun _ => hprint.bind fun _ => finish_brings 4
  close := close_brings

end Container

end Grf
