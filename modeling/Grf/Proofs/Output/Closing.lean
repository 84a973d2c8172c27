import Grf.Proofs.Output.Decoding
import Grf.Proofs.Output.Listed

/-! # What closing an output tells

What an output writes is told by its operations, whatever its sink does (`emitted`). A beginning of it has been
delivered, and all of it if the first `close` reports no error. A later one repeats the error of a failed write, but
knows nothing of a last flush that failed (`close_reports`, `close_forgets`).
-/

namespace Grf

open List Text Token

/-- How a channel is closed, which writes `bytes` the first time. -/
inductive Channel.Closes (c : Channel) : List UInt8 → Option Error → Channel → Prop
  | again (hclosed : c.closed = true) : c.Closes [] c.error c
  | first {bytes : List UInt8} {c₁ : Channel} (hopen : c.closed = false)
      (htakes : { c with closed := true }.Takes bytes c₁) : c.Closes bytes c₁.finish.1 { c₁ with sink := c₁.finish.2 }

namespace Channel.Closes

variable {c c' : Channel} {bytes written : List UInt8} {e : Option Error}

theorem writes (h : c.Closes bytes e c') (hc : c.Sound) : c.Writes bytes c' := by
  cases h with
  | again => exact ⟨hc, .refl _, fun _ => rfl⟩
  | @first _ c₁ _ htakes =>
    unfold finish
    split
    · exact ⟨htakes.sound, htakes.sink, htakes.error⟩
    · next herror =>
      have hflush := htakes.sink.trans (Sink.flush_takes _)
      rw [append_nil] at hflush
      exact ⟨fun h => absurd h herror, hflush, htakes.error⟩

theorem error (h : c.Closes bytes e c') (herror : c.error.isSome = true) : e = c.error := by
  cases h with
  | again => rfl
  | first _ htakes =>
    have hkept := htakes.error herror
    unfold finish
    rw [if_pos (hkept ▸ herror)]
    exact hkept

theorem received (h : c.Closes bytes e c') (hopen : c.closed = false) (hnone : e = none)
    (hwritten : c.sink.Holds written) : c'.sink.received.toList = written ++ bytes := by
  cases h with
  | again hclosed => cases hopen.symm.trans hclosed
  | first _ htakes =>
    obtain ⟨-, hs, hreceived⟩ := finish_delivers htakes.sound (finish_of_none hnone)
    exact hreceived.trans ((htakes.sink.holds hwritten).all hs).symm

theorem again_error (h : c.Closes bytes e c') (hclosed : c.closed = true) : e = c.error := by
  cases h with
  | again => rfl
  | first hopen => cases hopen.symm.trans hclosed

end Channel.Closes

namespace Output

inductive Operation
  | start (size : Int)
  | print (token : Token)
  | finish
  | reference (num : Int)
  | close

variable {σ κ : Type} [Output σ]

def Operation.perform : Operation → Writing σ PUnit
  | start size => Output.start size
  | print token => Output.print token
  | finish => Output.finish
  | reference num => Output.reference num
  | close => do let _ ← Output.close

def run (ops : List Operation) : Writing σ PUnit := ops.forM Operation.perform

/-- What is written by operations, each of which goes on from the state that the one before has left. -/
def emitted (emits : κ → Operation → List UInt8 × κ) (init : List UInt8 × κ) (ops : List Operation) : List UInt8 × κ :=
  ops.foldl (fun (written, k) op => (written ++ (emits k op).1, (emits k op).2)) init

/-- An output of which `emits` tells what the operations write. -/
structure Emits (σ : Type) [Output σ] (channel : σ → Channel) (state : σ → κ)
    (emits : κ → Operation → List UInt8 × κ) : Prop where
  writes : ∀ op o o', (channel o).Sound → op.perform o = .ok ⟨⟩ o' →
    (channel o).Writes (emits (state o) op).1 (channel o') ∧ state o' = (emits (state o) op).2
  closes : ∀ o e o', (channel o).Sound → Output.close o = .ok e o' →
    (channel o).Closes (emits (state o) .close).1 e (channel o')

/-- What is reported whenever an output is closed that writes `full`. -/
def Reports (channel : σ → Channel) (full : List Operation → List UInt8) (start : σ) : Prop :=
  ∀ ops o e o', run ops start = .ok ⟨⟩ o → Output.close o = .ok e o' →
    (channel o').sink.received.toList <+: full (ops ++ [.close]) ∧
      ((channel o).closed = false → e = none → (channel o').sink.received.toList = full (ops ++ [.close])) ∧
      ((channel o).closed = true → e = (channel o).error) ∧
      ((channel o).error.isSome = true → ∀ more o₁ e₁ o₂, run more o = .ok ⟨⟩ o₁ → Output.close o₁ = .ok e₁ o₂ →
        e₁ = (channel o).error)

namespace Emits

variable {channel : σ → Channel} {state : σ → κ} {emits : κ → Operation → List UInt8 × κ} {o o' : σ}
  {ops : List Operation} {written : List UInt8} {k : κ}

theorem runs (h : Emits σ channel state emits) (ho : (channel o).Sound) (hwritten : (channel o).sink.Holds written)
    (hstate : state o = k) (hrun : run ops o = .ok ⟨⟩ o') :
    (channel o').Sound ∧ (channel o').sink.Holds (emitted emits (written, k) ops).1 ∧
      state o' = (emitted emits (written, k) ops).2 ∧ ((channel o).error.isSome = true → (channel o').error = (channel o).error) := by
  induction ops generalizing o written k with
  | nil =>
    cases hrun
    exact ⟨ho, hwritten, hstate, fun _ => rfl⟩
  | cons op ops ih =>
    obtain ⟨⟨⟩, o₁, hop, hrest⟩ := bind_eq_ok.mp hrun
    obtain ⟨hwrites, hnext⟩ := h.writes op o o₁ ho hop
    rw [hstate] at hwrites hnext
    obtain ⟨ho', hwritten', hstate', hkept'⟩ := ih hwrites.sound (hwrites.sink.holds hwritten) hnext hrest
    refine ⟨ho', hwritten', hstate', fun herror => ?_⟩
    have hkept := hwrites.error herror
    exact (hkept' (hkept ▸ herror)).trans hkept

theorem reports (h : Emits σ channel state emits) (ho : (channel o).Sound) (hwritten : (channel o).sink.Holds written)
    (hstate : state o = k) : Reports channel (fun ops => (emitted emits (written, k) ops).1) o := by
  intro ops o₁ e o₂ hrun hclose
  obtain ⟨ho₁, hwritten₁, hstate₁, -⟩ := h.runs ho hwritten hstate hrun
  have hcloses := h.closes o₁ e o₂ ho₁ hclose
  have hfull : (emitted emits (written, k) (ops ++ [.close])).1 = (emitted emits (written, k) ops).1 ++ (emits (state o₁) .close).1 := by
    rw [hstate₁]
    unfold emitted
    rw [foldl_append]
    rfl
  beta_reduce
  rw [hfull]
  refine ⟨((hcloses.writes ho₁).sink.holds hwritten₁).begins, fun hopen hnone => hcloses.received hopen hnone hwritten₁,
    hcloses.again_error, fun herror more o₃ e₃ o₄ hmore hclose₃ => ?_⟩
  obtain ⟨ho₃, -, -, hkept⟩ := h.runs ho₁ hwritten₁ hstate₁ hmore
  have hsame := hkept herror
  exact ((h.closes o₃ e₃ o₄ ho₃ hclose₃).error (hsame ▸ herror)).trans hsame

end Emits

end Output

open Output

/-- What an operation on a container writes. The trailer is written once. -/
def Container.emits (closed : Bool) : Operation → List UInt8 × Bool
  | .start size => ((wordOf size).bytes ++ [pseudoInfo], closed)
  | .print token => (token.bytes, closed)
  | .finish => ([], closed)
  | .reference num => (frameBytes (referenceInfo, (dwordOf num).bytes), closed)
  | .close => (if closed then [] else trailer, true)

theorem Container.emits_spec : Emits Container channel closed emits := by
  have hcloses (o : Container) (e : Option Error) (o' : Container) (ho : o.channel.Sound) (h : close o = .ok e o') :
      o.channel.Closes (emits o.closed .close).1 e o'.channel ∧ o'.closed = true := by
    obtain ⟨sink, ⟨_ | sprite⟩, error, _ | _, spriteCount⟩ := o
    · cases (close_of_open rfl rfl).symm.trans h
      have htakes := put_puts trailer ⟨sink, {}, error, true, spriteCount⟩ () _ rfl ho
      exact ⟨.first rfl htakes, htakes.closed⟩
    · cases h
      exact ⟨.again rfl, rfl⟩
    · cases h
    · cases h
      exact ⟨.again rfl, rfl⟩
  refine ⟨fun op o o' ho h => ?_, fun o e o' ho h => (hcloses o e o' ho h).1⟩
  have hputs {bytes : List UInt8} (h : o.channel.Takes bytes o'.channel) :
      o.channel.Writes bytes o'.channel ∧ o'.closed = o.closed := ⟨h.toWrites, h.closed⟩
  cases op with
  | start size => exact hputs (start_puts size o _ o' h ho)
  | print token => exact hputs (print_puts token o _ o' h ho)
  | finish => exact hputs (finish_puts o _ o' h ho)
  | reference num => exact hputs (reference_puts num o _ o' h ho)
  | close =>
    obtain ⟨e, _, hclose, ⟨⟩⟩ := bind_eq_ok.mp h
    exact (hcloses o e o' ho hclose).imp_left fun h => h.writes ho

/-- What an operation on a listing writes after a line that was begun. -/
def Listing.emits (line : String) : Operation → List UInt8 × String
  | .start _ => ([], "-1 * 0\t")
  | .print token => ([], line ++ tokenText token)
  | .finish => (bytesOf line ++ [0x0A], "")
  | .reference num => (contentBytes (.reference num) ++ [0x0A], "")
  | .close => ([], line)

theorem Listing.finish_line {o o' : Listing} {u : Unit} (h : finish o = .ok u o') : o'.line = "" := by
  obtain ⟨t, -, rfl⟩ := Writing.tracked_eq_ok.mp h
  rfl

theorem Listing.emits_spec : Emits Listing channel line emits := by
  have hcloses (o : Listing) (e : Option Error) (o' : Listing) (ho : o.channel.Sound) (h : close o = .ok e o') :
      o.channel.Closes [] e o'.channel ∧ o'.line = o.line := by
    obtain ⟨sink, ⟨_ | sprite⟩, error, _ | _, line⟩ := o
    · cases (close_of_open rfl rfl).symm.trans h
      exact ⟨.first rfl (.refl ho), rfl⟩
    · cases h
      exact ⟨.again rfl, rfl⟩
    · cases h
    · cases h
      exact ⟨.again rfl, rfl⟩
  refine ⟨fun op o o' ho h => ?_, fun o e o' ho h => (hcloses o e o' ho h).1⟩
  cases op with
  | start size =>
    obtain ⟨t, rfl⟩ := start_eq_ok h
    exact ⟨⟨ho, .refl _, fun _ => rfl⟩, rfl⟩
  | print token =>
    obtain ⟨t, -, rfl⟩ := Writing.tracked_eq_ok.mp h
    exact ⟨⟨ho, .refl _, fun _ => rfl⟩, rfl⟩
  | finish => exact ⟨(finish_takes h ho).toWrites, finish_line h⟩
  | reference num =>
    obtain ⟨⟨⟩, o₁, -, hrest⟩ := bind_eq_ok.mp h
    obtain ⟨⟨⟩, o₂, -, hfinish⟩ := bind_eq_ok.mp (modify_bind_eq_ok.mp hrest)
    exact ⟨(reference_takes h ho).toWrites, finish_line hfinish⟩
  | close =>
    obtain ⟨e, _, hclose, ⟨⟩⟩ := bind_eq_ok.mp h
    exact (hcloses o e o' ho hclose).imp_left fun h => h.writes ho

/-- **What is reported when an output is closed.** Whatever was done before, with a sink that fails at any byte and
may take the bytes of a write up to this one, a beginning of the full output was delivered, and all of it if the first
`close` reports no error. A later one reports the error of a failed write. Once known, it is reported by all of them. -/
theorem close_reports (limit : Option Nat) (takesPart : Bool) :
    let sink : Sink := { limit, takesPart }
    Reports Container.channel (fun ops => (emitted Container.emits ([], false) ops).1) { sink } ∧
      ∀ source, Reports Listing.channel (fun ops => (emitted Listing.emits (Listing.headBytes source, "") ops).1)
        (Listing.createOn sink source) := by
  intro sink
  have hempty : sink.Holds [] := ⟨prefix_rfl, fun _ => rfl⟩
  refine ⟨Container.emits_spec.reports nofun hempty rfl, fun source => ?_⟩
  have hcreate := Listing.createOn_takes sink source
  have hput (o : Listing) (text : String) : (o.put text).line = o.line := by
    unfold Listing.put
    split <;> rfl
  have hline : (Listing.createOn sink source).line = "" := by
    unfold Listing.createOn
    split <;> simp only [hput]
  exact Listing.emits_spec.reports hcreate.sound (hcreate.sink.holds hempty) hline

/-- The trailer does not fit. The first `close` reports this, the second one reports nothing. -/
theorem close_forgets : ∃ o : Container, Container.close { sink := { limit := some 0 } } = .ok (some Sink.full) o ∧
    Container.close o = .ok none o ∧ o.sink.received.toList ≠ (emitted Container.emits ([], false) [.close, .close]).1 :=
  ⟨_, rfl, rfl, by decide⟩

end Grf
