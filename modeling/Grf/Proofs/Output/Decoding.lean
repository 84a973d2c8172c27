import Grf.Proofs.Compilation
import Grf.Proofs.Output.Delivery
import Grf.Proofs.Output.Sprites
import Grf.Proofs.Record.Numbers

/-! # Reading a container

A container is a sequence of frames: the size of the data as a word, an info byte and the data. `Container.decode` reads
frames until a size of zero, and what it reads of a container that was written are the sprites of its records
(`container_decodes`). Each step of the writing adds its own bytes to the sink (`Puts`), so a frame is what its
parts add.
-/

namespace Grf

open List Token Record

namespace Container

variable {o o' : Container} {records : List Record} {e : Option Error}

/-! ## Frames -/

abbrev Frame := UInt8 × List UInt8

def frameOf : OutputSprite → Frame
  | .pseudo bytes => (pseudoInfo, bytes)
  | .reference num => (referenceInfo, (Token.dwordOf num).bytes)

/-- The bytes of a frame: the size of the data, the info byte and the data. -/
def frameBytes (f : Frame) : List UInt8 := (Token.wordOf f.2.length).bytes ++ f.1 :: f.2

/-- A frame whose size can be told from the end of the sequence, and fits in a word. -/
def Fits (f : Frame) : Prop := 0 < f.2.length ∧ f.2.length ≤ 0xFFFF

/-- Reads frames until a size of zero. What follows it is given back. -/
def decode (bytes : List UInt8) : Option (List Frame × List UInt8) :=
  if bytes.length < 2 then none
  else
    let size := littleEndian (bytes.take 2)
    if size = 0 then some ([], bytes.drop 2)
    else if bytes.length < 3 + size then none
    else (decode (bytes.drop (3 + size))).map
      (Prod.map (((bytes.drop 2).headD 0, (bytes.drop 3).take size) :: ·) id)
termination_by bytes.length
decreasing_by simp only [List.length_drop]; omega

theorem decode_frame {f : Frame} (hf : Fits f) (rest : List UInt8) :
    decode (frameBytes f ++ rest) = (decode rest).map (Prod.map (f :: ·) id) := by
  obtain ⟨info, data⟩ := f
  obtain ⟨hpos, hword⟩ := hf
  dsimp only at hpos hword
  have hbytes : frameBytes (info, data) ++ rest = (wordOf data.length).bytes ++ info :: (data ++ rest) := by
    unfold frameBytes
    rw [append_assoc, cons_append]
  have htake : ((wordOf data.length).bytes ++ info :: (data ++ rest)).take 2 =
      (wordOf data.length).bytes := take_left' (length_wordOf _)
  have hsize : littleEndian (((wordOf data.length).bytes ++ info :: (data ++ rest)).take 2) = data.length := by
    rw [htake, littleEndian_wordOf, residue_natCast]
    exact Nat.mod_eq_of_lt (Nat.lt_succ_of_le hword)
  have hlength : ((wordOf data.length).bytes ++ info :: (data ++ rest)).length = 3 + data.length + rest.length := by
    grind
  have hdrop : ((wordOf data.length).bytes ++ info :: (data ++ rest)).drop 2 = info :: (data ++ rest) :=
    drop_left' (length_wordOf _)
  have hdrop₃ : ((wordOf data.length).bytes ++ info :: (data ++ rest)).drop 3 = data ++ rest := by
    rfl
  -- The size is no end mark, and the data are all there.
  rw [hbytes, decode, if_neg (by omega), hsize]
  rw [if_neg (by omega), if_neg (by omega), ← drop_drop, hdrop₃, hdrop, drop_left, take_left]
  rfl

theorem decode_trailer : decode trailer = some ([], List.replicate 4 0) := by
  rw [decode, if_neg (by decide)]
  rfl

/-- **Frames are read back**, and what is left are the last four bytes of the trailer. -/
theorem decode_frames {frames : List Frame} (h : ∀ f ∈ frames, Fits f) :
    decode (frames.flatMap frameBytes ++ trailer) = some (frames, List.replicate 4 0) := by
  induction frames with
  | nil => exact decode_trailer
  | cons f frames ih =>
    simp_all [decode_frame]

/-! ## What is written -/

def channel (o : Container) : Channel := ⟨o.sink, o.error, o.closed⟩

/-- The computation adds `bytes` to what was written, if it succeeds. -/
def Puts {α : Type} (m : Writing Container α) (bytes : List UInt8) : Prop :=
  ∀ o a o', m o = .ok a o' → o.channel.Sound → o.channel.Takes bytes o'.channel

namespace Puts

variable {α β : Type} {m : Writing Container α} {f : α → Writing Container β} {bytes bytes' : List UInt8}

theorem bind (hm : Puts m bytes) (hf : ∀ a, Puts (f a) bytes') : Puts (m >>= f) (bytes ++ bytes') := by
  intro o b o' h ho
  obtain ⟨a, o₁, hfirst, hrest⟩ := bind_eq_ok.mp h
  have htakes := hm o a o₁ hfirst ho
  exact htakes.trans (hf a o₁ b o' hrest htakes.sound)

theorem modify {g : Container → Container} (hg : ∀ o, (g o).channel = o.channel) :
    Puts (modify g : Writing Container PUnit) [] := by
  intro o u o' h ho
  obtain rfl := modify_eq_ok.mp h
  rw [hg]
  exact .refl ho

end Puts

/-- The container after a write. -/
def written (o : Container) (bytes : List UInt8) : Container :=
  if o.error.isSome then o
  else
    let sink := o.sink.write bytes
    { o with sink, error := if sink.failed then some Sink.full else none }

theorem channel_written (o : Container) (bytes : List UInt8) :
    (o.written bytes).channel = o.channel.after (o.sink.write bytes) := by
  unfold written Channel.after channel
  split <;> rfl

theorem put_puts (bytes : List UInt8) : Puts (put bytes) bytes := by
  rintro o u _ ⟨⟩ ho
  show o.channel.Takes bytes (o.written bytes).channel
  rw [channel_written]
  exact Channel.after_takes ho (Sink.write_takes _ _)

theorem track_puts (f : Tracker → Except Fault Tracker) : Puts (track f) [] := by
  intro o u o' h ho
  obtain ⟨t, -, rfl⟩ := Writing.updated_eq_ok.mp h
  exact .refl ho

theorem start_puts (size : Int) : Puts (start size) ((wordOf size).bytes ++ [pseudoInfo]) := by
  unfold start
  split
  · rintro o u o' ⟨⟩
  · exact (track_puts _).bind fun _ => (put_puts _).bind fun _ => put_puts _

theorem print_puts (token : Token) : Puts (print token) token.bytes := by
  refine (track_puts _).bind fun _ => ?_
  cases token with
  | lineEnd comment =>
    rintro o u o' ⟨⟩ ho
    exact .refl ho
  | _ => exact put_puts _

theorem printAll_puts (tokens : List Token) : Puts (tokens.forM print) (bytesOfAll tokens) := by
  induction tokens with
  | nil =>
    rintro o u o' ⟨⟩ ho
    exact .refl ho
  | cons token tokens ih =>
    exact (print_puts token).bind fun _ => ih

theorem finish_puts : Puts finish [] := (track_puts _).bind fun _ => .modify fun _ => rfl

theorem pseudo_puts {n : Int} {tokens : List Token} (hn : (bytesOfAll tokens).length = n) :
    Puts (Output.pseudo n (.ok tokens)) (frameBytes (pseudoInfo, bytesOfAll tokens)) := by
  intro o u o' h ho
  obtain ⟨tokens', o₁, o₂, ⟨⟩, hstart, hprint, hfinish⟩ := Output.pseudo_eq_ok.mp h
  have hhead := start_puts n o () o₁ hstart ho
  have hdata := hhead.trans (printAll_puts tokens o₁ () o₂ hprint hhead.sound)
  have hall := hdata.trans (finish_puts o₂ u o' hfinish hdata.sound)
  rw [← hn, append_nil, append_assoc] at hall
  exact hall

theorem reference_puts (num : Int) : Puts (reference num) (frameBytes (referenceInfo, (dwordOf num).bytes)) := by
  have hall := (track_puts (·.start 4)).bind fun _ => (put_puts (wordOf 4).bytes).bind fun _ =>
    (put_puts [referenceInfo]).bind fun _ => (print_puts (dwordOf num)).bind fun _ => finish_puts
  exact hall

/-- **A record is written as the frame of its sprite.** -/
theorem write_takes {r : Record} (h : r.write o = .ok () o') :
    ∃ c, r.content? = some c ∧ (o.tracker = {} → o.channel.Sound →
      Fits (frameOf c.sprite) ∧ o.channel.Takes (frameBytes (frameOf c.sprite)) o'.channel) := by
  rcases write_eq_ok h with ⟨num, hcontent, hwrite⟩ | ⟨n, tokens, hsize, htokens, hcontent, hwrite⟩
  · exact ⟨_, hcontent, fun _ ho => ⟨⟨(by decide : 0 < 4), (by decide : 4 ≤ 0xFFFF)⟩,
      reference_puts num o () o' hwrite ho⟩⟩
  · refine ⟨_, hcontent, fun htracker ho => ?_⟩
    obtain ⟨⟨hpos, hword⟩, tokens', htokens', hlength⟩ := checks.writable_of_write htracker h n hsize
    cases htokens.symm.trans htokens'
    refine ⟨⟨?_, ?_⟩, pseudo_puts hlength o () o' hwrite ho⟩
    · show 0 < (bytesOfAll tokens).length
      omega
    · show (bytesOfAll tokens).length ≤ 0xFFFF
      omega

/-- The frames of contents are what takes one container to the next. -/
structure Runs (contents : List OutputContent) (o o' : Container) : Prop where
  tracker : o'.tracker = {}
  fits : ∀ c ∈ contents, Fits (frameOf c.sprite)
  takes : o.channel.Takes (contents.flatMap fun c => frameBytes (frameOf c.sprite)) o'.channel

/-- **The records are written as the frames of their sprites.** -/
theorem forM_runs (htracker : o.tracker = {}) (ho : o.channel.Sound) (h : records.forM write o = .ok () o') :
    ∃ contents : List OutputContent, records.map content? = contents.map some ∧ Runs contents o o' := by
  obtain ⟨contents, hcontents, hruns⟩ := forM_run (R := fun (contents : List OutputContent) (o o' : Container) =>
      o.tracker = {} → o.channel.Sound → Runs contents o o')
    (fun o htracker ho => ⟨htracker, fun _ hc => absurd hc not_mem_nil, .refl ho⟩)
    (fun hhead htail htracker ho => by
      have hruns₁ := hhead htracker ho
      have hruns₂ := htail hruns₁.tracker hruns₁.takes.sound
      refine ⟨hruns₂.tracker, forall_mem_cons.mpr ⟨hruns₁.fits _ mem_cons_self, hruns₂.fits⟩, ?_⟩
      have hall := hruns₁.takes.trans hruns₂.takes
      rwa [← flatMap_append] at hall)
    (fun hr => by
      obtain ⟨c, hc, htakes⟩ := write_takes hr
      refine ⟨c, hc, fun htracker ho => ?_⟩
      obtain ⟨hfits, htakes⟩ := htakes htracker ho
      refine ⟨checks.write_tracker htracker hr, ?_, ?_⟩
      · intro c' hc'
        rwa [mem_singleton.mp hc']
      · rwa [flatMap_singleton]) h
  exact ⟨contents, hcontents, hruns htracker ho⟩

/-- The container when the trailer is written. -/
def ended (o : Container) : Container := written { o with closed := true } trailer

theorem close_of_open (hclosed : o.closed = false) (htracker : o.tracker = {}) :
    close o = .ok o.ended.channel.finish.1 { o.ended with sink := o.ended.channel.finish.2 } := by
  have hflush (o : Container) : (do
      let o ← get
      if o.error.isSome then return o.error
      let sink := o.sink.flush
      set { o with sink }
      return if sink.failed then some Sink.full else none : Writing Container (Option Error)) o =
      .ok o.channel.finish.1 { o with sink := o.channel.finish.2 } := by
    obtain ⟨sink, tracker, error, closed, spriteCount⟩ := o
    cases error <;> rfl
  obtain ⟨sink, tracker, error, closed, spriteCount⟩ := o
  cases hclosed
  cases htracker
  exact hflush _

theorem writeAll_delivers {limit : Option Nat} (h : writeAll records ({ sink := { limit } } : Container) = .ok e o)
    (hsink : limit = none ∨ o.sink.failed = false) :
    e = none ∧ ∃ contents : List OutputContent, records.map content? = contents.map some ∧
      (∀ c ∈ contents, Fits (frameOf c.sprite)) ∧
      o.sink.received.toList = (contents.flatMap fun c => frameBytes (frameOf c.sprite)) ++ trailer := by
  obtain ⟨⟨⟩, o₁, hforM, hclose⟩ := bind_eq_ok.mp h
  have hsound : ({ sink := { limit } } : Container).channel.Sound := nofun
  obtain ⟨contents, hcontents, hruns⟩ := forM_runs rfl hsound hforM
  cases (close_of_open hruns.takes.closed hruns.tracker).symm.trans hclose
  have htrailer := put_puts trailer { o₁ with closed := true } () o₁.ended rfl hruns.takes.sound
  have htakes := hruns.takes.sink.trans htrailer.sink
  have hfailed : o₁.ended.channel.finish.2.failed = false := by
    rcases hsink with rfl | hsink
    · exact Channel.finish_of_unlimited htakes.limit (htakes.unlimited rfl rfl)
    · exact hsink
  obtain ⟨he, hfailed₂, hreceived⟩ := Channel.finish_delivers htrailer.sound hfailed
  exact ⟨he, contents, hcontents, hruns.fits, hreceived.trans (htakes.contents hfailed₂).2⟩

end Container

/-! ## The records of a compilation -/

theorem compile_counted {id : String} {options : CompileOptions} {files : FileTree} {file : DeclarationFile}
    {comp : Compilation} (h : compile id options files file = .ok comp) :
    ∃ pos records, comp.records = Compilation.counted pos records := by
  obtain ⟨strings, sprites, -, -, hlower⟩ := compile_eq_ok h
  obtain ⟨head, c₁, -, hlower⟩ := bind_eq_ok.mp hlower
  obtain ⟨body, c₂, -, hfinalize⟩ := bind_eq_ok.mp hlower
  have hbecomes := Lowering.finalize_becomes hfinalize
  obtain ⟨first, rest, hfirst, hrest, hrecords⟩ := forall₂_cons_left_iff.mp hbecomes
  refine ⟨file.header.pos, rest, ?_⟩
  rw [hrecords, hfirst.detached trivial, hrest.length_eq]
  rfl

theorem first_counted {pos : Position} {records : List Record} {contents : List OutputContent}
    (h : (Compilation.counted pos records).map content? = contents.map some) :
    ∃ rest, contents.map OutputContent.sprite = .pseudo (dwordOf rest.length).bytes :: rest := by
  cases contents with
  | nil => cases h
  | cons c contents =>
    obtain ⟨hc, hrest⟩ := List.cons.inj h
    have hlength : records.length = contents.length := by
      have hlengths := congrArg List.length hrest
      rwa [length_map, length_map] at hlengths
    refine ⟨contents.map OutputContent.sprite, ?_⟩
    obtain rfl := Option.some.inj hc
    rw [map_cons, length_map, ← hlength]
    rfl

/-- **A container is read back as its records.** If the records are written to the end and the sink takes all of it,
reading the container gives the sprites that the recorder shows for the same records, one for each, and four zero
bytes are left. The records of a compilation start with a sprite that holds the number of the others. -/
theorem container_decodes {records : List Record} {limit : Option Nat} {e : Option Error} {o : Container}
    (h : writeAll records ({ sink := { limit } } : Container) = .ok e o)
    (hsink : limit = none ∨ o.sink.failed = false) :
    e = none ∧ ∃ r : Recorder, writeAll records ({} : Recorder) = .ok none r ∧
      r.entries.length = records.length ∧
      r.sprites.toList = r.entries.map Recorder.spriteBytes ∧
      Container.decode o.sink.received.toList =
        some (r.entries.map Container.frameOf, List.replicate 4 0) ∧
      ∀ id options files file comp, compile id options files file = .ok comp → comp.records = records →
        ∃ count rest, r.entries = .pseudo count :: rest ∧ count.length = 4 ∧
          littleEndian count = rest.length % 0x100000000 := by
  obtain ⟨he, contents, hcontents, hfits, hreceived⟩ := Container.writeAll_delivers h hsink
  -- What a container takes, the recorder takes too.
  have hwritable := (Container.checks.writeAll_ok_iff rfl).mp ⟨e, o, h⟩
  have hrecords : ∀ r ∈ records, r.Writable fun n => 0 ≤ n ∧ n ≤ Recorder.maxSize := by
    intro r hr n hsize
    obtain ⟨⟨hpos, hword⟩, hprints⟩ := hwritable r hr n hsize
    have hmax : (0xFFFF : Int) ≤ Recorder.maxSize := by decide
    exact ⟨⟨by omega, by omega⟩, hprints⟩
  obtain ⟨e', r, hrecord⟩ := (Recorder.checks.writeAll_ok_iff (o := {}) rfl).mpr hrecords
  obtain ⟨rfl, contents', hcontents', hshows⟩ := Recorder.writeAll_shows hrecord
  have hsame : contents' = contents :=
    (List.map_inj_right fun _ _ => Option.some.inj).mp (hcontents'.symm.trans hcontents)
  subst hsame
  refine ⟨he, r, hrecord, ?_, ?_, ?_, ?_⟩
  · have hlengths := congrArg List.length hcontents
    rw [List.length_map, List.length_map] at hlengths
    rw [hshows.entries_eq, List.length_map, hlengths]
  · rw [hshows.entries_eq, hshows.bytes]
  · rw [hreceived, hshows.entries_eq]
    have hframes : ∀ f ∈ contents'.map fun c => Container.frameOf c.sprite, Container.Fits f :=
      List.forall_mem_map.mpr hfits
    have hdecode := Container.decode_frames hframes
    rw [List.flatMap_map] at hdecode
    rw [hdecode, List.map_map]
    rfl
  · rintro id options files file comp hcompile rfl
    obtain ⟨pos, rest, hcounted⟩ := compile_counted hcompile
    rw [hcounted] at hcontents
    obtain ⟨rest, hfirst⟩ := first_counted hcontents
    exact ⟨_, rest, hshows.entries_eq.trans hfirst, rfl, (littleEndian_dwordOf _).trans (residue_natCast _)⟩

/-- A count, a jump target and a reference to a sprite with a large number, in a sink with just enough room. -/
theorem container_decodes_mixed :
    ∃ o, writeAll [⟨{}, .spriteCount 2⟩, ⟨{}, .jumpTarget 0x80⟩, ⟨{}, .realSprite "a.png" 0x1FFFFFFFE⟩]
        ({ sink := { limit := some 25 } } : Container) = .ok none o ∧ o.sink.failed = false ∧
      Container.decode o.sink.received.toList =
        some ([(0xFF, [2, 0, 0, 0]), (0xFF, [0x10, 0x80]), (0xFD, [0xFE, 0xFF, 0xFF, 0xFF])], [0, 0, 0, 0]) := by
  obtain ⟨e, o, hwrite, hfailed⟩ := Writing.eq_ok_of_succeeds
    (by decide +kernel : Writing.succeeds
      (writeAll [⟨{}, .spriteCount 2⟩, ⟨{}, .jumpTarget 0x80⟩, ⟨{}, .realSprite "a.png" 0x1FFFFFFFE⟩])
      ({ sink := { limit := some 25 } } : Container) (fun _ o => !o.sink.failed) = true)
  obtain ⟨e', r, hrecord, hentries⟩ := Writing.eq_ok_of_succeeds
    (by decide +kernel : Writing.succeeds
      (writeAll [⟨{}, .spriteCount 2⟩, ⟨{}, .jumpTarget 0x80⟩, ⟨{}, .realSprite "a.png" 0x1FFFFFFFE⟩])
      ({} : Recorder) (fun _ r => r.entries.map Container.frameOf =
        [(0xFF, [2, 0, 0, 0]), (0xFF, [0x10, 0x80]), (0xFD, [0xFE, 0xFF, 0xFF, 0xFF])]) = true)
  rw [Bool.not_eq_true'] at hfailed
  obtain ⟨rfl, r', hrecord', -, -, hdecode, -⟩ := container_decodes hwrite (.inr hfailed)
  cases hrecord.symm.trans hrecord'
  exact ⟨o, hwrite, hfailed, by rw [hdecode, of_decide_eq_true hentries]; rfl⟩

end Grf
