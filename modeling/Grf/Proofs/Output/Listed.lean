import Grf.Proofs.Compilation
import Grf.Proofs.Output.Delivery
import Grf.Proofs.Output.Reading

/-! # What a listing shows

A listing holds its head and the text of each record (`writeAll_listed`). It is read back as the sprites that the recorder
shows for the same records, unless the name of the source, of a decision table or of a sprite group has further lines
that stand for bytes or sprites (`listing_reads_iff`).
-/

namespace Grf

open List Text Record

namespace Listing

variable {o o' : Listing} {u : Unit} {tokens : List Token} {records : List Record} {e : Option Error}

def channel (o : Listing) : Channel := ⟨o.sink, o.error, o.closed⟩

theorem channel_put (o : Listing) (text : String) : (o.put text).channel = o.channel.after (o.sink.writeText text) := by
  unfold put Channel.after channel
  split <;> rfl

theorem put_takes (ho : o.channel.Sound) (text : String) : o.channel.Takes (bytesOf text) (o.put text).channel := by
  rw [channel_put]
  exact Channel.after_takes ho (Sink.writeText_takes _ _)

/-! ## Sprites -/

theorem start_eq_ok {size : Int} (h : start size o = .ok u o') :
    ∃ t, o' = { o with tracker := t, line := "-1 * 0\t" } :=
  (Writing.tracked_eq_ok.mp h).imp fun _ ht => ht.2

theorem printAll_line (h : tokens.forM print o = .ok u o') :
    o'.channel = o.channel ∧ bytesOf o'.line = bytesOf o.line ++ tokens.flatMap fun t => bytesOf (tokenText t) := by
  induction tokens generalizing o with
  | nil =>
    cases h
    exact ⟨rfl, (append_nil _).symm⟩
  | cons token tokens ih =>
    obtain ⟨⟨⟩, o₁, hprint, hrest⟩ := bind_eq_ok.mp h
    obtain ⟨t, -, rfl⟩ := Writing.tracked_eq_ok.mp hprint
    obtain ⟨hchannel, hline⟩ := ih hrest
    refine ⟨hchannel, ?_⟩
    simp_all

theorem finish_takes (h : finish o = .ok u o') (ho : o.channel.Sound) :
    o.channel.Takes (bytesOf o.line ++ [0x0A]) o'.channel := by
  have hbreak : bytesOf "\n" = [0x0A] := (bytesOf_eq_flatMap _).trans rfl
  obtain ⟨t, -, rfl⟩ := Writing.tracked_eq_ok.mp h
  have hsound : ({ o with tracker := t } : Listing).channel.Sound := ho
  have hline := put_takes hsound o.line
  have hend := put_takes hline.sound "\n"
  rw [hbreak] at hend
  exact hline.trans hend

theorem pseudo_takes {n : Int} (h : Output.pseudo n (.ok tokens) o = .ok u o') (ho : o.channel.Sound) :
    o.channel.Takes (contentBytes (.pseudo tokens) ++ [0x0A]) o'.channel := by
  obtain ⟨tokens', o₁, o₂, ⟨⟩, hstart, hprint, hfinish⟩ := Output.pseudo_eq_ok.mp h
  obtain ⟨t, rfl⟩ := start_eq_ok hstart
  obtain ⟨hchannel, hline⟩ := printAll_line hprint
  have htakes := finish_takes hfinish (hchannel ▸ ho)
  rw [hline, hchannel] at htakes
  exact htakes

theorem reference_takes {num : Int} (h : reference num o = .ok u o') (ho : o.channel.Sound) :
    o.channel.Takes (contentBytes (.reference num) ++ [0x0A]) o'.channel := by
  obtain ⟨⟨⟩, o₁, hstart, h⟩ := bind_eq_ok.mp h
  obtain ⟨t, rfl⟩ := start_eq_ok hstart
  replace h := modify_bind_eq_ok.mp h
  obtain ⟨⟨⟩, o₃, htrack, hfinish⟩ := bind_eq_ok.mp h
  obtain ⟨t₃, -, rfl⟩ := Writing.updated_eq_ok.mp htrack
  exact finish_takes hfinish ho

/-- **The records are written as the text of their sprites.** -/
theorem forM_takes (ho : o.channel.Sound) (h : records.forM write o = .ok () o') :
    ∃ contents : List OutputContent, records.map content? = contents.map some ∧
      o.channel.Takes (contents.flatMap fun c => contentBytes c ++ [0x0A]) o'.channel := by
  obtain ⟨contents, hcontents, htakes⟩ := forM_run
    (R := fun (contents : List OutputContent) (o o' : Listing) => o.channel.Sound →
      o.channel.Takes (contents.flatMap fun c => contentBytes c ++ [0x0A]) o'.channel) (fun o ho => .refl ho)
    (fun hhead htail ho => by
      have htakes := hhead ho
      grind [htakes.trans, htakes.sound])
    (fun hr => by
      rcases write_eq_ok hr with ⟨num, hcontent, hwrite⟩ | ⟨n, tokens, -, -, hcontent, hwrite⟩
      · refine ⟨_, hcontent, fun ho => ?_⟩
        rw [flatMap_singleton]
        exact reference_takes hwrite ho
      grind [pseudo_takes]) h
  exact ⟨contents, hcontents, htakes ho⟩

theorem createOn_takes (sink : Sink) (source : String) :
    (⟨sink, none, false⟩ : Channel).Takes (headBytes source) (createOn sink source).channel := by
  have hbreak : bytesOf "\n" = [0x0A] := (bytesOf_eq_flatMap _).trans rfl
  have hsound : ({ sink } : Listing).channel.Sound := nofun
  have hfirst := put_takes hsound "// Automatically generated by grfc\n"
  unfold createOn headBytes sourceBytes
  split
  · have hformat := put_takes hfirst.sound "// Format: NFO version 32\n"
    rw [append_nil]
    exact hfirst.trans hformat
  · have hsource := put_takes hfirst.sound ("// Source: " ++ source ++ "\n")
    have hformat := put_takes hsource.sound "// Format: NFO version 32\n"
    rw [bytesOf_append, bytesOf_append, hbreak] at hsource
    exact (hfirst.trans hsource).trans hformat

theorem close_of_open (hclosed : o.closed = false) (htracker : o.tracker = {}) :
    close o = .ok o.channel.finish.1 { o with closed := true, sink := o.channel.finish.2 } := by
  obtain ⟨sink, tracker, error, closed, line⟩ := o
  cases hclosed
  cases htracker
  cases error <;> rfl

/-- **A listing holds the text of its records**, if no error is reported. A sink without a limit reports none. -/
theorem writeAll_listed {source : String} {limit : Option Nat} (h : writeAll records (create source limit) = .ok e o) :
    (limit = none → e = none) ∧ (e = none → ∃ contents : List OutputContent,
      records.map content? = contents.map some ∧ o.sink.received.toList = listingBytes source contents) := by
  obtain ⟨⟨⟩, o₁, hforM, hclose⟩ := bind_eq_ok.mp h
  have hcreate := createOn_takes { limit } source
  obtain ⟨contents, hcontents, hrecords⟩ := forM_takes hcreate.sound hforM
  have htracker := (checks.writable_of_forM (createOn_tracker { limit } source) hforM).2
  have htakes := hcreate.trans hrecords
  cases (close_of_open htakes.closed htracker).symm.trans hclose
  constructor
  · rintro rfl
    have hunlimited := Channel.finish_of_unlimited htakes.sink.limit (htakes.sink.unlimited rfl rfl)
    exact (Channel.finish_delivers htakes.sound hunlimited).1
  · intro hnone
    obtain ⟨-, hfailed₁, hreceived⟩ := Channel.finish_delivers htakes.sound (Channel.finish_of_none hnone)
    exact ⟨contents, hcontents, hreceived.trans (htakes.sink.contents hfailed₁).2⟩

theorem Inert.of_line {text : String} (h : 0x0A ∉ bytesOf text) : Inert text := by
  intro y hy
  grind [furtherReads, splitOn_eq_singleton]

theorem contentComments_silent_iff {r : Record} {c : OutputContent} (h : r.content? = some c) :
    (∀ y ∈ contentComments c, y = silent) ↔ ∀ name ∈ r.title?, Inert name := by
  cases hsize : r.size? with
  | none =>
    obtain ⟨pos, body⟩ := r
    cases body <;> cases hsize
    cases h
    exact ⟨fun _ _ hname => absurd hname (Option.not_mem_none _), fun _ _ hy => absurd hy not_mem_nil⟩
  | some n =>
    rw [content?_of_size? hsize] at h
    cases htokens : r.tokens with
    | error f =>
      rw [htokens] at h
      cases h
    | ok tokens =>
      rw [htokens] at h
      cases h
      show (∀ y ∈ (Token.comments tokens).flatMap _, y = silent) ↔ _
      rw [r.tokens_remarks tokens htokens]
      simp only [mem_flatMap, mem_filter, Option.mem_toList]
      constructor
      · intro hsilent name hname y hy
        by_cases hempty : name.isEmpty = true
        · rw [String.isEmpty_iff.mp hempty, bytesOf_empty] at hy
          exact absurd hy not_mem_nil
        · exact hsilent y ⟨name, ⟨hname, by simpa using hempty⟩, hy⟩
      · rintro hinert y ⟨name, ⟨hname, -⟩, hy⟩
        exact hinert name hname y hy

theorem comments_silent_iff {contents : List OutputContent} (h : records.map content? = contents.map some) :
    (∀ y ∈ contents.flatMap contentComments, y = silent) ↔ ∀ r ∈ records, ∀ name ∈ r.title?, Inert name := by
  induction records generalizing contents with
  | nil => simp_all
  | cons r records ih =>
    cases contents with
    | nil => cases h
    | cons c contents =>
      obtain ⟨hr, hrecords⟩ := List.cons.inj h
      rw [flatMap_cons, forall_mem_append, forall_mem_cons, contentComments_silent_iff hr, ih hrecords]

end Listing

namespace Compilation

theorem writeTo_eq_ok {σ : Type} [Output σ] {output output' : σ} {records : List Record} :
    writeTo output records = .ok output' ↔ writeAll records output = .ok none output' := by
  unfold writeTo
  split <;> simp_all

theorem received_eq_ok {σ β : Type} [Output σ] {output : σ} {records : List Record} {g : σ → β} {b : β} :
    (do return g (← writeTo output records)) = Except.ok b ↔ ∃ o, writeAll records output = .ok none o ∧ g o = b := by
  constructor
  · intro h
    obtain ⟨o, ho, hb⟩ := except_bind_eq_ok h
    exact ⟨o, writeTo_eq_ok.mp ho, Except.ok.inj hb⟩
  · rintro ⟨o, ho, rfl⟩
    rw [writeTo_eq_ok.mpr ho]
    rfl

theorem listing_eq_ok {comp : Compilation} {limit : Option Nat} {text : List UInt8} : comp.listing limit = .ok text ↔
      ∃ o, writeAll comp.records (Listing.create (Path.base comp.file.path) limit) = .ok none o ∧
        o.sink.received.toList = text :=
  received_eq_ok

theorem exists_listing_iff {comp : Compilation} :
    (∃ text, comp.listing none = .ok text) ↔ ∀ r ∈ comp.records, r.Writable fun _ => True := by
  rw [← Listing.checks.writeAll_ok_iff (Listing.createOn_tracker {} (Path.base comp.file.path))]
  constructor
  · rintro ⟨text, htext⟩
    obtain ⟨o, ho, -⟩ := listing_eq_ok.mp htext
    exact ⟨none, o, ho⟩
  · rintro ⟨e, o, ho⟩
    obtain rfl := (Listing.writeAll_listed ho).1 rfl
    exact ⟨_, listing_eq_ok.mpr ⟨o, ho, rfl⟩⟩

end Compilation

/-- **When a listing is read as the sprites of its records.** Records that can be recorded can be listed too. The listing
is read back as the sprites that the recorder shows if and only if every name in it is inert: that of the source, and those
of the decision tables and sprite groups. So it is if each name is a single line. -/
theorem listing_reads_iff (comp : Compilation) {e : Option Error} {r : Recorder}
    (h : writeAll comp.records ({} : Recorder) = .ok e r) :
    (∃ text, comp.listing none = .ok text) ∧ ∀ limit text, comp.listing limit = .ok text →
        (Listing.read text = some r.entries ↔ Listing.Inert (Path.base comp.file.path) ∧
            ∀ record ∈ comp.records, ∀ name ∈ record.title?, Listing.Inert name) ∧
        (0x0A ∉ Text.bytesOf (Path.base comp.file.path) →
          (∀ record ∈ comp.records, ∀ name ∈ record.title?, 0x0A ∉ Text.bytesOf name) →
          Listing.read text = some r.entries) := by
  constructor
  · have hrecords := (Recorder.checks.writeAll_ok_iff rfl).mp ⟨e, r, h⟩
    exact Compilation.exists_listing_iff.mpr fun record hrecord n hsize =>
      ⟨trivial, (hrecords record hrecord n hsize).2⟩
  · intro limit text htext
    obtain ⟨o, ho, rfl⟩ := Compilation.listing_eq_ok.mp htext
    obtain ⟨contents, hcontents, hreceived⟩ := (Listing.writeAll_listed ho).2 rfl
    obtain ⟨-, contents', hcontents', hshows⟩ := Recorder.writeAll_shows h
    have hsame : contents' = contents :=
      (List.map_inj_right fun _ _ => Option.some.inj).mp (hcontents'.symm.trans hcontents)
    rw [hreceived, hshows.entries_eq, hsame, Listing.read_listingBytes_iff, Listing.comments_silent_iff hcontents]
    refine ⟨Iff.rfl, fun hsource hnames => ⟨.of_line hsource, fun record hrecord name hname => ?_⟩⟩
    exact .of_line (hnames record hrecord name hname)

/-- The name of a switch goes on in a second line with a number. The file is compiled, and its listing is read with one
more byte than was recorded. -/
theorem listing_reads_iff_further :
    let root : Node := .mapping [
      ("grf", .mapping [("id", .string "ABCD" {}), ("name", .string "T" {})] {}),
      ("declarations", .sequence [.mapping [("switch", .mapping [
        ("name", .string "sw\n01" {}), ("feature", .int 0 {}), ("expr", .mapping [("var", .int 0x40 {})] {}),
        ("ranges", .sequence [.mapping [("value", .int 0 {}), ("result", .int 1 {})] {}] {}),
        ("default", .int 2 {})] {})] {}] {})] {}
    ∃ file comp r text, root.toFile "a.json" = .ok file ∧ compile "" {} {} file = .ok comp ∧
      writeAll comp.records ({} : Recorder) = .ok none r ∧ comp.listing none = .ok text ∧
      Listing.read text ≠ some r.entries := by
  intro root
  have hruns : (root.toFile "a.json").toOption.any (fun file => (compile "" {} {} file).toOption.any fun comp =>
      Writing.succeeds (writeAll comp.records) ({} : Recorder) (fun e _ => e.isNone) &&
        comp.records.any fun record => record.title?.any fun name => !decide (Listing.Inert name)) = true := by
    decide +kernel
  obtain ⟨file, hfile, hruns⟩ := exists_ok_of_any hruns
  obtain ⟨comp, hcompile, hruns⟩ := exists_ok_of_any hruns
  obtain ⟨hrecord, hname⟩ := Bool.and_eq_true_iff.mp hruns
  obtain ⟨e, r, hrecord, he⟩ := Writing.eq_ok_of_succeeds hrecord
  obtain rfl := Option.isNone_iff_eq_none.mp he
  obtain ⟨⟨text, htext⟩, hreads⟩ := listing_reads_iff comp hrecord
  refine ⟨file, comp, r, text, hfile, hcompile, hrecord, htext, fun hread => ?_⟩
  obtain ⟨record, hmem, hname⟩ := List.any_eq_true.mp hname
  cases htitle : record.title? with
  | none =>
    rw [htitle] at hname
    cases hname
  | some name =>
    have hinert := ((hreads none text htext).1.mp hread).2 record hmem name htitle
    rw [htitle, Option.any_some, decide_eq_true hinert] at hname
    cases hname

end Grf
