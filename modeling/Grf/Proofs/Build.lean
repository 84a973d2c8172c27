import Grf.Build
import Grf.Proofs.Output.Decoding
import Grf.Proofs.Output.Listed

/-! # Builds in both formats

A container has one word for the size of a record and refuses a larger one, a listing does not. Nothing bounds the
records while a file is compiled, so a file can have a listing and no container, and `build_formats` tells when. A
build is a check that is followed by a delivery (`build_eq`).
-/

namespace Grf

open List Text EngineText

variable {id text : String} {options : CompileOptions} {files : FileTree} {header : GrfHeader}

namespace Record

variable {r : Record} {fits : Prop}

theorem writable_iff {accepts : Int → Prop} :
    r.Writable accepts ↔ r.Writable (fun _ => True) ∧ ∀ n, r.size? = some n → accepts n := by
  constructor
  · intro h
    exact ⟨fun n hsize => ⟨trivial, (h n hsize).2⟩, fun n hsize => (h n hsize).1⟩
  · rintro ⟨hprints, haccepts⟩ n hsize
    exact ⟨haccepts n hsize, (hprints n hsize).2⟩

theorem writable_iff_shiftFits (h : r.Complete fits) : r.Writable (fun _ => True) ↔ ∀ v ∈ r.varReads, v.ShiftFits := by
  cases hsize : r.size? with
  | none =>
    obtain ⟨pos, body⟩ := r
    cases body <;> cases hsize
    exact ⟨fun _ v hv => absurd hv not_mem_nil, fun _ n hn => by cases hn⟩
  | some n =>
    unfold Writable
    rw [hsize]
    rcases tokens_cases h hsize with ⟨hfits, hprints⟩ | ⟨v, hv, hfits, herror⟩
    · simp_all
    · constructor
      · intro hwritable
        obtain ⟨-, tokens, htokens, -⟩ := hwritable n rfl
        rw [herror] at htokens
        cases htokens
      grind

end Record

variable {bytes : List UInt8} {e : Failure} {file : DeclarationFile} {path : String} {w : Workshop}

namespace Compilation

variable {comp : Compilation} {fits : Prop}

theorem exists_container_iff : (∃ bytes, comp.container none = .ok bytes) ↔
      (∃ text, comp.listing none = .ok text) ∧ ∀ r ∈ comp.records, ∀ n, r.size? = some n → 0 < n ∧ n ≤ 0xFFFF := by
  have hwritten : (∃ bytes, comp.container none = .ok bytes) ↔
      ∀ r ∈ comp.records, r.Writable fun n => 0 < n ∧ n ≤ 0xFFFF := by
    have hinit : ({ sink := { limit := none } } : Container).tracker = {} := rfl
    rw [← Container.checks.writeAll_ok_iff hinit]
    constructor
    · rintro ⟨bytes, hbytes⟩
      obtain ⟨o, ho, -⟩ := received_eq_ok.mp hbytes
      exact ⟨none, o, ho⟩
    · rintro ⟨e, o, ho⟩
      obtain ⟨rfl, -⟩ := Container.writeAll_delivers ho (.inl rfl)
      exact ⟨_, received_eq_ok.mpr ⟨o, ho, rfl⟩⟩
  rw [hwritten, exists_listing_iff, ← forall₂_and]
  exact forall₂_congr fun r _ => Record.writable_iff

theorem container_fault (h : comp.container none = .error e) : ∃ f, e = .fault f := by
  have h := eq_error_of_bind h
  unfold writeTo at h
  split at h
  · cases h
  · rename_i o ho
    obtain ⟨⟨⟩, -⟩ := Container.writeAll_delivers ho (.inl rfl)
  · cases h
    exact ⟨_, rfl⟩

theorem container_refuses (hcomplete : ∀ r ∈ comp.records, r.Complete fits)
    (hlisting : ∃ text, comp.listing none = .ok text) (h : comp.container none = .error e) :
    ∃ r ∈ comp.records, ∃ n, r.size? = some n ∧ 0xFFFF < n ∧ e = .fault (.invalidSpriteSize n) := by
  obtain ⟨f, rfl⟩ := container_fault h
  obtain ⟨r, hr, ⟨v, hv, hfits, -⟩ | ⟨n, hn, hrefused, rfl⟩⟩ :=
    writeTo_causes Container.tracks rfl hcomplete (eq_error_of_bind h)
  · have hall := (Record.writable_iff_shiftFits (hcomplete r hr)).mp (exists_listing_iff.mp hlisting r hr)
    exact absurd (hall v hv) hfits
  · have hpos := Record.size_pos (hcomplete r hr) hn
    exact ⟨r, hr, n, hn, by omega, rfl⟩

end Compilation

/-! ## Headers of any size

A file with nothing but a header is compiled whatever the length of its texts. -/

namespace EngineText

def Printable (b : UInt8) : Prop := 0x20 ≤ b ∧ b ≤ 0x7E ∧ b ≠ 0x5C

instance (b : UInt8) : Decidable (Printable b) := inferInstanceAs (Decidable (_ ∧ _ ∧ _))

theorem sizePieces_printable (h : ∀ b ∈ bytes, Printable b) (index : Nat) :
    sizePieces index bytes = .ok (bytes.length, false) := by
  induction bytes generalizing index with
  | nil =>
    rw [sizePieces]
    rfl
  | cons b rest ih =>
    rw [forall_mem_cons] at h
    obtain ⟨⟨hlow, hhigh, hescape⟩, hrest⟩ := h
    have hascii : b < 0x80 := by
      exact Nat.lt_of_le_of_lt hhigh (by decide)
    have hpiece : piece index b rest = .ok (.plain b.toNat [b], 0) := by
      simp_all [piece, decodeFirst?]
    have hmarker : (Piece.plain b.toNat [b]).needsMarker = false := by
      simp only [Piece.needsMarker, Bool.or_eq_false_iff, decide_eq_false_iff_not]
      exact ⟨Nat.not_lt.mpr hlow, Nat.not_lt.mpr hhigh⟩
    rw [sizePieces, hpiece]
    show (do
      let r ← sizePieces (index + 1 + 0) (rest.drop 0)
      return ((Piece.plain b.toNat [b]).size + r.1, (Piece.plain b.toNat [b]).needsMarker || r.2)) = _
    rw [drop_zero, ih hrest, hmarker]
    show Except.ok (1 + rest.length, false) = _
    rw [Nat.add_comm, length_cons]

end EngineText

theorem size_printable {cs : List Char} (h : ∀ c ∈ cs, c.toNat < 128 ∧ EngineText.Printable (asciiByte c)) :
    size (bytesOf (String.ofList cs)) true false = .ok (cs.length + 1) := by
  have hbytes : ∀ b ∈ cs.map asciiByte, EngineText.Printable b := forall_mem_map.mpr fun c hc => (h c hc).2
  simp_all [size, bytesOf_ofList, sizePieces_printable]

theorem textSize_eq {n : Nat} (h : size (bytesOf text) true false = .ok n) : textSize text = n := by
  unfold textSize
  rw [h]

theorem compile_of_lower {strings : StringTable} {sprites : SpriteRegistry} {records : List Record} {context : Context}
    (hversion : Version.check file.header.requires file.header.pos = .ok ())
    (hstrings : Compilation.strings options files file = .ok strings)
    (hsprites : Compilation.sprites file = .ok sprites)
    (hlower : Compilation.lower file (Context.create options.maxInlineSkip (some strings) (some sprites)) =
      .ok records context) : compile id options files file = .ok { id, file, records, context } := by
  unfold compile
  simp only [hversion, hstrings, hsprites, bind, Except.bind, hlower]
  rfl

theorem Compilation.info_eq_ok {id : GrfId}
    (hid : GrfId.parse header.id (header.pos.sub "id") = .ok id) (hname : Encodable header.name)
    (hdescription : Encodable header.description) :
    info header = .ok ⟨header.pos, .grfInfo id header.name header.description⟩ := by
  unfold info
  rw [hid]
  exact Lowering.grfInfo_eq_ok.mpr ⟨hname, hdescription, rfl⟩

theorem compile_header {grfId : GrfId} (hlanguages : options.langDir.isEmpty = true)
    (hversion : Version.check header.requires header.pos = .ok ())
    (hid : GrfId.parse header.id (header.pos.sub "id") = .ok grfId) (hname : Encodable header.name)
    (hdescription : Encodable header.description) :
    ∃ comp, compile id options files { path, header } = .ok comp ∧
      comp.records = [⟨header.pos, .spriteCount 1⟩, ⟨header.pos, .grfInfo grfId header.name header.description⟩] := by
  have hstrings : Compilation.strings options files { path, header } = .ok {} := by
    unfold Compilation.strings
    rw [hlanguages]
    rfl
  have hlower : ∃ c, Compilation.lower { path, header } (Context.create options.maxInlineSkip (some {}) (some {})) =
      .ok [⟨header.pos, .spriteCount 1⟩, ⟨header.pos, .grfInfo grfId header.name header.description⟩] c := by
    unfold Compilation.lower
    rw [Compilation.info_eq_ok hid hname hdescription]
    exact ⟨_, rfl⟩
  obtain ⟨c, hlower⟩ := hlower
  exact ⟨_, compile_of_lower hversion hstrings rfl hlower, rfl⟩

/-! ## The steps of a build -/

theorem DeclarationFile.parse_decoded {format : DocumentFormat} (h : parse path text format = .ok file) :
    ∃ root : Node, root.toFile path = .ok file := by
  cases format
  all_goals
    obtain ⟨root, -, h⟩ := except_bind_eq_ok h
    obtain ⟨-, -, hfile⟩ := except_bind_eq_ok h
    exact ⟨root, hfile⟩

/-- A workshop whose builds compile: there is no build cache, the destination takes everything, and the parse cache
holds decoded documents. -/
structure Workshop.Ready (w : Workshop) : Prop where
  outputs : w.outputs = none
  limit : w.destination.limit = none
  failed : w.destination.failed = false
  decoded : ∀ cache ∈ w.parsed, ∀ entry ∈ cache.values, ∃ (root : Node) (path : String), root.toFile path = .ok entry.2

namespace Building

variable {α : Type} {w w' : Workshop} {format path : String} {c : Compilation}

theorem lift_eq_ok {x : Except Failure α} {a : α} : (lift x) w = .ok a w' ↔ x = .ok a ∧ w = w' := by
  cases x with
  | ok b =>
    show EStateM.Result.ok b w = .ok a w' ↔ _
    simp
  | error e =>
    show EStateM.Result.error e w = .ok a w' ↔ _
    simp

def Succeeds (m : Building α) (w : Workshop) : Prop := ∃ a w', m w = .ok a w'

theorem parse_ready {content : List UInt8} (hw : w.Ready) (h : parse path content w = .ok file w') :
    w'.Ready ∧ ∃ (root : Node) (shown : String), root.toFile shown = .ok file := by
  unfold parse at h
  rw [bind_of_ok (rfl : (get : Building Workshop) w = .ok w w)] at h
  cases hparsed : w.parsed with
  | none =>
    rw [hparsed] at h
    obtain ⟨hfile, rfl⟩ := lift_eq_ok.mp h
    obtain ⟨root, hroot⟩ := DeclarationFile.parse_decoded hfile
    exact ⟨hw, root, path, hroot⟩
  | some cache =>
    rw [hparsed] at h
    dsimp only at h
    have hdecoded := hw.decoded cache hparsed
    cases hget : cache.get? path content with
    | some found =>
      rw [hget] at h
      cases h
      obtain ⟨before, after, hvalues, -⟩ := lookup_eq_some_iff.mp hget
      exact ⟨hw, hdecoded (contentKey path content, file) (by rw [hvalues]; simp)⟩
    | none =>
      rw [hget] at h
      obtain ⟨made, w₁, hlift, h⟩ := bind_eq_ok.mp h
      obtain ⟨hfile, rfl⟩ := lift_eq_ok.mp hlift
      cases h
      obtain ⟨root, hroot⟩ := DeclarationFile.parse_decoded hfile
      refine ⟨⟨hw.outputs, hw.limit, hw.failed, ?_⟩, root, path, hroot⟩
      -- The new entry is the file of `root`, and the others have been there before.
      rintro _ ⟨⟩ entry hentry
      rcases mem_cons.mp hentry with rfl | hold
      · exact ⟨root, path, hroot⟩
      · exact hdecoded entry (mem_filter.mp hold).1

theorem deliver_of_ready (hw : w.Ready) (bytes : List UInt8) : ∃ w', deliver bytes w = .ok () w' := by
  have hfailed := Sink.deliver_unlimited hw.limit hw.failed bytes
  unfold deliver
  rw [bind_of_ok (rfl : (get : Building Workshop) w = .ok w w), hfailed]
  exact ⟨_, rfl⟩

/-- The end of a build: the output of a compilation is made and delivered. -/
def output (format path : String) (c : Compilation) : Building Statistics := do
  let output ← lift (outputOf c format)
  deliver output
  let statistics := { Statistics.ofCompilation c with format, outputSize := output.length }
  note [delivered path format statistics.outputSize]
  return statistics

theorem output_succeeds (hw : w.Ready) (h : outputOf c format = .ok bytes) : (output format path c).Succeeds w := by
  obtain ⟨w', hdeliver⟩ := deliver_of_ready hw bytes
  unfold output Succeeds
  rw [h, bind_of_ok (lift_eq_ok.mpr ⟨rfl, rfl⟩), bind_of_ok hdeliver]
  exact ⟨_, _, rfl⟩

theorem output_succeeds_iff (hw : w.Ready) :
    (output format path c).Succeeds w ↔ ∃ bytes, outputOf c format = .ok bytes := by
  constructor
  · rintro ⟨s, w', h⟩
    obtain ⟨bytes, w₁, hlift, -⟩ := bind_eq_ok.mp h
    exact ⟨bytes, (lift_eq_ok.mp hlift).1⟩
  · rintro ⟨bytes, h⟩
    exact output_succeeds hw h

theorem outputOf_eq_error (hw : w.Ready) (h : output format path c w = .error e w') : outputOf c format = .error e := by
  cases hmade : outputOf c format with
  | ok bytes =>
    obtain ⟨s, w₁, hok⟩ : (output format path c).Succeeds w := output_succeeds hw hmade
    cases h.symm.trans hok
  | error e' =>
    unfold output at h
    rw [hmade] at h
    cases h
    rfl

end Building

open Building

/-- **Without a build cache a build is a check, and then an output.** -/
theorem build_eq {options : BuildOptions} (h : w.outputs = none) (hformat : options.format.isEmpty = false) :
    build id options files path w = (check id options files path >>= output options.format path) w := by
  unfold build check
  rw [hformat, if_neg Bool.false_ne_true, bind_assoc]
  cases hread : readDeclarations files path with
  | error e => rfl
  | ok content =>
    rw [bind_of_ok (lift_eq_ok.mpr ⟨rfl, rfl⟩), bind_of_ok (lift_eq_ok.mpr ⟨rfl, rfl⟩),
      bind_of_ok (rfl : (get : Building Workshop) w = .ok w w), h]
    unfold compileAndDeliver output
    simp only [bind_assoc, pure_bind]

theorem check_ready {options : BuildOptions} {w' : Workshop} {comp : Compilation}
    (hw : w.Ready) (h : check id options files path w = .ok comp w') :
    w'.Ready ∧ ∃ (root : Node) (shown : String) (file : DeclarationFile), root.toFile shown = .ok file ∧
      compile id options.toCompileOptions files file = .ok comp := by
  obtain ⟨content, w₁, hread, h⟩ := bind_eq_ok.mp h
  obtain ⟨-, rfl⟩ := lift_eq_ok.mp hread
  obtain ⟨file, w₂, hparse, h⟩ := bind_eq_ok.mp h
  obtain ⟨hready, root, shown, hroot⟩ := parse_ready hw hparse
  obtain ⟨comp', w₃, hlift, h⟩ := bind_eq_ok.mp h
  obtain ⟨hcompile, rfl⟩ := lift_eq_ok.mp hlift
  cases h
  exact ⟨⟨hready.outputs, hready.limit, hready.failed, hready.decoded⟩, root, shown, file, hroot, hcompile⟩

/-! ## Checks of long descriptions -/

def DeclarationFile.described (description : String) : DeclarationFile :=
  { path := "a", header := { id := "ABCD", name := "T", description } }

theorem size_name : size (bytesOf "T") true false = .ok 2 := by
  have hprintable : ∀ c ∈ ['T'], c.toNat < 128 ∧ EngineText.Printable (asciiByte c) := by
    intro c hc
    rw [mem_singleton.mp hc]
    decide
  exact size_printable hprintable

theorem FileTree.read_single (content : List UInt8) :
    ({ entries := [(["a"], .file content)] } : FileTree).read "a" = .ok content := by
  have hsplit : Path.split "a" = ["a"] := by
    unfold Path.split String.splitOn
    rw [if_neg (by decide), String.splitOnAux, if_neg (by decide), if_neg (by decide), String.splitOnAux,
      if_pos (by decide)]
    rfl
  have habsolute : Path.isAbsolute "a" = false := by simp [Path.isAbsolute]
  unfold read find place
  rw [if_neg (by decide), if_neg (by decide), hsplit, habsolute]
  rfl

theorem check_described {description : String} (content : List UInt8) (h : Encodable description)
    (hw : w = { parsed := some (ParseCache.put {} "a" content (.described description)) }) :
    w.Ready ∧ ∃ comp w', check "" {} { entries := [(["a"], .file content)] } "a" w = .ok comp w' ∧
      comp.records = [⟨{}, .spriteCount 1⟩, ⟨{}, .grfInfo ⟨[0x41, 0x42, 0x43, 0x44]⟩ "T" description⟩] := by
  have hid : GrfId.parse "ABCD" (({} : Position).sub "id") = .ok ⟨[0x41, 0x42, 0x43, 0x44]⟩ := by
    have hbytes : bytesOf "ABCD" = [0x41, 0x42, 0x43, 0x44] := (bytesOf_eq_flatMap _).trans rfl
    unfold GrfId.parse
    rw [hbytes]
    rfl
  have hread : readDeclarations { entries := [(["a"], .file content)] } "a" = .ok content := by
    unfold readDeclarations
    rw [FileTree.read_single]
  have hparse : parse "a" content w = .ok (.described description) w := by
    have hfound : (ParseCache.put {} "a" content (DeclarationFile.described description)).get? "a" content =
        some (.described description) := lookup_cons_self
    unfold parse
    rw [bind_of_ok (rfl : (get : Building Workshop) w = .ok w w), hw]
    dsimp only
    rw [hfound]
    rfl
  constructor
  · subst hw
    refine ⟨rfl, rfl, rfl, ?_⟩
    rintro _ ⟨⟩ entry hentry
    rw [mem_singleton.mp hentry]
    exact ⟨.mapping [("grf", .mapping [("id", .string "ABCD" {}), ("name", .string "T" {}),
      ("description", .string description {})] {})] {}, "a", rfl⟩
  · obtain ⟨comp, hcompile, hrecords⟩ : ∃ comp, compile "" {} _ (.described description) = .ok comp ∧ _ :=
      compile_header rfl rfl hid ⟨2, size_name⟩ h
    unfold check
    rw [hread, bind_of_ok (lift_eq_ok.mpr ⟨rfl, rfl⟩), bind_of_ok hparse, bind_of_ok (lift_eq_ok.mpr ⟨hcompile, rfl⟩)]
    exact ⟨comp, _, rfl, hrecords⟩

/-- **When a file can be built in both formats.** Builds fail where a check of the file does. If the check succeeds, all
records have bytes, and the listing can be built if and only if the shifts of the variables can be written. The container
can be built if and only if the listing can and no record has more than 65535 bytes: otherwise such a record is the fault
that ends the build. -/
theorem build_formats {id path : String} {files : FileTree} {options : BuildOptions} {w : Workshop} (hw : w.Ready) :
    (∀ e w', check id options files path w = .error e w' →
      build id { options with format := "grf" } files path w = .error e w' ∧
      build id { options with format := "nfo" } files path w = .error e w') ∧
    ∀ comp w', check id options files path w = .ok comp w' →
      w'.Ready ∧ (∀ r ∈ comp.records, ∀ n, r.size? = some n → 0 < n) ∧
      ((build id { options with format := "nfo" } files path).Succeeds w ↔
        ∀ r ∈ comp.records, ∀ v ∈ r.varReads, v.ShiftFits) ∧
      ((build id { options with format := "grf" } files path).Succeeds w ↔
        (build id { options with format := "nfo" } files path).Succeeds w ∧
          ∀ r ∈ comp.records, ∀ n, r.size? = some n → n ≤ 0xFFFF) ∧
      ((build id { options with format := "nfo" } files path).Succeeds w → ∀ e w'',
        build id { options with format := "grf" } files path w = .error e w'' →
          ∃ r ∈ comp.records, ∃ n, r.size? = some n ∧ 0xFFFF < n ∧ e = .fault (.invalidSpriteSize n)) := by
  have hbuild (format : String) (hformat : format.isEmpty = false) :
      build id { options with format } files path w = (check id options files path >>= output format path) w :=
    build_eq hw.outputs hformat
  -- Both builds are the same check, so they differ in the output only.
  have hgrf := hbuild "grf" rfl
  have hnfo := hbuild "nfo" rfl
  constructor
  · intro e w' hcheck
    rw [bind_of_error hcheck] at hgrf hnfo
    exact ⟨hgrf, hnfo⟩
  · intro comp w' hcheck
    obtain ⟨hready, root, shown, file, hroot, hcompile⟩ := check_ready hw hcheck
    have hcomplete := compile_complete hroot hcompile
    have hpos : ∀ r ∈ comp.records, ∀ n, r.size? = some n → 0 < n :=
      fun r hr n hn => Record.size_pos (hcomplete r hr) hn
    rw [bind_of_ok hcheck] at hgrf hnfo
    have hcontainer : (build id { options with format := "grf" } files path).Succeeds w ↔
        ∃ bytes, comp.container none = .ok bytes := by
      unfold Succeeds
      rw [hgrf]
      exact output_succeeds_iff hready
    have hlisting : (build id { options with format := "nfo" } files path).Succeeds w ↔
        ∃ text, comp.listing none = .ok text := by
      unfold Succeeds
      rw [hnfo]
      exact output_succeeds_iff hready
    rw [hcontainer, hlisting]
    refine ⟨hready, hpos, ?_, ?_, ?_⟩
    · rw [Compilation.exists_listing_iff]
      exact forall₂_congr fun r hr => Record.writable_iff_shiftFits (hcomplete r hr)
    · rw [Compilation.exists_container_iff]
      refine and_congr_right fun _ => forall₂_congr fun r hr => forall₂_congr fun n hn => ?_
      exact and_iff_right (hpos r hr n hn)
    · intro hlisted e w'' hfails
      rw [hgrf] at hfails
      exact Compilation.container_refuses hcomplete hlisted (outputOf_eq_error hready hfails)

/-- A description of 65527 characters. The file is checked without complaint and its listing is built, but its header has
65536 bytes: the build of the container ends with a fault. -/
theorem build_formats_oversized :
    let description := String.ofList (List.replicate 65527 'x')
    let content := Text.bytesOf ("grf:\n  id: ABCD\n  name: T\n  description: " ++ description)
    let files : FileTree := { entries := [(["a"], .file content)] }
    let w : Workshop := { parsed := some (ParseCache.put {} "a" content (.described description)) }
    w.Ready ∧ (check "" {} files "a").Succeeds w ∧ (build "" { format := "nfo" } files "a").Succeeds w ∧
      ∃ w', build "" { format := "grf" } files "a" w = .error (.fault (.invalidSpriteSize 65536)) w' := by
  intro description content files w
  have hprintable : ∀ c ∈ List.replicate 65527 'x', c.toNat < 128 ∧ EngineText.Printable (Text.asciiByte c) := by
    intro c hc
    rw [List.eq_of_mem_replicate hc]
    decide
  have hdescription : EngineText.size (Text.bytesOf description) true false = .ok 65528 := by
    have hsize := size_printable hprintable
    rwa [List.length_replicate] at hsize
  have hw : w = { parsed := some (ParseCache.put {} "a" content (.described description)) } := rfl
  -- From here on only the size of the description matters.
  obtain ⟨hready, comp, w', hcheck, hrecords⟩ := check_described content ⟨65528, hdescription⟩ hw
  obtain ⟨-, -, hnfo, hgrf, hfault⟩ := (build_formats hready).2 comp w' hcheck
  have hheader : (⟨{}, .grfInfo ⟨[0x41, 0x42, 0x43, 0x44]⟩ "T" description⟩ : Record).size? = some 65536 := by
    show some (6 + textSize "T" + textSize description) = some 65536
    rw [textSize_eq size_name, textSize_eq hdescription]
    norm_num
  rw [hrecords] at hnfo hgrf hfault
  have hlisted := hnfo.mpr (by simp [Record.varReads])
  refine ⟨hready, ⟨comp, w', hcheck⟩, hlisted, ?_⟩
  cases hrun : build "" { format := "grf" } files "a" w with
  | ok s w'' =>
    have hle := (hgrf.mp ⟨s, w'', hrun⟩).2 _ (by simp) _ hheader
    omega
  | error e w'' =>
    obtain ⟨r, hr, n, hn, hlarge, rfl⟩ := hfault hlisted e w'' hrun
    rcases List.mem_pair.mp hr with rfl | rfl
    · cases hn
      omega
    · cases hheader.symm.trans hn
      exact ⟨w'', rfl⟩

end Grf
