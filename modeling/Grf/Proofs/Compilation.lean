import Grf.Proofs.Declaration.Decoded
import Grf.Proofs.Finalize.Complete
import Grf.Proofs.Output.Tracked
import Grf.Proofs.StringTable.Calls

/-! # Compiled files

A string table that has just been loaded has given out no ids. From there on the records of a file are drafted, bound
and finished, and each is written with as many bytes as it announces (`compile_announces`). Only a shift is found out
too late: a constant that is added to it can make it wrap around.
-/

namespace Grf

/-! ## Strings -/

def Loading.KeepsIds {α : Type} (m : Loading α) : Prop := ∀ t a t', m t = .ok a t' → t'.ids = t.ids ∧ t'.pool = t.pool

variable {t t' : StringTable} {options : CompileOptions} {files : FileTree} {file : DeclarationFile}
  {f : Fault} {α : Type} {id : String} {comp : Compilation}

namespace Loading.KeepsIds

variable {α β : Type}

theorem pure (a : α) : KeepsIds (Pure.pure a) := by
  rintro t _ _ ⟨⟩
  exact ⟨rfl, rfl⟩

theorem throw (e : Failure) : KeepsIds (MonadExcept.throw e : Loading α) := fun _ _ _ h => nomatch h

theorem bind {m : Loading α} {f : α → Loading β} (hm : KeepsIds m) (hf : ∀ a, KeepsIds (f a)) : KeepsIds (m >>= f) := by
  intro t b t' h
  obtain ⟨a, t₁, hrun, h⟩ := bind_eq_ok.mp h
  obtain ⟨hids, hpool⟩ := hm t a t₁ hrun
  obtain ⟨hids', hpool'⟩ := hf a t₁ b t' h
  exact ⟨hids'.trans hids, hpool'.trans hpool⟩

theorem forM {f : α → Loading PUnit} (as : List α) (hf : ∀ a, KeepsIds (f a)) : KeepsIds (as.forM f) := by
  induction as with
  | nil => exact pure _
  | cons a as ih => exact (hf a).bind fun _ => ih

end Loading.KeepsIds

namespace StringTable

theorem addText_keepsIds (lang : Int) (name text : String) (pos : Position) :
    (addText lang name text pos).KeepsIds := by
  intro t a t' h
  grind [addText_cases, t.added_keepsIds]

theorem loadFile_keepsIds (path text : String) : (loadFile path text).KeepsIds := by
  unfold loadFile
  split
  · exact .throw _
  · exact .forM _ fun x => addText_keepsIds _ _ _ _

theorem loadDirectory_keepsIds (files : FileTree) (directory shown : String) :
    (loadDirectory files directory shown).KeepsIds := by
  refine .forM _ fun path => ?_
  split
  · exact .throw _
  · exact loadFile_keepsIds _ _

end StringTable

namespace Compilation

theorem strings_keepsIds (h : strings options files file = .ok t) :
    t.ids = ({} : StringTable).ids ∧ t.pool = ({} : StringTable).pool := by
  unfold strings at h
  dsimp only at h
  split at h
  · rename_i hrun
    cases h
    refine (?_ : Loading.KeepsIds _) _ _ _ hrun
    have hown : Loading.KeepsIds (file.strings.forM fun s => StringTable.addText s.lang s.name s.text s.pos) :=
      .forM _ fun s => StringTable.addText_keepsIds _ _ _ _
    split
    · exact (StringTable.loadDirectory_keepsIds _ _ _).bind fun _ => hown
    · exact hown
  · cases h

theorem strings_numbered (h : strings options files file = .ok t) : t.Numbered := by
  obtain ⟨hids, hpool⟩ := strings_keepsIds h
  refine ⟨by simp [hids], fun id hid => ?_⟩
  rw [hpool] at hid
  exact Context.mem_free_ofRange hid

/-! ## Records -/

variable {header : GrfHeader} {file : DeclarationFile} {fits : Prop} {c c' : Context}

theorem info_drafted {r : Record} (h : info header = .ok r) : r.Drafted fits := by
  obtain ⟨id, hid, h⟩ := except_bind_eq_ok h
  obtain ⟨hname, hdescription, rfl⟩ := Lowering.grfInfo_eq_ok.mp h
  exact ⟨Lowering.length_parse hid, hname, hdescription⟩

theorem lower_complete {records : List Record} (h : lower file c = .ok records c') (hc : c.InRange)
    (hnumbered : c.Numbered) (hdeclared : ∀ s, .switch s ∈ Declaration.walkAll file.declarations → s.Declared fits) :
    ∀ r ∈ records, r.Complete fits := by
  obtain ⟨head, c₁, hhead, h⟩ := bind_eq_ok.mp h
  obtain ⟨body, c₂, hbody, hfinalize⟩ := bind_eq_ok.mp h
  obtain ⟨hinfo, rfl⟩ := Lowering.lift_eq_ok.mp hhead
  have hdrafted := Lowering.lowerAll_drafts hdeclared hc hnumbered hbody
  exact Lowering.finalize_complete hfinalize (.cons trivial (.cons (info_drafted hinfo) hdrafted))

theorem writeTo_causes {σ : Type} [Output σ] {tracker : σ → Tracker} {accepts : Int → Prop} {output : σ}
    {records : List Record} (ht : Output.Tracks σ tracker accepts) (ho : tracker output = {})
    (hrecords : ∀ r ∈ records, r.Complete fits) (h : writeTo output records = .error (.fault f)) :
    ∃ r ∈ records, r.Causes accepts f := by
  unfold writeTo at h
  rcases ht.writeAll_cases hrecords ho with ⟨e, o', hwrite⟩ | ⟨r, hr, f', o', hwrite, hcauses⟩
  · rw [hwrite] at h
    cases e <;> cases h
  grind

theorem eq_error_of_bind {β : Type} {x : Except Failure α} {g : α → β} {e : Failure}
    (h : (do return g (← x)) = .error e) : x = .error e := by
  cases x with
  | error e' =>
    cases h
    rfl
  | ok a => cases h

end Compilation

theorem compile_eq_ok (h : compile id options files file = .ok comp) :
    ∃ strings sprites, Compilation.strings options files file = .ok strings ∧ Compilation.sprites file = .ok sprites ∧
      Compilation.lower file (Context.create options.maxInlineSkip (some strings) (some sprites)) =
        .ok comp.records comp.context := by
  obtain ⟨-, -, h⟩ := except_bind_eq_ok h
  obtain ⟨strings, hstrings, h⟩ := except_bind_eq_ok h
  obtain ⟨sprites, hsprites, h⟩ := except_bind_eq_ok h
  refine ⟨strings, sprites, hstrings, hsprites, ?_⟩
  split at h
  · cases h
    assumption
  · cases h

/-- No constant in a switch is so large that the sum with a shift wraps around. -/
def DeclarationFile.Shiftable (file : DeclarationFile) : Prop :=
  ∀ s, .switch s ∈ Declaration.walkAll file.declarations → ∀ e ∈ s.expressions, ∀ k, .const k ∈ e.walk →
    k + VarRead.maxShift < 0x8000000000000000

/-- The records of a document can be written, the shifts of their variables apart. These can be written too if
there is no constant that makes them wrap around. -/
theorem compile_complete {root : Node} {path : String} (hfile : root.toFile path = .ok file)
    (h : compile id options files file = .ok comp) : ∀ r ∈ comp.records, r.Complete file.Shiftable := by
  obtain ⟨strings, sprites, hstrings, -, hlower⟩ := compile_eq_ok h
  have hnumbered : (Context.create options.maxInlineSkip (some strings) (some sprites)).Numbered := by
    rintro t ⟨⟩
    exact Compilation.strings_numbered hstrings
  refine Compilation.lower_complete hlower (Context.create_inRange _ _ _) hnumbered fun s hs e he => ?_
  exact (root.toFile_decodes path file hfile s hs e he).declared fun hshiftable => hshiftable s hs e he

def faultsWith {α : Type} (x : Except Failure α) (f : Fault) : Bool :=
  match x with
  | .error (.fault f') => f' = f
  | _ => false

theorem faultsWith_iff {x : Except Failure α} : faultsWith x f = true ↔ x = .error (.fault f) := by
  unfold faultsWith
  split
  · simp
  · simp_all

theorem exists_ok_of_any {x : Except Failure α} {test : α → Bool}
    (h : x.toOption.any test = true) : ∃ a, x = .ok a ∧ test a = true := by
  cases x with
  | error e => cases h
  | ok a => exact ⟨a, rfl, h⟩

/-- **Announced and written sizes agree.** A record of a compiled document is written with as many bytes as it has
announced, unless the shift of one of its variables cannot be written: then this is the fault. No other fault ends
a listing, and none ends a container but that a record is larger than the format allows. All shifts can be written
if the document has no constant in a switch that makes them wrap around. -/
theorem compile_announces {root : Node} {path id : String} {options : CompileOptions} {files : FileTree}
    {file : DeclarationFile} {comp : Compilation} (hfile : root.toFile path = .ok file)
    (h : compile id options files file = .ok comp) :
    (∀ r ∈ comp.records, ∀ n, r.size? = some n → ((∀ v ∈ r.varReads, v.ShiftFits) ∧
        ∃ tokens, r.tokens = .ok tokens ∧ ((Token.bytesOfAll tokens).length : Int) = n) ∨
      ∃ v ∈ r.varReads, ¬v.ShiftFits ∧ r.tokens = .error (.invalidShift v.shift v.num)) ∧
    (∀ limit f, comp.listing limit = .error (.fault f) →
      ∃ r ∈ comp.records, ∃ v ∈ r.varReads, ¬v.ShiftFits ∧ f = .invalidShift v.shift v.num) ∧
    (∀ limit f, comp.container limit = .error (.fault f) →
      ∃ r ∈ comp.records, (∃ v ∈ r.varReads, ¬v.ShiftFits ∧ f = .invalidShift v.shift v.num) ∨
        ∃ n, r.size? = some n ∧ 0xFFFF < n ∧ f = .invalidSpriteSize n) ∧
    (file.Shiftable → ∀ r ∈ comp.records, ∀ v ∈ r.varReads, v.ShiftFits) := by
  have hcomplete := compile_complete hfile h
  refine ⟨fun r hr n hn => Record.tokens_cases (hcomplete r hr) hn, fun limit f hfault => ?_,
    fun limit f hfault => ?_, fun hshiftable r hr => Record.shiftFits (hcomplete r hr) hshiftable⟩
  · obtain ⟨r, hr, hshift | ⟨n, -, hrefused, -⟩⟩ := Compilation.writeTo_causes Listing.tracks
      (Listing.createOn_tracker _ _) hcomplete (Compilation.eq_error_of_bind hfault)
    · exact ⟨r, hr, hshift⟩
    · exact absurd trivial hrefused
  · obtain ⟨r, hr, hshift | ⟨n, hn, hrefused, hf⟩⟩ := Compilation.writeTo_causes Container.tracks rfl hcomplete
      (Compilation.eq_error_of_bind hfault)
    · exact ⟨r, hr, .inl hshift⟩
    · have hpos := Record.size_pos (hcomplete r hr) hn
      exact ⟨r, hr, .inr ⟨n, hn, by omega, hf⟩⟩

/-- The shift `1` and the constant `2 ^ 63 - 1` of a switch are added up to `-2 ^ 63`. The file is compiled all the
same, and its listing ends with a fault. The other records are written. -/
theorem compile_announces_wrapped :
    let root : Node := .mapping [
      ("grf", .mapping [("id", .string "ABCD" {}), ("name", .string "T" {})] {}),
      ("declarations", .sequence [.mapping [("switch", .mapping [ ("name", .string "sw" {}), ("feature", .int 0 {}),
        ("expr", .mapping [("op", .string ">>>" {}),
          ("left", .mapping [("var", .int 0x40 {}), ("shift", .int 1 {})] {}),
          ("right", .int 9223372036854775807 {})] {}),
        ("ranges", .sequence [.mapping [("value", .int 0 {}), ("result", .int 1 {})] {}] {}),
        ("default", .int 2 {})] {})] {}] {})] {}
    ∃ file comp, root.toFile "" = .ok file ∧ compile "" {} {} file = .ok comp ∧
      comp.records.map (·.varReads.length) = [0, 0, 1] ∧
      comp.listing none = .error (.fault (.invalidShift (-9223372036854775808) 0x40)) ∧
      (∃ r ∈ comp.records, ∃ v ∈ r.varReads, v.shift = -9223372036854775808 ∧ ¬v.ShiftFits) ∧
      ¬file.Shiftable ∧
      ∀ r ∈ comp.records, ∀ n, r.size? = some n → r.varReads = [] →
        ∃ tokens, r.tokens = .ok tokens ∧ ((Token.bytesOfAll tokens).length : Int) = n := by
  intro root
  have hruns : (root.toFile "").toOption.any (fun file => (compile "" {} {} file).toOption.any fun comp =>
      decide (comp.records.map (·.varReads.length) = [0, 0, 1]) &&
        faultsWith (comp.listing none) (.invalidShift (-9223372036854775808) 0x40)) = true := by
    decide +kernel
  obtain ⟨file, hfile, hruns⟩ := exists_ok_of_any hruns
  obtain ⟨comp, hcompile, hruns⟩ := exists_ok_of_any hruns
  obtain ⟨hreads, hlisting⟩ := Bool.and_eq_true_iff.mp hruns
  have hfault := faultsWith_iff.mp hlisting
  obtain ⟨hrecords, hlistings, -, hshiftable⟩ := compile_announces hfile hcompile
  obtain ⟨r, hr, v, hv, hfits, hf⟩ := hlistings none _ hfault
  refine ⟨file, comp, hfile, hcompile, of_decide_eq_true hreads, hfault,
    ⟨r, hr, v, hv, (Fault.invalidShift.inj hf).1.symm, hfits⟩, fun h => hfits (hshiftable h r hr v hv),
    fun r hr n hn hnone => ?_⟩
  rcases hrecords r hr n hn with ⟨-, hprints⟩ | ⟨v, hv, -⟩
  · exact hprints
  · rw [hnone] at hv
    cases hv

end Grf
