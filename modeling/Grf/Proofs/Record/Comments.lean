import Grf.Proofs.Record.Layout

/-! # The comments of a record

Only the name of a decision table or a sprite group is shown as a comment (`Record.tokens_remarks`). All other lines of
a record end without one.
-/

namespace Grf

open List Token

namespace Token

theorem comments_map {α : Type} {f : α → Token} (h : ∀ a, (f a).comment? = none) (as : List α) :
    comments (as.map f) = [] := by
  simp_all [comments]

theorem comments_flatMap {α : Type} {f : α → List Token} (h : ∀ a, comments (f a) = []) (as : List α) :
    comments (as.flatMap f) = [] := by
  induction as with
  | nil => rfl
  | cons a as ih => rw [flatMap_cons, comments_append, h, ih, append_nil]

theorem comments_extended (v : Int) : comments (extended v) = [] := by
  unfold extended
  split <;> rfl

end Token

/-- The tokens `x`, if there are any, have the comments `cs`. -/
def Remarks (x : Except Fault (List Token)) (cs : List String) : Prop := ∀ tokens, x = .ok tokens → comments tokens = cs

namespace Remarks

variable {x : Except Fault (List Token)} {f : List Token → Except Fault (List Token)} {cs cs' : List String}

theorem ok {tokens : List Token} (h : comments tokens = cs) : Remarks (.ok tokens) cs := by
  rintro _ ⟨⟩
  exact h

theorem bind (hx : Remarks x cs) (hf : ∀ ts, comments ts = cs → Remarks (f ts) cs') : Remarks (x >>= f) cs' := by
  intro tokens h
  obtain ⟨ts, hts, h⟩ := except_bind_eq_ok h
  exact hf ts (hx ts hts) tokens h

theorem mapM_cons {α : Type} {f : α → Except Fault (List Token)} {a : α} {as : List α} (h : Remarks (f a) [])
    (hs : Remarks (do return (← as.mapM f).flatten) []) : Remarks (do return (← (a :: as).mapM f).flatten) [] := by
  intro tokens hjoin
  obtain ⟨lists, hlists, ⟨⟩⟩ := except_bind_eq_ok hjoin
  rw [List.mapM_cons] at hlists
  obtain ⟨list, hlist, hlists⟩ := except_bind_eq_ok hlists
  obtain ⟨rest, hrest, ⟨⟩⟩ := except_bind_eq_ok hlists
  rw [flatten_cons, comments_append, h list hlist, hs rest.flatten (by rw [hrest]; rfl)]
  rfl

theorem mapM {α : Type} {f : α → Except Fault (List Token)} (as : List α) (h : ∀ a, Remarks (f a) []) :
    Remarks (do return (← as.mapM f).flatten) [] := by
  induction as with
  | nil => exact .ok rfl
  | cons a as ih => exact .mapM_cons (h a) ih

theorem zeroText (text : String) : Remarks (Grf.zeroText text) [] := by
  intro tokens h
  obtain ⟨t, ht, ⟨⟩⟩ := except_bind_eq_ok h
  unfold ofText at ht
  split at ht
  · cases ht
    rfl
  · cases ht

end Remarks

theorem GrfId.comments_tokens (id : GrfId) : comments id.tokens = [] := comments_map (fun _ => rfl) _

theorem GraphicsRecord.tokens_remarks (t : GraphicsRecord) : Remarks t.tokens [] := by
  have hhead : ∀ feature count cargo, comments ([byteOf 0x03, byteOf feature, byteOf count] ++
      t.ids.flatMap extended ++ [lineBreak, byteOf cargo]) = [] := by
    intro feature count cargo
    rw [comments_append, comments_append, comments_flatMap comments_extended]
    rfl
  have hcargo : ∀ x : Int × GraphicsRef, Remarks (do return byteOf x.1 :: (← x.2.tokens) ++ [lineBreak]) [] := by
    intro x tokens hok
    obtain ⟨ts, hts, ⟨⟩⟩ := except_bind_eq_ok hok
    show comments (ts ++ [lineBreak]) = []
    rw [comments_append, (Expr.tokensAs_lays true _ 2 ts hts).comments]
    rfl
  have hdefault : Remarks t.default.tokens [] := fun ts hts => (Expr.tokensAs_lays true _ 2 ts hts).comments
  exact .mapM_cons (.ok (hhead _ _ _)) (.mapM_cons (.mapM _ hcargo) (.mapM_cons hdefault (.ok rfl)))

theorem MessageRecord.tokens_remarks (m : MessageRecord) : Remarks m.tokens [] := by
  refine .mapM_cons (.ok rfl) (.mapM_cons ?_ (.mapM_cons ?_ (.ok rfl)))
  · split
    · exact .zeroText _
    · exact .ok rfl
  · cases m.data with
    | none => exact .ok rfl
    | some data =>
      refine (Remarks.zeroText data).bind fun ts hs => .ok ?_
      rw [comments_append, hs, comments_map fun _ => rfl]
      rfl

/-- **The only comment of a record is its name**, if it has one that is not empty. -/
theorem Record.tokens_remarks (r : Record) : Remarks r.tokens (r.title?.toList.filter (!·.isEmpty)) := by
  obtain ⟨pos, body⟩ := r
  cases body with
  | grfInfo id name description =>
    have hhead : comments ([byteOf 0x08, byteOf 8] ++ id.tokens ++ [lineBreak]) = [] := by
      rw [comments_append, comments_append, id.comments_tokens]
      rfl
    exact .mapM_cons (.ok hhead) (.mapM_cons (.zeroText name)
      (.mapM_cons (.ok rfl) (.mapM_cons (.zeroText description) (.ok rfl))))
  | propertyTable => exact fun tokens h => (Record.tokens_lays _ (by simp [Record.cells]) tokens h).comments
  | spriteTable feature sets sprites =>
    refine .ok ?_
    rw [comments_append, comments_extended]
    rfl
  | spriteGroup g =>
    refine .ok ?_
    rw [comments_append, comments_map fun _ => rfl, append_nil]
    exact comments_lineEnd g.name
  | decisionTable t => exact fun tokens h => (t.tokens_lays tokens h).comments
  | graphicsTable t => exact t.tokens_remarks
  | stringDefinition feature lang id content => exact .mapM_cons (.ok rfl) (.mapM_cons (.zeroText content) (.ok rfl))
  | bytePatchTable patches =>
    refine .ok ?_
    have hpatch : ∀ p : Patch, comments ([byteOf p.param, byteOf p.size] ++ extended p.offset ++ [lineBreak]) = [] := by
      intro p
      rw [comments_append, comments_append, comments_extended]
      rfl
    rw [comments_append]
    show comments (patches.flatMap _) ++ _ = _
    rw [comments_flatMap hpatch]
    rfl
  | skip action condition target =>
    intro tokens hok
    obtain ⟨value, hvalue, ⟨⟩⟩ := except_bind_eq_ok hok
    exact comments_sized hvalue _
  | rangeReplace ranges => exact .ok (comments_flatMap (fun _ => rfl) ranges)
  | errorMessage m => exact m.tokens_remarks
  | paramAssignment a =>
    refine .ok ?_
    cases a.hasData <;> rfl
  | deactivation ids => exact .ok (comments_flatMap (·.comments_tokens) ids)
  | _ => exact .ok rfl

end Grf
