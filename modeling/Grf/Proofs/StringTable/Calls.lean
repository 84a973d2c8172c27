import Mathlib.Data.List.Dedup
import Mathlib.Data.List.Induction
import Grf.Proofs.Pool.Partition
import Grf.StringTable

/-! # Calls on a string table

Texts are added to a string table and names are resolved, in any order, and a call may fail. `History` lists what the
others have done, and it tells all that the table knows (`Reflects`): the wordings of a name are the texts that were
added, sorted by language, and the ids are the places of the names in the order of their first resolution
(`calls_consistent`).
-/

namespace Grf.StringTable

open List

variable {t : StringTable} {lang : Int} {name other text : String} {pos : Position} {new : Wording} {ws : List Wording}

/-! ## Texts -/

def texts (t : StringTable) (name : String) : List Wording := (t.wordings? name).getD []

theorem insertByLang_perm (new : Wording) (ws : List Wording) : (insertByLang new ws).Perm (new :: ws) := by
  induction ws with
  | nil => rfl
  | cons w ws ih => grind [insertByLang]

theorem insertByLang_sorted (hws : ws.Pairwise (·.lang < ·.lang)) (hnew : ∀ w ∈ ws, w.lang ≠ new.lang) :
    (insertByLang new ws).Pairwise (·.lang < ·.lang) := by
  induction ws with
  | nil => exact pairwise_singleton _ _
  | cons w ws ih =>
    rw [forall_mem_cons] at hnew
    rw [pairwise_cons] at hws
    unfold insertByLang
    split
    · next hlt => simp_all [hlt.trans]
    · next hle =>
      refine pairwise_cons.mpr ⟨fun v hv => ?_, ih hws.2 hnew.2⟩
      rcases mem_cons.mp ((insertByLang_perm new ws).mem_iff.mp hv) with rfl | hv
      · omega
      · exact hws.1 v hv

theorem wordings?_withEntry (t : StringTable) (name other : String) :
    (t.withEntry name).wordings? other = if other = name then some (t.texts name) else t.wordings? other := by
  unfold withEntry texts
  cases h : t.wordings? name with
  | some ws => grind
  | none =>
    unfold wordings? at h ⊢
    grind

theorem wordings?_insertWording (t : StringTable) (name other : String) (new : Wording) :
    (t.insertWording name new).wordings? other =
      if other = name then (t.wordings? name).map (insertByLang new) else t.wordings? other := by
  unfold wordings? insertWording
  induction t.entries with
  | nil => simp
  | cons e es ih => grind

/-- The table after a wording has been added to it. -/
def added (t : StringTable) (name : String) (new : Wording) : StringTable := (t.withEntry name).insertWording name new

theorem wordings?_added (t : StringTable) (name other : String) (new : Wording) : (t.added name new).wordings? other =
    if other = name then some (insertByLang new (t.texts name)) else t.wordings? other := by
  rw [added, wordings?_insertWording, wordings?_withEntry, wordings?_withEntry, if_pos rfl]
  split <;> rfl

theorem added_keepsIds (t : StringTable) (name : String) (new : Wording) :
    (t.added name new).ids = t.ids ∧ (t.added name new).pool = t.pool := by
  unfold added insertWording withEntry
  split <;> exact ⟨rfl, rfl⟩

/-- A text is added if there is none in its language. Otherwise, and if it cannot be used, the table stays as it is:
an entry is made only for a name without wordings, to which any text can be added. -/
theorem addText_cases (t : StringTable) (lang : Int) (name text : String) (pos : Position) :
    (∃ e, addText lang name text pos t = .error e t) ∨
      addText lang name text pos t = .ok () (t.added name ⟨lang, text, pos⟩) ∧ ∀ w ∈ t.texts name, w.lang ≠ lang := by
  unfold addText
  by_cases hlang : (decide (lang < 0) || decide (maxLang < lang)) = true
  · rw [if_pos hlang]
    exact .inl ⟨_, rfl⟩
  rw [if_neg hlang]
  cases hsize : EngineText.size (Text.bytesOf text) true false with
  | error e => exact .inl ⟨_, rfl⟩
  | ok n =>
    have hrun : ∀ k : StringTable → Loading Unit,
        (modify (·.withEntry name) >>= fun _ => get >>= k) t = k (t.withEntry name) (t.withEntry name) := fun _ => rfl
    simp only [hrun, wordings?_withEntry, if_true, Option.getD_some]
    cases hfind : (t.texts name).find? (·.lang == lang) with
    | none =>
      rw [find?_eq_none] at hfind
      exact .inr ⟨rfl, fun w hw => by simpa using hfind w hw⟩
    | some previous =>
      have hsame : t.withEntry name = t := by
        unfold withEntry
        unfold texts at hfind
        cases hws : t.wordings? name <;> simp_all
      rw [hsame]
      exact .inl ⟨_, rfl⟩

/-! ## Histories -/

inductive Call
  | add (lang : Int) (name text : String) (pos : Position)
  | resolve (name : String) (pos : Position)

/-- What a call that succeeds has done. -/
inductive Event
  | added (lang : Int) (name text : String)
  | resolved (name : String) (id : Int)

/-- The answer to a call, and the table after it. -/
def Call.perform (t : StringTable) : Call → Except Failure Event × StringTable
  | add lang name text pos =>
    match addText lang name text pos t with
    | .ok _ t => (.ok (.added lang name text), t)
    | .error e t => (.error e, t)
  | resolve name pos =>
    match t.resolve name pos with
    | .ok (id, t) => (.ok (.resolved name id), t)
    | .error e => (.error e, t)

abbrev History := List Event

/-- The history of calls on a new table, and the table that they leave. -/
def run (calls : List Call) : History × StringTable :=
  calls.foldl (fun s c => (s.1 ++ (c.perform s.2).1.toOption.toList, (c.perform s.2).2)) ([], {})

def history (calls : List Call) : History := (run calls).1

def table (calls : List Call) : StringTable := (run calls).2

namespace History

variable {h : History}

/-- The texts that were added for a name, with their languages. -/
def texts (h : History) (name : String) : List (Int × String) := h.filterMap fun
    | .added lang n text => if n = name then some (lang, text) else none
    | .resolved _ _ => none

/-- The names that were resolved, in the order of their first resolution. -/
def names (h : History) : List String := (h.filterMap fun
    | .added _ _ _ => none
    | .resolved name _ => some name).reverse.dedup.reverse

theorem names_known (hname : name ∈ h.names) (id : Int) : names (h ++ [.resolved name id]) = h.names := by
  grind [names, mem_dedup, dedup_cons_of_mem]

theorem names_new (hname : name ∉ h.names) (id : Int) : names (h ++ [.resolved name id]) = h.names ++ [name] := by
  simp_all [names]

/-- The id of the next name that is resolved for the first time. -/
def next (h : History) : Int := 0xD000 + h.names.length

end History

structure Worded (h : History) (t : StringTable) : Prop where
  names : (t.entries.map (·.1)).Nodup
  sorted : ∀ name, (t.texts name).Pairwise (·.lang < ·.lang)
  texts : ∀ name, ((t.texts name).map fun w => (w.lang, w.text)).Perm (h.texts name)
  defined : ∀ name, t.wordings? name = none ↔ h.texts name = []

/-- The table knows what its history tells. -/
structure Reflects (h : History) (t : StringTable) : Prop extends Worded h t where
  ids : ∀ name, t.ids.lookup name = if name ∈ h.names then some (0xD000 + (h.names.idxOf name : Int)) else none
  free : t.pool.free = Pool.idsFrom h.next (1024 - h.names.length)
  inUse : ∀ id ∈ t.pool.inUse, id < h.next
  pool : t.pool.name = "string ids" ∧ t.pool.total = 1024
  resolved : ∀ name id, .resolved name id ∈ h → name ∈ h.names ∧ id = 0xD000 + (h.names.idxOf name : Int)

theorem Worded.resolved {h : History} (hr : Worded h t) (name : String) (id : Int) (pool : Pool)
    (ids : List (String × Int)) : Worded (h ++ [.resolved name id]) { t with pool, ids } := by
  have htexts (other : String) : History.texts (h ++ [.resolved name id]) other = h.texts other := by
    simp [History.texts]
  exact ⟨hr.names, hr.sorted, fun other => htexts other ▸ hr.texts other, fun other => htexts other ▸ hr.defined other⟩

namespace Reflects

variable {h : History} {id : Int}

theorem empty : Reflects [] {} where
  names := .nil
  sorted _ := .nil
  texts _ := .nil
  defined _ := Iff.intro (fun _ => rfl) fun _ => rfl
  ids _ := rfl
  free := by simp [Pool.ofRange, History.names, History.next]
  inUse := by simp [Pool.ofRange]
  pool := by simp [Pool.ofRange, Pool.idsFrom]
  resolved := by simp

/-- A name gets an entry of its own with its first text. -/
theorem names_added (hr : Reflects h t) (name : String) (new : Wording) :
    ((t.added name new).entries.map (·.1)).Nodup := by
  have hmap : (t.added name new).entries.map (·.1) = (t.withEntry name).entries.map (·.1) := by
    simp only [added, insertWording, map_map]
    refine map_congr_left fun e _ => ?_
    rw [Function.comp_apply]
    split <;> rfl
  rw [hmap]
  unfold withEntry
  split
  · exact hr.names
  · next hnone =>
    rw [Bool.not_eq_true, Option.isSome_eq_false_iff, Option.isNone_iff_eq_none, wordings?, lookup_eq_none_iff] at hnone
    rw [map_append, nodup_append]
    refine ⟨hr.names, nodup_singleton _, ?_⟩
    rintro _ hmem _ hname rfl
    obtain ⟨e, he, rfl⟩ := mem_map.mp hmem
    exact bne_iff_ne.mp (hnone e he) (mem_singleton.mp hname).symm

theorem add_new (hr : Reflects h t) (hnew : ∀ w ∈ t.texts name, w.lang ≠ lang) :
    Reflects (h ++ [.added lang name text]) (t.added name ⟨lang, text, pos⟩) := by
  have htexts (other : String) : (t.added name ⟨lang, text, pos⟩).texts other =
      if other = name then insertByLang ⟨lang, text, pos⟩ (t.texts name) else t.texts other := by
    simp only [StringTable.texts, wordings?_added]
    split <;> rfl
  have hadded (other : String) : History.texts (h ++ [.added lang name text]) other =
      if other = name then h.texts name ++ [(lang, text)] else h.texts other := by
    unfold History.texts
    grind
  have hnames : History.names (h ++ [.added lang name text]) = h.names := by simp [History.names]
  obtain ⟨hids, hpool⟩ := t.added_keepsIds name ⟨lang, text, pos⟩
  refine ⟨⟨hr.names_added name _, ?sorted, ?texts, ?defined⟩, ?ids, ?free, ?inUse, ?pool, ?resolved⟩
  case sorted => grind [insertByLang_sorted, hr.sorted]
  case texts =>
    intro other
    rw [htexts, hadded]
    split
    · refine ((insertByLang_perm _ _).map _).trans ?_
      exact ((hr.texts name).cons (lang, text)).trans (perm_append_singleton _ _).symm
    · exact hr.texts other
  case defined =>
    intro other
    rw [wordings?_added, hadded]
    split
    · simp
    · exact hr.defined other
  all_goals simp only [hpool, hids, History.next, hnames]
  case ids => exact hr.ids
  case free => exact hr.free
  case inUse => exact hr.inUse
  case pool => exact hr.pool
  grind [hr.resolved]

theorem resolve_known (hr : Reflects h t) (hname : name ∈ h.names) (hid : id = 0xD000 + (h.names.idxOf name : Int)) :
    Reflects (h ++ [.resolved name id]) t := by
  have hnames := History.names_known hname id
  constructor
  case toWorded => exact hr.toWorded.resolved name id t.pool t.ids
  case pool => exact hr.pool
  all_goals simp only [History.next, hnames]
  case ids => exact hr.ids
  case free => exact hr.free
  case inUse => exact hr.inUse
  grind [hr.resolved]

theorem idsFrom_succ (first : Int) (count : Nat) :
    Pool.idsFrom first (count + 1) = first :: Pool.idsFrom (first + 1) count := by
  unfold Pool.idsFrom
  rw [range_succ_eq_map, map_cons, map_map, Int.natCast_zero, Int.add_zero]
  congr 1
  refine map_congr_left fun i _ => ?_
  simp only [Function.comp_apply, Nat.succ_eq_add_one]
  omega

/-- A name that is resolved for the first time gets the id at the head of the pool. -/
theorem resolve_new (hr : Reflects h t) (hname : name ∉ h.names) (hlt : h.names.length < 1024) (pos : Position) :
    t.pool.popGlobal pos = .ok (h.next, t.pool.handOut h.next pos) ∧ Reflects (h ++ [.resolved name h.next])
      { t with pool := t.pool.handOut h.next pos, ids := (name, h.next) :: t.ids } := by
  have hfree : t.pool.free = h.next :: Pool.idsFrom (h.next + 1) (1024 - (h.names.length + 1)) := by
    rw [hr.free, ← idsFrom_succ]
    congr 1
    omega
  refine ⟨Pool.popGlobal_of_cons hfree (fun hmem => (hr.inUse _ hmem).false) pos, ?_⟩
  have hnames := History.names_new hname h.next
  have hnext : History.next (h ++ [.resolved name h.next]) = h.next + 1 := by
    grind [History.next]
  have hidx : (h.names ++ [name]).idxOf name = h.names.length := by simp [idxOf_append_of_notMem hname]
  constructor
  case toWorded => exact hr.toWorded.resolved name h.next _ _
  case pool => exact hr.pool
  case free =>
    show t.pool.free.erase h.next = _
    rw [hfree, erase_cons_head, hnext, hnames, length_append, length_singleton]
  case inUse =>
    show ∀ i ∈ h.next :: t.pool.inUse, i < _
    rw [hnext, forall_mem_cons]
    refine ⟨by omega, fun i hi => ?_⟩
    have := hr.inUse i hi
    omega
  all_goals rw [hnames]
  case ids =>
    intro other
    by_cases hother : other = name
    · simp_all [History.next]
    · rw [lookup_cons, beq_false_of_ne hother, hr.ids]
      by_cases hmem : other ∈ h.names
      · simp [hmem, idxOf_append_of_mem hmem]
      · simp [hmem, hother]
  case resolved =>
    intro other id hmem
    rcases mem_append.mp hmem with hmem | hmem
    · grind [hr.resolved]
    · cases mem_singleton.mp hmem
      rw [hidx]
      exact ⟨mem_append_right _ (mem_singleton_self _), rfl⟩

/-- What the resolution of a name answers, and the table after it. -/
theorem resolve_eq (hr : Reflects h t) (name : String) (pos : Position) : Call.perform t (.resolve name pos) =
      if h.texts name = [] then (.error (notDefined name pos), t)
      else if name ∈ h.names then (.ok (.resolved name (0xD000 + (h.names.idxOf name : Int))), t)
      else if h.names.length < 1024 then (.ok (.resolved name h.next),
        { t with pool := t.pool.handOut h.next pos, ids := (name, h.next) :: t.ids })
      else (.error (.compile .resourceExhausted pos "unable to allocate one of the 1024 string ids"), t) := by
  rw [Call.perform]
  unfold StringTable.resolve
  by_cases hnone : h.texts name = []
  · rw [if_pos hnone, (hr.defined name).mpr hnone]
    rfl
  have hsome : ¬(t.wordings? name).isNone = true := by
    rw [Option.isNone_iff_eq_none, hr.defined]
    exact hnone
  rw [if_neg hnone, if_neg hsome, hr.ids]
  by_cases hname : name ∈ h.names
  · rw [if_pos hname, if_pos hname]
  rw [if_neg hname, if_neg hname]
  by_cases hlt : h.names.length < 1024
  · rw [if_pos hlt, (hr.resolve_new hname hlt pos).1]
    rfl
  · have hfree : t.pool.free = [] := by
      rw [hr.free, Nat.sub_eq_zero_of_le (Nat.le_of_not_lt hlt)]
      rfl
    rw [if_neg hlt, Pool.popGlobal_of_nil hfree, Pool.exhausted, hr.pool.1, hr.pool.2]
    rfl

/-- A call that fails leaves the table as it is. Otherwise its event is added to the history. -/
theorem step (hr : Reflects h t) (c : Call) : Reflects (h ++ (c.perform t).1.toOption.toList) (c.perform t).2 ∧
      ∀ e, (c.perform t).1 = .error e → (c.perform t).2 = t := by
  have hsame : Reflects (h ++ []) t := (append_nil h).symm ▸ hr
  cases c with
  | add lang name text pos =>
    rcases addText_cases t lang name text pos with ⟨e, he⟩ | ⟨hok, hnew⟩
    · rw [Call.perform, he]
      exact ⟨hsame, fun _ _ => rfl⟩
    · rw [Call.perform, hok]
      exact ⟨hr.add_new hnew, fun _ he => by cases he⟩
  | resolve name pos =>
    rw [hr.resolve_eq]
    by_cases hnone : h.texts name = []
    · rw [if_pos hnone]
      exact ⟨hsame, fun _ _ => rfl⟩
    rw [if_neg hnone]
    by_cases hname : name ∈ h.names
    · rw [if_pos hname]
      exact ⟨hr.resolve_known hname rfl, fun _ he => by cases he⟩
    rw [if_neg hname]
    by_cases hlt : h.names.length < 1024
    · rw [if_pos hlt]
      exact ⟨(hr.resolve_new hname hlt pos).2, fun _ he => by cases he⟩
    · rw [if_neg hlt]
      exact ⟨hsame, fun _ _ => rfl⟩

end Reflects

theorem reflects_calls (calls : List Call) : Reflects (history calls) (table calls) := by
  induction calls using reverseRecOn with
  | nil => exact .empty
  | append_singleton calls c ih =>
    have hrun : run (calls ++ [c]) = (history calls ++ (c.perform (table calls)).1.toOption.toList,
        (c.perform (table calls)).2) := by
      rw [run, foldl_append]
      rfl
    rw [history, table, hrun]
    exact (ih.step c).1

/-- Texts are added to a new table and names are resolved. The names get the ids from 0xD000 on in the order of their
first resolution and keep them, so different names have different ids. A name without texts is not resolved, nor is a
new one after 1024 others. A call that fails changes nothing. The wordings of a name are the texts that were added for
it, one for each language and sorted by it. -/
theorem calls_consistent (calls : List Call) :
    (∀ name id, .resolved name id ∈ history calls → name ∈ (history calls).names ∧
      id = 0xD000 + ((history calls).names.idxOf name : Int)) ∧
    (∀ name name' id, .resolved name id ∈ history calls → .resolved name' id ∈ history calls → name = name') ∧
    (∀ name pos, (Call.perform (table calls) (.resolve name pos)).1 =
      if (history calls).texts name = [] then .error (notDefined name pos)
      else if name ∈ (history calls).names then
        .ok (.resolved name (0xD000 + ((history calls).names.idxOf name : Int)))
      else if (history calls).names.length < 1024 then .ok (.resolved name (0xD000 + (history calls).names.length))
      else .error (.compile .resourceExhausted pos "unable to allocate one of the 1024 string ids")) ∧
    (∀ c e, (Call.perform (table calls) c).1 = .error e → (Call.perform (table calls) c).2 = table calls) ∧
    ∀ name, (((table calls).texts name).map fun w => (w.lang, w.text)).Perm ((history calls).texts name) ∧
      ((table calls).texts name).Pairwise (·.lang < ·.lang) ∧ ∀ pos, (table calls).wordings name pos =
        if (history calls).texts name = [] then .error (notDefined name pos) else .ok ((table calls).texts name) := by
  have hr := reflects_calls calls
  refine ⟨hr.resolved, ?_, ?_, fun c => (hr.step c).2, fun name => ⟨hr.texts name, hr.sorted name, ?_⟩⟩
  · intro name name' id hname hname'
    obtain ⟨hmem, hid⟩ := hr.resolved name id hname
    have hid' := (hr.resolved name' id hname').2
    exact (idxOf_inj hmem).mp (by omega)
  · intro name pos
    rw [hr.resolve_eq]
    simp only [apply_ite Prod.fst]
    rfl
  · intro pos
    have hdefined := hr.defined name
    unfold wordings texts
    cases hws : (table calls).wordings? name with
    | none => rw [if_pos (hdefined.mp hws)]
    | some ws =>
      have hsome : (history calls).texts name ≠ [] := fun hnone => by simp [hdefined.mpr hnone] at hws
      rw [if_neg hsome]
      rfl

end Grf.StringTable
