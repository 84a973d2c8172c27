import Grf.Proofs.Conditional.Scaffold
import Grf.Proofs.Lowering.Keeps
import Grf.Proofs.Skip.Guard

/-! # What scaffolds mean

A scaffold keeps apart the records of each branch, what is computed for the conditions, and the guards around both.
`Outlines ds s` says that it has the structure of the declarations `ds`, and `Scaffold.exec?` what these are meant to
do: of the branches of a conditional, the first one whose condition is true on reaching it is executed, and no other
one.
-/

namespace Grf

open Guard

namespace Scaffold

/-- The engine after what a scaffold is meant to do: of a branch and the branches after it, the branch
is executed if its condition is true on reaching it, and the others are tried otherwise. There is no
result if a condition has no truth value, or at a loop. -/
def exec? : Scaffold Record → Engine → Option Engine
  | done, e => some e
  | leaf _ records, e => some (e.executeAll records)
  | append first second, e => (first.exec? e).bind second.exec?
  | chain start arms, e => arms.exec? (e.executeAll [start])
  | branch cond before mark _ _ body rest, e =>
    match cond.isTrue? e.params with
    | none => none
    | some true => body.exec? ((e.executeAll before).executeAll mark)
    | some false => rest.exec? (e.executeAll before)
  | last _ body, e => body.exec? e
  | loop .., _ => none

/-- Whether every guard on the way stays open. This is asked of the guards that are reached while no
branch before them has been taken and, for the inner guard of a branch, if its condition is true. -/
def GuardsStay (limit : Nat) : Scaffold Record → Engine → Prop
  | done, _ | leaf .., _ | loop .., _ => True
  | append first second, e =>
    first.GuardsStay limit e ∧ ∀ e', first.exec? e = some e' → second.GuardsStay limit e'
  | chain start arms, e => arms.GuardsStay limit (e.executeAll [start])
  | branch cond before mark inner outer body rest, e =>
    cond.CanTest e.params ∧
    (∀ g ∈ outer, g.Stays limit (before ++ inner.around (mark ++ body.elements)) e) ∧
    (cond.isTrue? e.params = some true → inner.Stays limit (mark ++ body.elements) (e.executeAll before) ∧
        body.GuardsStay limit ((e.executeAll before).executeAll mark)) ∧
    (cond.isTrue? e.params = some false → rest.GuardsStay limit (e.executeAll before))
  | last g body, e => g.Stays limit body.elements e ∧ body.GuardsStay limit e

end Scaffold

/-! ## The outline of declarations -/

/-- What is put first into a branch: nothing, or the assignment of zero to a temporary parameter, which tells
that a branch has been taken. -/
def IsMark (pos : Position) (mark : List Record) : Prop :=
  mark = [] ∨ ∃ t, IsTemporary t ∧ mark = [.constantAssignment t 0 pos]

mutual

/-- The outline of a list of declarations. -/
inductive Outlines : List Declaration → Scaffold Record → Prop
  | nil : Outlines [] .done
  | cons {d : Declaration} {ds : List Declaration} {s s' : Scaffold Record} (h : OutlinesOne d s)
      (h' : Outlines ds s') : Outlines (d :: ds) (.append s s')

/-- The outline of a declaration. -/
inductive OutlinesOne : Declaration → Scaffold Record → Prop
  | simple {d : Declaration} {c c' : Context} {rs : List Record} (hc : c.InRange) (hd : d.IsSimple)
      (h : d.lower c = .ok rs c') : OutlinesOne d (.leaf d rs)
  | conditional {branches : List (IfBranch Declaration)} {pos : Position} {s : Scaffold Record}
      (h : OutlinesBranches branches s) : OutlinesOne (.conditional branches pos) s
  | chain {branches : List (IfBranch Declaration)} {pos : Position} {t : Int} {s : Scaffold Record}
      (ht : IsTemporary t) (h : OutlinesBranches branches s) :
      OutlinesOne (.conditional branches pos) (.chain (.constantAssignment t 0xFFFFFFFF pos) s)
  | never {cond : Expr} {body : List Declaration} {pos : Position}
      (hcond : constantCondition? cond = some false) : OutlinesOne (.loop cond body pos) .done
  | forever {cond : Expr} {body : List Declaration} {pos : Position} {label : Int} {s : Scaffold Record}
      (hcond : constantCondition? cond = some true) (hlabel : 0x80 ≤ label) (h : Outlines body s) :
      OutlinesOne (.loop cond body pos) (.loop cond (.ofLabel label pos) [] none s (.jumpTo label pos))
  | loop {cond : Expr} {body : List Declaration} {pos : Position} {label : Int} {c c' : Context}
      {before : List Record} {g : Guard Record} {s : Scaffold Record} (hc : c.InRange) (hlabel : 0x80 ≤ label)
      (hbefore : Lowering.lowerCondition cond pos c = .ok (before, g.test) c') (h : Outlines body s) :
      OutlinesOne (.loop cond body pos) (.loop cond (.ofLabel label pos) before (some g) s (.jumpTo label pos))

/-- The outline of the branches of a conditional. A branch is left out if its condition is never true,
and a branch whose condition is never false is the last one. -/
inductive OutlinesBranches : List (IfBranch Declaration) → Scaffold Record → Prop
  | nil : OutlinesBranches [] .done
  | never {cond : Expr} {body : List Declaration} {pos : Position} {rest : List (IfBranch Declaration)}
      {s : Scaffold Record} (hcond : ∀ p, cond.isTrue? p ≠ some true) (h : OutlinesBranches rest s) :
      OutlinesBranches (⟨some cond, body, pos⟩ :: rest) s
  | always {cond : Option Expr} {body : List Declaration} {pos : Position}
      {rest : List (IfBranch Declaration)} {s : Scaffold Record}
      (hcond : ∀ e ∈ cond, ∀ p, e.isTrue? p ≠ some false) (h : Outlines body s) :
      OutlinesBranches (⟨cond, body, pos⟩ :: rest) s
  | last {cond : Option Expr} {body : List Declaration} {pos : Position}
      {rest : List (IfBranch Declaration)} {g : Guard Record} {s : Scaffold Record}
      (hcond : ∀ e ∈ cond, ∀ p, e.isTrue? p ≠ some false) (h : Outlines body s) :
      OutlinesBranches (⟨cond, body, pos⟩ :: rest) (.last g s)
  | branch {cond : Expr} {body : List Declaration} {pos : Position} {rest : List (IfBranch Declaration)}
      {c c' : Context} {before mark : List Record} {inner : Guard Record} {outer : Option (Guard Record)}
      {s s' : Scaffold Record} (hc : c.InRange)
      (hbefore : Lowering.lowerCondition cond pos c = .ok (before, inner.test) c')
      (hmark : IsMark pos mark) (h : Outlines body s) (h' : OutlinesBranches rest s') :
      OutlinesBranches (⟨some cond, body, pos⟩ :: rest) (.branch cond before mark inner outer s s')

end

/-- Whether every guard of a scaffold is formed for the list around which it stands, every loop starts with a label
and ends with a jump to it, and no other records are skips or labels. -/
def Scaffold.Laid (limit : Nat) : Scaffold Record → Prop
  | done => True
  | leaf _ records => ∀ r ∈ records, ¬r.IsControl
  | append first second => first.Laid limit ∧ second.Laid limit
  | chain start arms => ¬start.IsControl ∧ arms.Laid limit
  | branch _ before mark inner outer body rest =>
    (∀ r ∈ before ++ mark, ¬r.IsControl) ∧ inner.Formed limit (mark ++ body.elements) ∧
      (∀ g ∈ outer, g.Formed limit (before ++ inner.around (mark ++ body.elements))) ∧
      body.Laid limit ∧ rest.Laid limit
  | last g body => g.Formed limit body.elements ∧ body.Laid limit
  | loop _ start before g body jump =>
    (∃ (label : Int) (pos : Position), 0x80 ≤ label ∧ start = .ofLabel label pos ∧ jump = .jumpTo label pos) ∧
      (∀ r ∈ before, ¬r.IsControl) ∧ (∀ g' ∈ g, g'.Formed limit (body.elements ++ [jump])) ∧ body.Laid limit

/-- The test of the parameter that tells whether a branch has been taken. -/
def takenTest (untaken : Int) : SkipCondition := ⟨untaken, 4, SkipCondition.equal, 0⟩

/-- A branch tests its condition, and no parameter `held` is changed by that. -/
structure BranchFormed (limit : Nat) (held : Int → Prop) (cond : Expr) (before mark : List Record)
    (inner : Guard Record) (body : List Record) : Prop where
  scratch : Straight (fun t => ¬held t) False before
  holds : ∀ (e : Engine) b, e.pending = [] → cond.CanTest e.params → cond.isTrue? e.params = some b →
    inner.test.holds (e.executeAll before).params = !b
  formed : inner.Formed limit (mark ++ body)

mutual

/-- A scaffold that leaves the temporary parameters `held` alone, except by assignments with computed
targets. -/
inductive Scaffold.Formed (limit : Nat) : (Int → Prop) → Scaffold Record → Prop
  | done {held : Int → Prop} : Formed limit held .done
  | leaf {held : Int → Prop} {decl : Declaration} {rs : List Record} (h : Lowering.Keeps held rs) :
      Formed limit held (.leaf decl rs)
  | append {held : Int → Prop} {s s' : Scaffold Record} (h : Formed limit held s) (h' : Formed limit held s') :
      Formed limit held (.append s s')
  | branch {held : Int → Prop} {cond : Expr} {before : List Record} {inner : Guard Record}
      {body : Scaffold Record} (hbranch : BranchFormed limit held cond before [] inner body.elements)
      (hbody : Formed limit held body) : Formed limit held (.branch cond before [] inner none body .done)
  | chain {held : Int → Prop} {untaken : Int} {pos : Position} {arms : Scaffold Record}
      (htemp : IsTemporary untaken) (hfresh : ¬held untaken)
      (harms : Scaffold.Arms limit (fun t => held t ∨ t = untaken) untaken true arms) :
      Formed limit held (.chain (.constantAssignment untaken 0xFFFFFFFF pos) arms)
  | loop {held : Int → Prop} {cond : Expr} {label : Record} {before : List Record} {g : Option (Guard Record)}
      {body : Scaffold Record} {jump : Record} : Formed limit held (.loop cond label before g body jump)

/-- The branches of a conditional that share the parameter `untaken`: from the first one on, or after
the first one. -/
inductive Scaffold.Arms (limit : Nat) : (Int → Prop) → Int → Bool → Scaffold Record → Prop
  | done {held : Int → Prop} {untaken : Int} {first : Bool} : Arms limit held untaken first .done
  | last {held : Int → Prop} {untaken : Int} {g : Guard Record} {body : Scaffold Record}
      (htest : g.test = takenTest untaken) (hguard : g.Formed limit body.elements)
      (hbody : Scaffold.Formed limit held body) : Arms limit held untaken false (.last g body)
  | first {held : Int → Prop} {untaken : Int} {cond : Expr} {before : List Record} {pos : Position}
      {inner : Guard Record} {body rest : Scaffold Record}
      (hbranch : BranchFormed limit held cond before [.constantAssignment untaken 0 pos] inner body.elements)
      (hbody : Scaffold.Formed limit held body) (hrest : Arms limit held untaken false rest) :
      Arms limit held untaken true (.branch cond before [.constantAssignment untaken 0 pos] inner none body rest)
  | other {held : Int → Prop} {untaken : Int} {cond : Expr} {before mark : List Record} {pos : Position}
      {inner outer : Guard Record} {body rest : Scaffold Record}
      (hbranch : BranchFormed limit held cond before mark inner body.elements)
      (hmark : mark = [.constantAssignment untaken 0 pos] ∨ mark = [] ∧ rest = .done)
      (htest : outer.test = takenTest untaken)
      (houter : outer.Formed limit (before ++ inner.around (mark ++ body.elements)))
      (hbody : Scaffold.Formed limit held body) (hrest : Arms limit held untaken false rest) :
      Arms limit held untaken false (.branch cond before mark inner (some outer) body rest)

end

end Grf
