import Mathlib.Tactic
import Grf.Record.Basic

/-! # How the engine runs records

The engine reads the records of a file from first to last. An assignment changes a parameter, byte patches change the
record after them, and a skip whose test is true passes over records: over the next `target` ones if the target is at
most the inline limit, and to the next marker of the label `target` otherwise. All other records are only noted.

A pass is the fold of one step, `Engine.step`. Between two records the engine executes, drops a number of records, or
seeks a label. A label that is not found is sought again from the first record on: such a pass ends in the mode
`seeking`, and the next one starts in it.
-/

namespace Grf

def Word.lowByte (w : Word) : Int := (w.toNat % 256 : Nat)

abbrev Params := Int → Word

namespace Params

/-- The value a parameter is read as. One of them reads as all ones, whatever is assigned to it. -/
def read (p : Params) (number : Int) : Word :=
  if number = SkipCondition.always.param then BitVec.allOnes 32 else p number

def byte (p : Params) (number : Int) : Int := (p.read number).lowByte

def set (p : Params) (number : Int) (value : Word) : Params := fun n => if n = number then value else p n

@[simp] theorem set_self (p : Params) (number : Int) (value : Word) : p.set number value number = value := by
  simp [set]

theorem set_of_ne (p : Params) (number : Int) (value : Word) {n : Int} (h : n ≠ number) :
    p.set number value n = p n := by
  simp [set, h]

theorem read_of_ne (p : Params) {n : Int} (h : n ≠ SkipCondition.always.param) : p.read n = p n := by
  simp [read, h]

theorem read_congr {p q : Params} {n : Int} (h : p n = q n) : p.read n = q.read n := by
  simp [read, h]

end Params

/-- A shift by a count with a sign: to the left, or to the right if the count is negative. Counts are
taken modulo 32. -/
def Word.shiftBy (right : Word → Nat → Word) (value count : Word) : Word :=
  if 0 ≤ count.toInt then value <<< (count.toInt.toNat % 32)
  else right value ((-count.toInt).toNat % 32)

namespace AssignRecord

def compute (code : Int) (l r : Word) : Word :=
  match code with
  | 0x01 => l + r
  | 0x02 => l - r
  | 0x04 => l * r
  | 0x05 => Word.shiftBy (· >>> ·) l r
  | 0x06 => Word.shiftBy BitVec.sshiftRight l r
  | 0x07 => l &&& r
  | 0x08 => l ||| r
  | 0x09 => l / r
  | 0x0A => l.sdiv r
  | 0x0B => l % r
  | 0x0C => l.srem r
  | _ => l

/-- The value of a source byte: the data of the record, or a parameter. -/
def source (a : AssignRecord) (p : Params) (byte : Int) : Word :=
  if byte = dataSource then Word.ofInt a.data else p.read byte

def value (a : AssignRecord) (p : Params) : Word := compute a.op (a.source p a.src1) (a.source p a.src2)

/-- An assignment with a byte patched: its target or its first source. -/
def patch (p : Params) (a : AssignRecord) (patch : Patch) : AssignRecord :=
  if patch.offset = targetOffset then { a with target := p.byte patch.param }
  else if patch.offset = src1Offset then { a with src1 := p.byte patch.param }
  else a

def patched (a : AssignRecord) (p : Params) (patches : List Patch) : AssignRecord := patches.foldl (patch p) a

def exec (a : AssignRecord) (p : Params) : Params := p.set a.target (a.value p)

end AssignRecord

/-- Whether the test of a skip is true. Numbers are compared without a sign, as many bytes of them as
the test says. The value of a bit test is the number of the bit. -/
def SkipCondition.holds (c : SkipCondition) (p : Params) : Bool :=
  let raw := p.read c.param
  let left := raw &&& Word.ofInt (VarRead.fullMask c.size)
  let right := Word.ofInt c.value
  if c.cond = bitSet then raw.getLsbD c.value.toNat
  else if c.cond = bitClear then !raw.getLsbD c.value.toNat
  else if c.cond = equal then left == right
  else if c.cond = notEqual then left != right
  else if c.cond = less then left.ult right
  else if c.cond = greater then right.ult left
  else false

theorem SkipCondition.holds_always (p : Params) : SkipCondition.always.holds p = true := by
  simp [holds, always, Params.read]

theorem SkipCondition.holds_congr {c : SkipCondition} {p q : Params} (h : p c.param = q c.param) :
    c.holds p = c.holds q := by
  simp only [holds, Params.read_congr h]

/-- What the engine does with the next record: it executes it, drops it and `more` others, or drops it
unless it is the marker of a label. -/
inductive Mode
  | running
  | dropping (more : Nat)
  | seeking (label : Int)
deriving DecidableEq, Repr

def Mode.skipping (limit : Nat) (target : Int) : Mode :=
  if target ≤ limit then
    match target.toNat with
    | 0 => running
    | n + 1 => dropping n
  else seeking target

/-- A record that has been executed, with the values that were patched into it. -/
structure Executed where
  record : Record
  patched : List (Patch × Word)

/-- The engine between two records: the parameters, the patches for the next record, the mode, and the
records executed so far. -/
structure Engine where
  params : Params
  pending : List Patch := []
  mode : Mode := .running
  log : List Executed := []

namespace Engine

def execute (e : Engine) (r : Record) : Engine :=
  let noted := { e with
    pending := []
    log := e.log ++ [⟨r, e.pending.map fun patch => (patch, e.params.read patch.param)⟩] }
  match r.body with
  | .bytePatchTable patches => { noted with pending := patches }
  | .paramAssignment a => { noted with params := (a.patched e.params e.pending).exec e.params }
  | _ => noted

def executeAll (e : Engine) (records : List Record) : Engine := records.foldl execute e

def step (limit : Nat) (e : Engine) (r : Record) : Engine :=
  match e.mode, r.body with
  | .running, .skip _ test target =>
    { e with pending := [], mode := if test.holds e.params then .skipping limit target else .running }
  | .running, .jumpTarget _ => { e with pending := [] }
  | .running, _ => e.execute r
  | .dropping 0, _ => { e with mode := .running }
  | .dropping (more + 1), _ => { e with mode := .dropping more }
  | .seeking label, .jumpTarget found => if found = label then { e with mode := .running } else e
  | .seeking _, _ => e

def run (limit : Nat) (e : Engine) (records : List Record) : Engine := records.foldl (step limit) e

variable {limit : Nat} {e : Engine}

@[simp] theorem run_nil : e.run limit [] = e := rfl

@[simp] theorem run_cons (r : Record) (records : List Record) :
    e.run limit (r :: records) = (e.step limit r).run limit records := rfl

theorem run_append (first second : List Record) :
    e.run limit (first ++ second) = (e.run limit first).run limit second := by
  simp [run]

@[simp] theorem executeAll_nil : e.executeAll [] = e := rfl

@[simp] theorem executeAll_cons (r : Record) (records : List Record) :
    e.executeAll (r :: records) = (e.execute r).executeAll records := rfl

theorem executeAll_append (first second : List Record) :
    e.executeAll (first ++ second) = (e.executeAll first).executeAll second := by
  simp [executeAll]

end Engine

end Grf
