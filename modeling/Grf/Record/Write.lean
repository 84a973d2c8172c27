import Grf.Output.Listing
import Grf.Output.Recorder
import Grf.Record.Basic

/-! # Writing records

The layout of each kind of record as a list of tokens. A record that is no real sprite is written as a
pseudo sprite of its announced size.
-/

namespace Grf

open Token

def joinTokens (parts : List (Except Fault (List Token))) : Except Fault (List Token) :=
  return (← parts.mapM id).flatten

def lineBreak : Token := .lineEnd ""

def zeroText (text : String) : Except Fault (List Token) :=
  return [← ofText (Text.bytesOf text) true false]

def GrfId.tokens (id : GrfId) : List Token := id.bytes.map .byte

def PropertyEntry.tokens (e : PropertyEntry) : Except Fault (List Token) := do
  let value ← match e.content with
    | .value value => value.tokens e.size
    | .items items => return [byteOf e.num, byteOf items.length]
        ++ (← items.mapM (sized · e.size)) ++ [lineBreak]
  return byteOf e.num :: value ++ [lineBreak]

/-- The operators and operands of a stream. All operands but one at the very end are marked as
followed by another. -/
def streamTokens (varSize : Int) : List StreamItem → Except Fault (List Token)
  | [] => .ok []
  | .op op :: rest => do
    return byteOf ((op.tableCode?.getD 0 : Nat) : Int) :: (← streamTokens varSize rest)
  | .operand value :: rest => do
    let here ← value.tokensAs rest.isEmpty varSize
    return here ++ lineBreak :: (← streamTokens varSize rest)

def TableRange.tokens (varSize : Int) (r : TableRange) : Except Fault (List Token) :=
  return [wordOf r.result.word, ← sized r.min varSize, ← sized r.max varSize, lineBreak]

def TableRecord.tokens (t : TableRecord) : Except Fault (List Token) :=
  joinTokens [
    .ok [byteOf 0x02, byteOf t.feature, byteOf t.id, byteOf t.typeByte, .lineEnd t.name],
    streamTokens t.varSize t.stream,
    .ok [byteOf t.ranges.length],
    return (← t.ranges.mapM (·.tokens t.varSize)).flatten,
    .ok [wordOf t.default.word]]

def GraphicsRef.tokens (r : GraphicsRef) : Except Fault (List Token) :=
  (Expr.record r.name r.id).tokens 2

def GraphicsRecord.tokens (t : GraphicsRecord) : Except Fault (List Token) :=
  joinTokens [
    .ok ([byteOf 0x03, byteOf t.feature,
      byteOf (t.ids.length + (if t.livery then 0x80 else 0 : Nat))]
      ++ t.ids.flatMap extended ++ [lineBreak, byteOf t.cargo.length]),
    return (← t.cargo.mapM fun (cargo, ref) =>
      return byteOf cargo :: (← ref.tokens) ++ [lineBreak]).flatten,
    t.default.tokens]

def MessageRecord.tokens (m : MessageRecord) : Except Fault (List Token) :=
  joinTokens [
    .ok [byteOf 0x0B, byteOf m.severity, byteOf m.lang, byteOf m.msgId],
    if m.msgId = customId then zeroText m.custom else .ok [],
    match m.data with
    | some data => return (← zeroText data) ++ m.params.map byteOf
    | none => .ok []]

namespace Record

def tokens (r : Record) : Except Fault (List Token) :=
  match r.body with
  | .spriteCount count => .ok [dwordOf count]
  | .grfInfo id name description =>
    joinTokens [.ok ([byteOf 0x08, byteOf 8] ++ id.tokens ++ [lineBreak]), zeroText name,
      .ok [lineBreak], zeroText description]
  | .propertyTable feature id entries =>
    joinTokens [
      .ok [byteOf 0x00, byteOf feature, byteOf entries.length, byteOf 1, byteOf 0xFF, wordOf id,
        lineBreak],
      return (← entries.mapM (·.tokens)).flatten]
  | .spriteTable feature sets sprites =>
    .ok ([byteOf 0x01, byteOf feature, byteOf sets] ++ extended sprites)
  | .spriteGroup g =>
    .ok ([byteOf 0x02, byteOf g.feature, byteOf g.id, byteOf g.loaded.length, byteOf g.loading.length,
      .lineEnd g.name] ++ (g.loaded ++ g.loading).map fun (set : Nat) => wordOf set)
  | .decisionTable t => t.tokens
  | .graphicsTable t => t.tokens
  | .stringDefinition feature lang id content =>
    joinTokens [
      .ok [byteOf 0x04, byteOf feature, byteOf (lang + 0x80), byteOf 1, wordOf id], zeroText content]
  | .bytePatchTable patches =>
    .ok (byteOf 0x06 :: patches.flatMap (fun p =>
      [byteOf p.param, byteOf p.size] ++ extended p.offset ++ [lineBreak]) ++ [byteOf 0xFF])
  | .skip action condition target => do
    let value ← sized condition.value condition.size
    return [byteOf action.code, byteOf condition.param, byteOf condition.size, byteOf condition.cond,
      value, byteOf target]
  | .rangeReplace ranges =>
    .ok ([byteOf 0x0A, byteOf ranges.length]
      ++ ranges.flatMap fun (count, first) => [byteOf count, wordOf first])
  | .errorMessage m => m.tokens
  | .paramAssignment a =>
    .ok ([byteOf 0x0D, byteOf a.target, byteOf a.op, byteOf a.src1, byteOf a.src2]
      ++ if a.hasData then [dwordOf a.data] else [])
  | .deactivation ids => .ok ([byteOf 0x0E, byteOf ids.length] ++ ids.flatMap GrfId.tokens)
  | .jumpTarget label => .ok [byteOf 0x10, byteOf label]
  | .realSprite .. => .ok []

def write {σ : Type} [Output σ] (r : Record) : Writing σ Unit :=
  match r.body with
  | .realSprite _ num => Output.reference num
  | _ => Output.pseudo (r.size?.getD 0) r.tokens

end Record

def writeAll {σ : Type} [Output σ] (records : List Record) : Writing σ (Option Error) := do
  records.forM Record.write
  Output.close

end Grf
