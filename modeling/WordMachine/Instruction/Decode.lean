import WordMachine.Word.Decode

/-!
Programs in data. Checked reading admits an instruction only with its fields of the right types and
in the right shape; loose reading takes the fields as they stand.
-/
namespace WordMachine

open Checked

namespace Argument

def form (room : Option Nat) : String → Option (Fields → Checked Argument)
  | "reg" => some fun fs => .reg <$> required fs "index" integer
  | "imm" => some fun fs => .imm <$> required fs "value" (Word.decode room)
  | "absolute" => some fun fs => .absolute <$> required fs "index" integer
  | "indirect" => some fun fs => .indirect <$> required fs "reg" integer
  | _ => none

def operandForm (room : Option Nat) (tag : String) : Option (Fields → Checked Argument) :=
  if tag = "reg" ∨ tag = "imm" then form room tag else none

def addressForm (room : Option Nat) (tag : String) : Option (Fields → Checked Argument) :=
  if tag = "absolute" ∨ tag = "indirect" then form room tag else none

def decodeOperand (room : Option Nat) : Json → Checked Argument := tagged (operandForm room)
def decodeAddress (room : Option Nat) : Json → Checked Argument := tagged (addressForm room)

def ofFields (fields : Fields) : Except Error Argument :=
  match Json.get? fields "kind" with
  | some (.str tag) =>
    match form Word.usualRoom tag with
    | some check => (check fields).toExcept
    | none => .error (.unknownForm (.text tag))
  | some tag =>
    let tag := Scalar.ofJson tag
    .error (if tag.isCompound then .mistyped else .unknownForm tag)
  | none => .error (.missingKey "kind")

/-- A record in any of the four forms. What is not a record stands for itself. -/
def decodeLoose : Json → Except Error (Field Argument)
  | .obj fields => .known <$> ofFields fields
  | v => .ok (.other (.ofJson v))

end Argument

namespace Instruction

def need {α : Type} (fs : Fields) (name : String) (check : Json → Checked α) :
    Checked (Field α) :=
  .known <$> required fs name check

def option {α : Type} (fs : Fields) (name : String) (check : Json → Checked α) :
    Checked (Field α) :=
  .ofOption <$> nullable fs name check

open Argument in
def form (room : Option Nat) : String → Option (Fields → Checked Instruction)
  | "alu" => some fun fs =>
    .alu <$> need fs "opcode" named <*> need fs "dest" integer
      <*> need fs "a" (decodeOperand room) <*> option fs "b" (decodeOperand room)
  | "load" => some fun fs =>
    .load <$> need fs "dest" integer <*> need fs "address" (decodeAddress room)
  | "store" => some fun fs =>
    .store <$> need fs "src" integer <*> need fs "address" (decodeAddress room)
  | "load_const" => some fun fs =>
    .loadConst <$> need fs "dest" integer <*> need fs "value" (Word.decode room)
  | "move_reg" => some fun fs => .moveReg <$> need fs "dest" integer <*> need fs "src" integer
  | "content_store" => some fun fs =>
    .content <$> need fs "action" named <*> need fs "digest_reg" integer
      <*> need fs "address" (decodeAddress room) <*> need fs "length_reg" integer
  | "drs" => some fun fs =>
    .triple <$> need fs "action" named <*> option fs "subject" (decodeOperand room)
      <*> option fs "relation" (decodeOperand room) <*> option fs "obj" (decodeOperand room)
      <*> option fs "count_reg" integer <*> option fs "out_address" (decodeAddress room)
  | "apply_rule" => some fun fs => .applyRule <$> need fs "rule" string <*> need fs "reg" integer
  | "jump_if" => some fun fs =>
    .jumpIf <$> need fs "condition" named <*> need fs "target" integer
  | "jump" => some fun fs => .jump <$> need fs "target" integer
  | "halt" => some fun _ => .ok .halt
  | _ => none

def shaped (i : Instruction) : Checked Instruction :=
  match i.defect? with
  | some d => .fail (.rejected (.shape d))
  | none => .ok i

def decode (room : Option Nat) : Json → Checked Instruction :=
  tagged fun tag => (form room tag).map fun check fields => (check fields).andThen shaped

/-- The names of fields that hold a name from a fixed set. -/
def codeNames : List String := ["kind", "opcode", "condition", "action"]

def optionNames : List String := ["b", "subject", "relation", "obj", "count_reg", "out_address"]

/-- A field of an instruction of the given kind, read without a check of its kind. -/
private def loose {α : Type} (fs : Fields) (kind : String) (take : Json → Except Error (Field α))
    (name : String) : Except Error (Field α) :=
  match Json.get? fs name with
  | some v => take v
  | none => .ok (if name ∈ optionNames then .null else .absent kind name)

/-- A record is an argument, whatever its place calls for. -/
private def unlessRecord {α : Type} (take : Json → Except Error (Field α)) :
    Json → Except Error (Field α)
  | .obj fields => (fun a => .other (.argument a)) <$> Argument.ofFields fields
  | v => take v

private def looseWord : Json → Except Error (Field Word) :=
  unlessRecord fun v => .known <$> (Word.decodeShort v).toExcept

def looseForm (fs : Fields) (kind : String) : Except Error Instruction :=
  let argument := loose fs kind Argument.decodeLoose
  let index := loose fs kind (unlessRecord fun v => .ok (.integer v))
  match kind with
  | "alu" =>
    .alu <$> loose fs kind (fun v => .ok (.named v)) "opcode" <*> index "dest" <*> argument "a"
      <*> argument "b"
  | "load" => .load <$> index "dest" <*> argument "address"
  | "store" => .store <$> index "src" <*> argument "address"
  | "load_const" => .loadConst <$> index "dest" <*> loose fs kind looseWord "value"
  | "move_reg" => .moveReg <$> index "dest" <*> index "src"
  | "content_store" =>
    .content <$> loose fs kind (fun v => .ok (.named v)) "action" <*> index "digest_reg"
      <*> argument "address" <*> index "length_reg"
  | "drs" =>
    .triple <$> loose fs kind (fun v => .ok (.named v)) "action" <*> argument "subject"
      <*> argument "relation" <*> argument "obj" <*> index "count_reg" <*> argument "out_address"
  | "apply_rule" =>
    .applyRule <$> loose fs kind (unlessRecord fun v => .ok (.string v)) "rule" <*> index "reg"
  | "jump_if" =>
    .jumpIf <$> loose fs kind (fun v => .ok (.named v)) "condition" <*> index "target"
  | "jump" => .jump <$> index "target"
  | "halt" => .ok .halt
  | _ => .ok (.foreign (.text kind))

/-- Refuses an argument or word that cannot be read; the first in the order written counts. -/
def checkParts (fs : Fields) : Except Error Unit :=
  fs.forM fun (name, v) =>
    if name ∈ codeNames then .ok ()
    else if name = "value" then discard (looseWord v)
    else discard (Argument.decodeLoose v)

/-- An instruction as written: arguments of any form in any place, other fields of any kind. -/
def decodeLoose (fs : Fields) : Except Error Instruction := do
  match Json.get? fs "kind" with
  | some (.str kind) =>
    if (form Word.usualRoom kind).isSome then checkParts fs
    looseForm fs kind
  | some v =>
    let kind := Scalar.ofJson v
    if kind.isCompound then throw .mistyped
    return .foreign kind
  | none => throw (.missingKey "kind")

end Instruction

namespace Instruction

/-- The check of an opcode and its operands, which are taken as they come. -/
def inspectAlu (opcode : Field Opcode) (a b : Field Argument) : Except Error (Option Defect) :=
  match opcode with
  | .known code =>
    match aluDefect code a b with
    | some .notImmediate | some .notRegister => do
      a.demand
      return aluDefect code a b
    | d => .ok d
  | .other v =>
    if v.isCompound then .error .mistyped
    else if b.isNull then .error (.unlistedCode v)
    else .ok none
  | .absent kind name => .error (.absentField kind name)

def inspectTriple (action : Field TripleAction) (subject relation object : Field Argument)
    (countReg : Field Int) (outAddress : Field Argument) : Except Error (Option Defect) :=
  match action with
  | .known code => .ok (tripleDefect code subject relation object countReg outAddress)
  | .other v => if countReg.isNull then .error (.unlistedCode v) else .ok none
  | .absent kind name => .error (.absentField kind name)

/-- The issue of an instruction whose fields are taken as they come: its kind must be known, and it
must not have a defect. -/
def inspect (i : Instruction) : Except Error (Option Issue) := do
  let defect ← match i with
    | .alu opcode _ a b => inspectAlu opcode a b
    | .triple action s r o count out => inspectTriple action s r o count out
    | .foreign _ => return some ⟨[], .tagUnknown⟩
    | _ => pure none
  return defect.map fun d => ⟨[.field i.kind], .rejected (.shape d)⟩

end Instruction

namespace Program

def inspect : Nat → List Instruction → Except Error (List Issue)
  | _, [] => .ok []
  | start, i :: rest => do
    let issue ← i.inspect
    let issues ← inspect (start + 1) rest
    return (issue.map fun e => { e with path := .field "ops" :: .index start :: e.path }).toList ++
      issues

/-- A program with its instructions `count` times over. It is put together anew, and so the shape
of each instruction is checked. -/
def repeated (p : Program) (count : Int) : Except Error Program := do
  let ops := (List.replicate count.toNat p.ops.toList).flatten
  match ← inspect 0 ops with
  | [] => return { p with ops := ops.toArray }
  | issues => throw (.invalid issues)

def ofOps (ops : List Instruction) : Program := ⟨defaultName, ops.toArray⟩

def decode (room : Option Nat) : Json → Checked Program
  | .obj fs =>
    (fun name ops => ⟨name, ops.toArray⟩) <$> orDefault fs "name" defaultName string
      <*> orDefault fs "ops" [] (array (Instruction.decode room))
  | _ => .fail .notRecord

def decodeOps (room : Option Nat) (items : List Json) : Checked Program :=
  decode room (.obj [("ops", .arr items)])

end Program
end WordMachine
