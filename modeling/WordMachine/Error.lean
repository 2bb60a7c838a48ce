import WordMachine.Issue
import WordMachine.Text.Quoted

/-!
What can go wrong. Faults end a run in an orderly way; any other error escapes from it. Every cause
is a constructor, and its wording is given here once.
-/
namespace WordMachine

inductive StoreError
  | character (c : Word) (width : Int)
  | collision (key : Word) (held : Nat)
  | notFound (digest : Word)
  | noDynamics
  | refused (text : String)
  | absent (text : String)
  /-- A missing key that the store did not turn into a refusal of its own. -/
  | missingKey (text : String)
deriving DecidableEq

namespace StoreError

/-- The wording; what speaks of a missing key is quoted. -/
def message : StoreError → String
  | .character c width => s!"character {c.describe} is not {width} bits wide"
  | .collision key held =>
    s!"digest collision at {key.hex}: already holds a different {held}-element sequence"
  | .notFound digest => Text.quoted s!"no content stored under digest {digest.hex}"
  | .noDynamics => "basin queries need a dynamics module"
  | .refused text => text
  | .absent text => Text.quoted text
  | .missingKey text => Text.quoted text

/-- The numbers that the wording holds in decimal. -/
def numbers : StoreError → List Int
  | .character c width => width :: c.numbers
  | .collision _ held => [held]
  | _ => []

/-- Whether the store itself refuses, rather than failing inside. -/
def isRefusal : StoreError → Bool
  | .missingKey _ => false
  | _ => true

end StoreError

inductive FaultKind
  | decode | address | control | resource | store
deriving DecidableEq

inductive Fault
  | registerIndex (index : Field Int)
  | immediateWidth (value : Word) (width : Nat)
  | constantWidth (value : Word) (width : Nat)
  | malformedOperand (operand : Field Argument)
  | malformedAddress (address : Field Argument)
  | operandMissing (opcode : Opcode)
  | unknownOpcode (v : Scalar)
  | unknownKind (kind : Scalar)
  | unknownContentAction (v : Scalar)
  | unknownTripleAction (v : Scalar)
  | unknownCondition (v : Scalar)
  | unknownRule (name : String)
  | address (address : Int) (size : Nat)
  | span (address length : Int) (size : Nat)
  | counter (pc : Field Int) (size : Nat)
  | target (target : Field Int) (size : Nat)
  | stepLimit (limit : Nat) (pc : Field Int)
  | noContentStore
  | contentWidth (store : Int) (machine : Nat)
  | enfold (reason : StoreError)
  | unfold (digest : Word) (reason : StoreError)
  | resultCount (count width : Nat)
  | resultWidth (value : Word) (width : Nat)
  | noTripleStore
  | insert (reason : StoreError)
  | query (reason : StoreError)
  | noBasins
  | noDynamics
deriving DecidableEq

namespace Fault

def kind : Fault → FaultKind
  | .registerIndex .. | .immediateWidth .. | .constantWidth .. | .malformedOperand ..
  | .malformedAddress .. | .operandMissing .. | .unknownOpcode .. | .unknownKind ..
  | .unknownContentAction .. | .unknownTripleAction .. | .unknownCondition .. | .unknownRule .. =>
    .decode
  | .address .. | .span .. => .address
  | .counter .. | .target .. => .control
  | .stepLimit .. => .resource
  | .noContentStore | .contentWidth .. | .enfold .. | .unfold .. | .resultCount ..
  | .resultWidth .. | .noTripleStore | .insert .. | .query .. | .noBasins | .noDynamics => .store

def indices (size : Nat) : String :=
  let last : Int := size - 1
  s!"(0..{last})"

def message : Fault → String
  | .registerIndex i => s!"register index {i.indexText} out of range (0..3)"
  | .immediateWidth v w => s!"immediate {v.describe} is not {w} bits wide"
  | .constantWidth v w => s!"value {v.describe} is not {w} bits wide"
  | .malformedOperand a => s!"malformed operand: {a.argumentText}"
  | .malformedAddress a => s!"malformed address: {a.argumentText}"
  | .operandMissing op => s!"{Named.name op} requires two operands"
  | .unknownOpcode v => s!"Unsupported ALU opcode: {v.plain}"
  | .unknownKind k => s!"Unsupported instruction kind: {k.plain}"
  | .unknownContentAction v => s!"Unsupported content store action: {v.plain}"
  | .unknownTripleAction v => s!"Unsupported DRS action: {v.plain}"
  | .unknownCondition v => s!"Unsupported jump condition: {v.plain}"
  | .unknownRule name => s!"unknown rule '{name}'"
  | .address a size => s!"address {a} out of bounds {indices size}"
  | .span a length size => s!"span {a}..{a + length - 1} out of bounds {indices size}"
  | .counter pc size => s!"pc {pc.indexText} outside program {indices size}"
  | .target t size => s!"jump target {t.indexText} outside program {indices size}"
  | .stepLimit limit pc => s!"step limit of {limit} reached at pc={pc.indexText}"
  | .noContentStore => "no content store attached"
  | .contentWidth s m => s!"content store holds {s}-bit IUs, machine is {m}-bit"
  | .enfold reason => s!"enfold failed: {reason.message}"
  | .unfold d reason => s!"unfold of digest {d.hex} failed: {reason.message}"
  | .resultCount n w => s!"result count {n} does not fit in a {w}-bit IU"
  | .resultWidth v w => s!"value {v.describe} is not {w} bits wide"
  | .noTripleStore => "no DRS store attached"
  | .insert reason => s!"DRS insert failed: {reason.message}"
  | .query reason => s!"DRS query failed: {reason.message}"
  | .noBasins => "basin query needs a dynamics module"
  | .noDynamics => "no dynamics module attached"

def numbers : Fault → List Int
  | .registerIndex i => i.numbers ([·])
  | .immediateWidth v w | .constantWidth v w | .resultWidth v w => w :: v.numbers
  | .malformedOperand a | .malformedAddress a => a.numbers Argument.numbers
  | .unknownOpcode v | .unknownKind v | .unknownContentAction v | .unknownTripleAction v
  | .unknownCondition v => v.numbers
  | .address a size => [a, size - 1]
  | .span a length size => [a, a + length - 1, size - 1]
  | .counter i size | .target i size => (size - 1) :: i.numbers ([·])
  | .stepLimit limit pc => limit :: pc.numbers ([·])
  | .contentWidth s m => [s, m]
  | .enfold reason | .unfold _ reason | .insert reason | .query reason => reason.numbers
  | .resultCount n w => [n, w]
  | .operandMissing _ | .unknownRule _ | .noContentStore | .noTripleStore | .noBasins
  | .noDynamics => []

/-- Whether the wording can be put together: no number in it has too many digits. -/
def isTellable (f : Fault) : Bool := f.numbers.all Word.isShort

end Fault

inductive Wanted
  | width
  | value
  | shl
  | shr
  | sar
  | rotateLeft
  | rotateRight
deriving DecidableEq

inductive Error
  | fault (f : Fault)
  | word (e : Word.Error)
  | store (e : StoreError)
  | invalid (issues : List Issue)
  | registerCount (count : Nat)
  | registerWidth (value : Word) (width : Int)
  | cellWidth (value : Word) (width : Nat)
  | memorySize (size : Int)
  | memoryWidth (memory registers : Nat)
  | stepLimit (limit : Int)
  | ruleTaken (name : String)
  | unknownRule (name : String) (available : List String)
  /-- A rule looked up a key that is not there. -/
  | missingKey (text : String)
  | programIndex
  /-- An index that no sequence can have. -/
  | indexSize
  /-- A missing component where an order is asked for. -/
  | incomparable
  /-- A value of a kind that the operation is not defined for. -/
  | mistyped
  /-- Something else, or nothing, where a word is needed. -/
  | noWord (found : Scalar) (wanted : Wanted)
  /-- A field that an instruction of this kind should have. -/
  | absentField (kind name : String)
  /-- An operand or address of a form that is none of the four. -/
  | unknownForm (tag : Scalar)
  | unlistedKind (kind : Scalar)
  | unlistedOperand (operand : Field Argument)
  | unlistedCondition (v : Scalar)
  /-- An opcode or action without a mnemonic. -/
  | unlistedCode (v : Scalar)
  /-- Something other than an address where a listing needs one. -/
  | unlistedAddress (address : Field Argument)
deriving DecidableEq

namespace Error

def isFault : Error → Bool
  | .fault _ => true
  | _ => false

/-- The numbers that the wording holds in decimal, where they are not looked at elsewhere. -/
def numbers : Error → List Int
  | .fault f => f.numbers
  | .store e => e.numbers
  | .registerWidth v w => w :: v.numbers
  | .cellWidth v w => w :: v.numbers
  | .memorySize n | .stepLimit n => [n]
  | _ => []

/-- What comes of an error when it is told: a number of too many digits is an error of its own. -/
def told (e : Error) : Error := if e.numbers.all Word.isShort then e else .word .digits

def message : Error → String
  | .fault f => f.message
  | .word e => e.message
  | .store e => e.message
  | .invalid issues => s!"{issues.length} issues"
  | .registerCount n => s!"register file holds exactly 4 values, got {n}"
  | .registerWidth v w => s!"register value {v.describe} is not {w} bits wide"
  | .cellWidth v w => s!"cell value {v.describe} is not {w} bits wide"
  | .memorySize n => s!"memory size must be positive, got {n}"
  | .memoryWidth m r => s!"memory width {m} does not match register width {r}"
  | .stepLimit n => s!"max_steps must be positive, got {n}"
  | .ruleTaken name => s!"Rule already registered: {name}"
  | .unknownRule name available =>
    Text.quoted s!"Unknown rule '{name}'. Available: {Text.quotedList available}"
  | .missingKey text => Text.quoted text
  | .programIndex => "tuple index out of range"
  | .indexSize => "cannot fit 'int' into an index-sized integer"
  | .incomparable => "a missing component has no place in an order"
  | .mistyped => "a value is of the wrong kind"
  | .noWord found _ => s!"{found.quoted} is not a word"
  | .absentField kind name => s!"{kind} has no {name}"
  | .unknownForm tag => tag.quoted
  | .unlistedKind k => s!"Unsupported instruction kind: {k.plain}"
  | .unlistedOperand a => s!"Unsupported operand: {a.argumentText}"
  | .unlistedCondition v => v.quoted
  | .unlistedCode v => s!"no mnemonic for {v.plain}"
  | .unlistedAddress a => s!"not an address: {a.argumentText}"

end Error

/-- What a stand-in for a store answers: a value, or a failure other than a fault of the
machine. -/
structure Answer (α : Type) where
  result : Except Error α
  ne_fault : ∀ {f : Fault}, result ≠ .error (.fault f)

def Field.demand {α : Type} : Field α → Except Error Unit
  | .absent kind name => .error (.absentField kind name)
  | _ => .ok ()

instance : MonadLift (Except Word.Error) (Except Error) where
  monadLift
    | .ok a => .ok a
    | .error e => .error (.word e)

instance : MonadLift (Except Fault) (Except Error) where
  monadLift
    | .ok a => .ok a
    | .error f => .error (.fault f)

end WordMachine
