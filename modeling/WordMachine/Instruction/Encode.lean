import WordMachine.Instruction.Decode

/-! Programs as data, with fields in a fixed order and absent parts as null. -/
namespace WordMachine

namespace Argument

def toJson : Argument → Json
  | .reg i => .obj [("kind", .str "reg"), ("index", .int i)]
  | .imm v => .obj [("kind", .str "imm"), ("value", v.toJson)]
  | .absolute i => .obj [("kind", .str "absolute"), ("index", .int i)]
  | .indirect i => .obj [("kind", .str "indirect"), ("reg", .int i)]

end Argument

def Scalar.toJson : Scalar → Json
  | .null => .null
  | .bool b => .bool b
  | .int n => .int n
  | .text s => .str s
  | v => .str v.plain

namespace Field

def toJson {α : Type} (write : α → Json) : Field α → Json
  | .known a => write a
  | .other v => v.toJson
  | .absent .. => .null

def indexJson : Field Int → Json := toJson .int
def nameJson : Field String → Json := toJson .str
def argumentJson : Field Argument → Json := toJson Argument.toJson

def codeJson {α : Type} [Named α] : Field α → Json := toJson fun a => .str (Named.name a)

end Field

namespace Instruction

def fields : Instruction → List (String × Json)
  | .alu opcode dest a b =>
    [("opcode", opcode.codeJson), ("dest", dest.indexJson), ("a", a.argumentJson),
      ("b", b.argumentJson)]
  | .load dest address => [("dest", dest.indexJson), ("address", address.argumentJson)]
  | .store src address => [("src", src.indexJson), ("address", address.argumentJson)]
  | .loadConst dest value => [("dest", dest.indexJson), ("value", value.toJson Word.toJson)]
  | .moveReg dest src => [("dest", dest.indexJson), ("src", src.indexJson)]
  | .content action digest address length =>
    [("action", action.codeJson), ("digest_reg", digest.indexJson),
      ("address", address.argumentJson), ("length_reg", length.indexJson)]
  | .triple action s r o count out =>
    [("action", action.codeJson), ("subject", s.argumentJson),
      ("relation", r.argumentJson), ("obj", o.argumentJson),
      ("count_reg", count.indexJson),
      ("out_address", out.argumentJson)]
  | .applyRule rule reg => [("rule", rule.nameJson), ("reg", reg.indexJson)]
  | .jumpIf condition target => [("condition", condition.codeJson), ("target", target.indexJson)]
  | .jump target => [("target", target.indexJson)]
  | .halt => []
  | .foreign _ => []

def toJson (i : Instruction) : Json := .obj (("kind", .str i.kind) :: i.fields)

end Instruction

def Program.toJson (p : Program) : Json :=
  .obj [("name", .str p.name), ("ops", .arr (p.ops.toList.map Instruction.toJson))]

end WordMachine
