import MiniJava.Code.Chunk
import MiniJava.Diagnostic.Document

namespace MiniJava

def ElementKind.name : ElementKind → String
  | int => "Int"
  | reference => "Reference"

def Opcode.document : Opcode → Document
  | pushInt value => .record [("PushInt", .number value)]
  | loadArg argument => .record [("LoadArg", .nat argument)]
  | storeArg argument => .record [("StoreArg", .nat argument)]
  | loadLocal slot => .record [("LoadLocal", .nat slot)]
  | storeLocal slot => .record [("StoreLocal", .nat slot)]
  | loadField field => .record [("LoadField", .nat field.number)]
  | storeField field => .record [("StoreField", .nat field.number)]
  | loadElement kind => .record [("LoadElement", .text kind.name)]
  | storeElement kind => .record [("StoreElement", .text kind.name)]
  | arrayLength => .text "ArrayLength"
  | newArray element => .record [("NewArray", .nat element.number)]
  | newObject constructor => .record [("NewObject", .nat constructor.number)]
  | call method => .record [("Call", .nat method.number)]
  | callPrintInt => .text "CallPrintInt"
  | callAssert => .text "CallAssert"
  | add => .text "Add"
  | sub => .text "Sub"
  | mul => .text "Mul"
  | div => .text "Div"
  | rem => .text "Rem"
  | lessThan => .text "LessThan"
  | greaterThan => .text "GreaterThan"
  | equal => .text "Equal"
  | and => .text "And"
  | or => .text "Or"
  | pop => .text "Pop"
  | branch target => .record [("Branch", .nat target.number)]
  | branchIfFalse target => .record [("BranchIfFalse", .nat target.number)]
  | branchIfTrue target => .record [("BranchIfTrue", .nat target.number)]
  | ret => .text "Return"

def Instruction.document (i : Instruction) : Document :=
  .record
    [("opcode", i.opcode.document), ("source_position", .optional Position.document i.position)]

def Chunk.document (c : Chunk) : Document :=
  .record
    [("instructions", .list (c.instructions.toList.map Instruction.document)),
      ("labels", .list (c.labels.toList.map (.optional .nat)))]

end MiniJava
