import MiniJava.Text.Document

namespace MiniJava

-- A shape has two written forms: the document, which leaves the names of records out, and the
-- outline, which shows them.
inductive Shape
  | flag (value : Bool)
  | number (value : Int)
  | text (value : String)
  | tag (name : String)
  | numbered (name : String) (value : Nat)
  | absent
  | present (value : Shape)
  | list (items : List Shape)
  | record (name : String) (fields : List (String × Shape))
  | variant (name : String) (value : Shape)
  | variantRecord (name : String) (fields : List (String × Shape))

namespace Shape

def optional (write : α → Shape) : Option α → Shape
  | some a => present (write a)
  | none => absent

mutual

def document : Shape → Document
  | flag value => .flag value
  | number value => .number value
  | text value => .text value
  | tag name => .text name
  | numbered _ value => .nat value
  | absent => .null
  | present value => value.document
  | list items => .list (itemDocuments items)
  | record _ fields => .record (fieldDocuments fields)
  | variant name value => .record [(name, value.document)]
  | variantRecord name fields => .record [(name, .record (fieldDocuments fields))]

def itemDocuments : List Shape → List Document
  | [] => []
  | item :: items => item.document :: itemDocuments items

def fieldDocuments : List (String × Shape) → List (String × Document)
  | [] => []
  | (key, value) :: fields => (key, value.document) :: fieldDocuments fields

end

def margin (depth : Nat) : String :=
  String.ofList (List.replicate (4 * depth) ' ')

def enclosed (opening closing : String) (depth : Nat) (parts : List String) : String :=
  if parts.isEmpty then opening ++ closing
  else
    opening ++ "\n" ++ String.join (parts.map (margin (depth + 1) ++ · ++ ",\n")) ++
      margin depth ++ closing

mutual

def outlineAt (depth : Nat) : Shape → String
  | flag value => if value then "true" else "false"
  | number value => toString value
  | text value => "\"" ++ value ++ "\""
  | tag name => name
  | numbered name value => enclosed (name ++ "(") ")" depth [toString value]
  | absent => "None"
  | present value => enclosed "Some(" ")" depth [value.outlineAt (depth + 1)]
  | list items => enclosed "[" "]" depth (itemOutlines (depth + 1) items)
  | record name fields | variantRecord name fields =>
    enclosed (name ++ " \x7b") "\x7d" depth (fieldOutlines (depth + 1) fields)
  | variant name value => enclosed (name ++ "(") ")" depth [value.outlineAt (depth + 1)]

def itemOutlines (depth : Nat) : List Shape → List String
  | [] => []
  | item :: items => item.outlineAt depth :: itemOutlines depth items

def fieldOutlines (depth : Nat) : List (String × Shape) → List String
  | [] => []
  | (key, value) :: fields =>
    (key ++ ": " ++ value.outlineAt depth) :: fieldOutlines depth fields

end

def outline (s : Shape) : String :=
  s.outlineAt 0

end Shape

end MiniJava
