import MiniJava.Text.Quoted

namespace MiniJava

inductive Document
  | null
  | flag (value : Bool)
  | number (value : Int)
  | text (value : String)
  | list (items : List Document)
  | record (fields : List (String × Document))

namespace Document

def optional (write : α → Document) : Option α → Document
  | some a => write a
  | none => null

def nat (value : Nat) : Document :=
  number value

def indent (depth : Nat) : String :=
  String.ofList (List.replicate (2 * depth) ' ')

-- Parts on lines of their own between brackets; the brackets alone if there are none.
def bracketed (opening closing : String) (depth : Nat) (parts : List String) : String :=
  if parts.isEmpty then opening ++ closing
  else
    opening ++ "\n" ++ ",\n".intercalate (parts.map (indent (depth + 1) ++ ·)) ++ "\n" ++
      indent depth ++ closing

mutual

def renderAt (depth : Nat) : Document → String
  | null => "null"
  | flag value => if value then "true" else "false"
  | number value => toString value
  | text value => Quoted.encode value
  | list items => bracketed "[" "]" depth (renderItems (depth + 1) items)
  | record fields => bracketed "\x7b" "\x7d" depth (renderFields (depth + 1) fields)

def renderItems (depth : Nat) : List Document → List String
  | [] => []
  | item :: items => renderAt depth item :: renderItems depth items

def renderFields (depth : Nat) : List (String × Document) → List String
  | [] => []
  | (key, value) :: fields =>
    (Quoted.encode key ++ ": " ++ renderAt depth value) :: renderFields depth fields

end

-- The written form: two spaces for each level, and every item on a line.
def render (d : Document) : String :=
  d.renderAt 0

def insertField (key : String) (value : Document) :
    List (String × Document) → List (String × Document)
  | [] => [(key, value)]
  | (k, v) :: fields =>
    if key < k then (key, value) :: (k, v) :: fields
    else (k, v) :: insertField key value fields

mutual

def sorted : Document → Document
  | list items => list (sortedItems items)
  | record fields => record (sortedFields fields)
  | other => other

def sortedItems : List Document → List Document
  | [] => []
  | item :: items => item.sorted :: sortedItems items

def sortedFields : List (String × Document) → List (String × Document)
  | [] => []
  | (key, value) :: fields => insertField key value.sorted (sortedFields fields)

end

end Document

end MiniJava
