namespace MiniJava

inductive FileError
  | notFound
  | notDirectory
  | isDirectory
  | nameTooLong
  | notText
  -- A failure that the system states in words of its own.
  | stated (words : String)
deriving DecidableEq

def FileError.message : FileError → String
  | notFound => "No such file or directory (os error 2)"
  | notDirectory => "Not a directory (os error 20)"
  | isDirectory => "Is a directory (os error 21)"
  | nameTooLong => "File name too long (os error 36)"
  | notText => "stream did not contain valid UTF-8"
  | stated words => words

def decodeText (bytes : ByteArray) : Except FileError String :=
  match String.fromUTF8? bytes with
  | some text => .ok text
  | none => .error .notText

structure FileEntry where
  path : List String
  contents : Option ByteArray

abbrev FileTree := List FileEntry

namespace FileTree

def entry (name : String) (contents : Option ByteArray) : FileEntry :=
  ⟨(name.splitOn "/").filter (· ≠ ""), contents⟩

-- What a path of names leads to: the contents of a file, or `none` for a directory. There is a
-- directory around every entry.
def node? (tree : FileTree) (path : List String) : Option (Option ByteArray) :=
  match tree.find? (·.path = path) with
  | some entry => some entry.contents
  | none => if path = [] || tree.any (path.isPrefixOf ·.path) then some none else none

def maxName : Nat := 255

def maxPath : Nat := 4095

def follow (tree : FileTree) : (directory : Option (List String)) → (names : List String) →
    Except FileError (Option ByteArray)
  | _, [] => .ok none
  | directory, name :: names =>
    if name = "" || name = "." then follow tree directory names
    else if name = ".." then
      follow tree (directory.bind fun path => if path = [] then none else some path.dropLast) names
    else if name.utf8ByteSize > maxName then .error .nameTooLong
    else match directory with
      | none => .error .notFound
      | some path =>
        match tree.node? (path ++ [name]) with
        | none => .error .notFound
        | some none => follow tree (some (path ++ [name])) names
        | some (some contents) => if names = [] then .ok contents else .error .notDirectory

def read (tree : FileTree) (path : String) : Except FileError String := do
  if path.utf8ByteSize > maxPath then throw .nameTooLong
  let start := if path.startsWith "/" then none else some []
  match ← tree.follow start (path.splitOn "/") with
  | some contents => decodeText contents
  | none => throw .isDirectory

end FileTree

end MiniJava
