import MiniJava.Code.Opcode
import MiniJava.Position

namespace MiniJava

structure Instruction where
  opcode : Opcode
  position : Option Position
deriving DecidableEq

-- A label is defined before it is bound, so a branch may go forward.
structure Chunk where
  instructions : Array Instruction
  -- For every label the index of the instruction that it is bound to.
  labels : Array (Option Nat)
deriving DecidableEq

namespace Chunk

def empty : Chunk := ⟨#[], #[]⟩

def emit (c : Chunk) (opcode : Opcode) (position : Option Position) : Chunk :=
  { c with instructions := c.instructions.push ⟨opcode, position⟩ }

def defineLabel (c : Chunk) : Label × Chunk :=
  (⟨c.labels.size⟩, { c with labels := c.labels.push none })

-- Binds a label to the next instruction. A label that is bound again moves; one that was never
-- defined is passed over.
def mark (c : Chunk) (label : Label) : Chunk :=
  { c with labels := c.labels.modify label.number fun _ => some c.instructions.size }

def target? (c : Chunk) (label : Label) : Option Nat :=
  c.labels[label.number]?.join

def labelsWhere (c : Chunk) (test : Option Nat → Bool) : List Label :=
  c.labels.toList.zipIdx.filterMap fun (target, number) =>
    if test target then some ⟨number⟩ else none

def unmarked (c : Chunk) : List Label :=
  c.labelsWhere Option.isNone

def labelsAt (c : Chunk) (index : Nat) : List Label :=
  c.labelsWhere (· = some index)

def opcodes (c : Chunk) : List Opcode :=
  c.instructions.toList.map (·.opcode)

def last? (c : Chunk) : Option Opcode :=
  c.instructions.back?.map (·.opcode)

@[simp]
theorem target?_defineLabel (c : Chunk) (label : Label) :
    c.defineLabel.2.target? label = c.target? label := by
  simp only [target?, defineLabel, Array.getElem?_push]
  split <;> simp_all

theorem target?_mark (c : Chunk) (label label' : Label) :
    (c.mark label).target? label' =
      if label = label' ∧ label.number < c.labels.size then some c.instructions.size
      else c.target? label' := by
  obtain ⟨number⟩ := label
  obtain ⟨number'⟩ := label'
  by_cases h : number = number' <;> by_cases hn : number < c.labels.size <;>
    simp_all [target?, mark, Array.getElem?_modify, Array.getElem_modify]

def padded (index : Nat) : String :=
  let digits := toString index
  String.ofList (List.replicate (4 - digits.length) '0') ++ digits

def labelLines (c : Chunk) (index : Nat) : List String :=
  (c.labelsAt index).map fun label => label.text ++ ":"

-- The lines of a listing: every instruction with its index, after the labels that are bound to it,
-- and at the end the labels that are bound there.
def lines (c : Chunk) : List String :=
  (c.instructions.toList.zipIdx.flatMap fun (instruction, index) =>
    c.labelLines index ++ ["    " ++ padded index ++ " " ++ instruction.opcode.text]) ++
  c.labelLines c.instructions.size

def listing (c : Chunk) : String :=
  String.join (c.lines.map (· ++ "\n"))

end Chunk

end MiniJava
