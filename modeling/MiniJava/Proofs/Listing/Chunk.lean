import MiniJava.Code.Chunk
import MiniJava.Proofs.Listing.Opcode

namespace MiniJava

open Line

-- What chunks are built by.
inductive ChunkStep
  | defineLabel
  | mark (label : Label)
  | emit (opcode : Opcode) (position : Option Position)

namespace Chunk

def perform (c : Chunk) : ChunkStep → Chunk
  | .defineLabel          => c.defineLabel.2
  | .mark label           => c.mark label
  | .emit opcode position => c.emit opcode position

def build (steps : List ChunkStep) : Chunk :=
  steps.foldl perform empty

-- No label is bound to an index behind the end.
def Bounded (c : Chunk) : Prop :=
  ∀ label index, c.target? label = some index → index ≤ c.instructions.size

theorem bounded_empty : empty.Bounded := by
  simp [Bounded, empty, target?]

variable {c c' : Chunk}

theorem Bounded.perform (h : c.Bounded) (step : ChunkStep) : (c.perform step).Bounded := by
  intro label index ht
  cases step with
  | defineLabel   =>
    rw [Chunk.perform, target?_defineLabel] at ht
    exact h label index ht
  | mark label'   =>
    rw [Chunk.perform, target?_mark] at ht
    split at ht
    case isTrue  => exact Nat.le_of_eq (Option.some.inj ht).symm
    case isFalse => exact h label index ht
  | emit opcode p =>
    have hle := h label index ht
    simp only [Chunk.perform, Chunk.emit, Array.size_push]
    omega

theorem Bounded.foldl (h : c.Bounded) (steps : List ChunkStep) :
    (steps.foldl Chunk.perform c).Bounded := by
  induction steps generalizing c with
  | nil             => exact h
  | cons step _ hi  => exact hi (h.perform step)

theorem bounded_build (steps : List ChunkStep) : (build steps).Bounded :=
  bounded_empty.foldl steps

theorem mem_labelsAt {label : Label} : label ∈ c.labelsAt index ↔ c.target? label = some index := by
  simp only [labelsAt, labelsWhere, List.mem_filterMap, Prod.exists, List.mem_zipIdx_iff_getElem?,
    target?, Array.getElem?_toList]
  constructor
  case mp =>
    rintro ⟨target, number, hn, hl⟩
    split at hl
    case isTrue ht =>
      obtain rfl := Option.some.inj hl
      rw [hn, of_decide_eq_true ht]
      rfl
    case isFalse => cases hl
  case mpr =>
    intro h
    exact ⟨some index, label.number, Option.join_eq_some_iff.mp h, if_pos (decide_eq_true rfl)⟩

-- A line that binds a label is told from one with an instruction by its first character.
def LabelLine (line : String) : Prop :=
  line.toList.head? = some 'L'

theorem labelLine_of_mem (h : line ∈ c.labelLines index) : LabelLine line := by
  obtain ⟨label, _, rfl⟩ := List.mem_map.mp h
  simp [LabelLine, Label.text]

def instructionLine (opcode : Opcode) (index : Nat) : String :=
  "    " ++ padded index ++ " " ++ opcode.text

theorem not_labelLine : ¬LabelLine (instructionLine opcode index) := by
  simp [LabelLine, instructionLine]

theorem instructionLine_inj (h : instructionLine o index = instructionLine o' index) : o = o' := by
  have h := congrArg String.toList h
  simp only [instructionLine, String.toList_append] at h
  exact Opcode.text_injective (String.toList_inj.mp (List.append_cancel_left h))

theorem newline_notMem_labelLine (h : line ∈ c.labelLines index) : '\n' ∉ line.toList := by
  obtain ⟨label, _, rfl⟩ := List.mem_map.mp h
  simp [Label.text, newline_notMem_toDigits]

theorem newline_notMem_instructionLine : '\n' ∉ (instructionLine o index).toList := by
  simp [instructionLine, padded, newline_notMem_toDigits, Opcode.newline_notMem_text]

-- The lines of an instruction: those of the labels that are bound to it, and its own.
def blocks (c : Chunk) : List (List String × String) :=
  c.instructions.toList.zipIdx.map fun (instruction, index) =>
    (c.labelLines index, instructionLine instruction.opcode index)

theorem lines_eq : c.lines =
    c.blocks.flatMap (fun b => b.1 ++ [b.2]) ++ c.labelLines c.instructions.size := by
  simp [lines, blocks, instructionLine, List.flatMap_map]

theorem getElem?_blocks (index : Nat) : c.blocks[index]? =
    c.instructions[index]?.map fun i => (c.labelLines index, instructionLine i.opcode index) := by
  simp [blocks, List.getElem?_zipIdx]
  cases c.instructions[index]? <;> rfl

-- Lines without line feeds are told by the text that they make.
theorem blocks_eq_of_listing (h : c.listing = c'.listing) :
    c.blocks = c'.blocks ∧
      c.labelLines c.instructions.size = c'.labelLines c'.instructions.size := by
  have hblocks (c : Chunk) : ∀ b ∈ c.blocks, (∀ l ∈ b.1, LabelLine l) ∧ ¬LabelLine b.2 := by
    intro b hb
    obtain ⟨_, _, rfl⟩ := List.mem_map.mp hb
    exact ⟨fun _ => labelLine_of_mem, not_labelLine⟩
  have hlines (c : Chunk) : ∀ l ∈ c.lines, '\n' ∉ l.toList := by
    intro l hl
    rw [lines_eq] at hl
    rcases List.mem_append.mp hl with hl | hl
    case inl =>
      obtain ⟨b, hb, hl⟩ := List.mem_flatMap.mp hl
      obtain ⟨_, _, rfl⟩ := List.mem_map.mp hb
      rcases List.mem_append.mp hl with hl | hl
      case inl => exact newline_notMem_labelLine hl
      case inr => exact List.mem_singleton.mp hl ▸ newline_notMem_instructionLine
    case inr => exact newline_notMem_labelLine hl
  have hl := join_lines_inj (hlines c) (hlines c') h
  rw [lines_eq, lines_eq] at hl
  exact flatMap_append_inj (hblocks c) (hblocks c') (fun _ => labelLine_of_mem)
    (fun _ => labelLine_of_mem) hl

theorem opcodes_eq_of_blocks (h : c.blocks = c'.blocks) : c.opcodes = c'.opcodes := by
  apply List.ext_getElem?
  intro index
  have hb := congrArg (·[index]?) h
  simp only [getElem?_blocks] at hb
  simp only [opcodes, List.getElem?_map, Array.getElem?_toList]
  cases hi : c.instructions[index]? <;> cases hi' : c'.instructions[index]? <;> rw [hi, hi'] at hb
  case some.some =>
    obtain ⟨_, hl⟩ := Prod.mk.inj (Option.some.inj hb)
    exact congrArg some (instructionLine_inj hl)
  all_goals cases hb

theorem labelsAt_eq_of_labelLines (h : c.labelLines index = c'.labelLines index) :
    c.labelsAt index = c'.labelsAt index := by
  refine List.map_injective_iff.mpr (fun l l' he => ?_) h
  have he := congrArg String.toList he
  simp only [Label.text, String.toList_append, List.append_assoc] at he
  have hd := List.append_cancel_right (List.append_cancel_left he)
  have hn := congrArg natOf hd
  rw [natOf_toString, natOf_toString] at hn
  exact congrArg Label.mk hn

-- What all labels are bound to is told by the labels of the instructions and of the end.
theorem target?_eq_of_labelsAt (hb : c.Bounded) (hb' : c'.Bounded)
    (hs : c.instructions.size = c'.instructions.size)
    (h : ∀ index, index ≤ c.instructions.size → c.labelsAt index = c'.labelsAt index)
    (label : Label) : c.target? label = c'.target? label := by
  ext index
  rw [← mem_labelsAt, ← mem_labelsAt]
  constructor
  case mp  =>
    intro hl
    exact h index (hb label index (mem_labelsAt.mp hl)) ▸ hl
  case mpr =>
    intro hl
    exact (h index (hs ▸ hb' label index (mem_labelsAt.mp hl))).symm ▸ hl

-- Chunks with the same listing have the same instructions, positions aside, and the same labels
-- bound to the same indices, however they were built.
theorem listing_tells (steps steps' : List ChunkStep)
    (h : (build steps).listing = (build steps').listing) :
    (build steps).opcodes = (build steps').opcodes ∧
      ∀ label, (build steps).target? label = (build steps').target? label := by
  obtain ⟨hblocks, hend⟩ := blocks_eq_of_listing h
  have hs : (build steps).instructions.size = (build steps').instructions.size := by
    simpa [blocks] using congrArg List.length hblocks
  refine ⟨opcodes_eq_of_blocks hblocks,
    target?_eq_of_labelsAt (bounded_build steps) (bounded_build steps') hs fun index hle => ?_⟩
  refine labelsAt_eq_of_labelLines ?_
  rcases Nat.lt_or_eq_of_le hle with hlt | rfl
  case inl =>
    have hb := congrArg (·[index]?) hblocks
    simp only [getElem?_blocks, Array.getElem?_eq_getElem hlt,
      Array.getElem?_eq_getElem (hs ▸ hlt)] at hb
    exact (Prod.mk.inj (Option.some.inj hb)).1
  case inr =>
    rw [← hs] at hend
    exact hend

-- A label that is bound twice, and one that is never bound.
theorem listing_tells_rebound :
    let steps : List ChunkStep := [.defineLabel, .mark ⟨0⟩, .emit (.branch ⟨0⟩) none, .mark ⟨0⟩]
    let steps' : List ChunkStep :=
      [.emit (.branch ⟨0⟩) (some ⟨1, 1⟩), .defineLabel, .defineLabel, .mark ⟨0⟩, .mark ⟨2⟩]
    (build steps).listing = (build steps').listing ∧
      (build steps).opcodes = (build steps').opcodes ∧
      ∀ label, (build steps).target? label = (build steps').target? label := by
  intro steps steps'
  have h : (build steps).listing = (build steps').listing := by
    decide +kernel
  exact ⟨h, listing_tells steps steps' h⟩

end Chunk

end MiniJava
