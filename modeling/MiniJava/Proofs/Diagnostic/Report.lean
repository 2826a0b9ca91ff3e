import Mathlib.Data.List.Basic
import MiniJava.Code.Program
import MiniJava.Diagnostic.Document
import MiniJava.Proofs.Diagnostic.Reading
import MiniJava.Proofs.Diagnostic.Resolution
import MiniJava.Proofs.Emit.Failure
import MiniJava.Proofs.Reading.Complete.Program

namespace MiniJava

namespace Line

def linesOf (text : String) : List String :=
  (text.toList.splitOn '\n').map String.ofList

theorem linesOf_intercalate {ls : List String} (h : ∀ l ∈ ls, OneLine l) (hn : ls ≠ []) :
    linesOf ("\n".intercalate ls) = ls := by
  have hs : (['\n'].intercalate (ls.map String.toList)).splitOn '\n' = ls.map String.toList :=
    List.splitOn_intercalate '\n' (List.forall_mem_map.mpr h) (mt List.map_eq_nil_iff.mp hn)
  have hl : "\n".toList = ['\n'] := rfl
  rw [linesOf, String.toList_intercalate, hl, hs, List.map_map]
  exact (List.map_congr_left fun l _ => String.ofList_toList).trans (List.map_id' ls)

-- The number that a text starts with, and the text behind it.
def number? (text : List Char) : Option (Nat × List Char) :=
  let digits := text.takeWhile Char.isDigit
  if digits = [] then none else some (natOf digits, text.dropWhile Char.isDigit)

theorem number?_toString (n : Nat) {c : Char} (hc : c.isDigit = false) (rest : List Char) :
    number? ((toString n).toList ++ c :: rest) = some (n, c :: rest) := by
  have hd : ∀ d ∈ (toString n).toList, d.isDigit = true := fun _ => isDigit_of_mem_toString
  have hr : ∀ d ∈ (c :: rest).head?, d.isDigit = false := fun d hd => Option.some.inj hd ▸ hc
  have hn : (toString n).toList ≠ [] := by
    have hs : (toString n).toList = Nat.toDigits 10 n := Nat.toList_repr
    rw [hs]
    exact Nat.toDigits_ne_nil
  rw [number?, Scan.takeWhile_append_eq hd hr, Scan.dropWhile_append_eq hd hr, natOf_toString]
  exact if_neg hn

end Line

-- What the line of a diagnostic tells.
structure Notice where
  position : Position
  kind     : DiagnosticKind
  message  : String
deriving DecidableEq

def Diagnostic.notice? (d : Diagnostic) : Option Notice :=
  d.position.map fun position => ⟨position, d.kind, d.message⟩

namespace Notice

def kinds : List DiagnosticKind :=
  [.lexical, .grammatical, .semantic]

-- The notice that is written as `<line>:<column>: <kind> error: <message>`.
def ofLine? (text : String) : Option Notice := do
  let (line, rest) ← Line.number? text.toList
  let rest ← rest.dropPrefix? [':']
  let (column, rest) ← Line.number? rest
  let rest ← rest.dropPrefix? [':', ' ']
  let (kind, rest) ← kinds.findSome? fun kind =>
    (rest.dropPrefix? (kind.word ++ " error: ").toList).map (kind, ·)
  return ⟨⟨line, column⟩, kind, String.ofList rest⟩

theorem findSome?_kinds (kind : DiagnosticKind) (rest : List Char) :
    (kinds.findSome? fun k =>
      (((kind.word ++ " error: ").toList ++ rest).dropPrefix? (k.word ++ " error: ").toList).map
        (k, ·)) = some (kind, rest) := by
  cases kind <;> simp [kinds, DiagnosticKind.word, List.dropPrefix?]

theorem ofLine?_text {d : Diagnostic} (h : d.position.isSome) : ofLine? d.text = d.notice? := by
  obtain ⟨problem, position⟩ := d
  obtain ⟨⟨line, column⟩, rfl⟩ := Option.isSome_iff_exists.mp h
  let words := (problem.kind.word ++ " error: ").toList ++ problem.message.toList
  have ht : (Diagnostic.text ⟨problem, some ⟨line, column⟩⟩).toList =
      (toString line).toList ++ ':' :: ((toString column).toList ++ ':' :: ' ' :: words) := by
    simp [Diagnostic.text, Position.text, Diagnostic.kind, Diagnostic.message, words]
  have hl := Line.number?_toString line (c := ':') rfl
    ((toString column).toList ++ ':' :: ' ' :: words)
  have hc := Line.number?_toString column (c := ':') rfl (' ' :: words)
  rw [ofLine?, ht, hl]
  simp only [Option.bind_eq_bind, Option.bind_some, List.dropPrefix?, beq_self_eq_true, if_true, hc]
  rw [findSome?_kinds]
  simp [Diagnostic.notice?, Diagnostic.kind, Diagnostic.message]

example : ofLine? "1:39: semantic error: cannot find a: b" =
    some ⟨⟨1, 39⟩, .semantic, "cannot find a: b"⟩ := by
  decide +kernel

end Notice

theorem oneLine_builtinTypes : ∀ word ∈ builtinTypes, OneLine word := by
  simp only [builtinTypes, List.forall_mem_cons, List.not_mem_nil, false_imp_iff, imp_true_iff]
  exact ⟨.literal rfl, .literal rfl, .literal rfl, trivial⟩

theorem DiagnosticKind.oneLine_word (kind : DiagnosticKind) : OneLine kind.word := by
  cases kind <;> exact .literal rfl

namespace Diagnostic

theorem Bears.oneLine_message {d : Diagnostic} (h : d.Bears OneLine) : OneLine d.message :=
  Problem.oneLine_message h.problem

theorem Bears.oneLine_text {d : Diagnostic} (h : d.Bears OneLine) : OneLine d.text := by
  have hw : OneLine (d.kind.word ++ " error: " ++ d.message) :=
    .append (.append d.kind.oneLine_word (.literal rfl)) h.oneLine_message
  have hp (p : Position) : OneLine p.text :=
    .append (.append (.toString_nat _) (.literal rfl)) (.toString_nat _)
  rw [text]
  cases d.position with
  | some position => exact .append (.append (hp position) (.literal rfl)) hw
  | none          => exact hw

end Diagnostic

-- The report tells of every diagnostic where it is, what it is about and what is wrong, line by
-- line, and how many they are.
structure Notice.Reported (report : String) (ds : List Diagnostic) : Prop where
  length  : (Line.linesOf report).length = ds.length + 1
  line    : ∀ i (h : i < ds.length), ∃ position, ds[i].position = some position ∧
    (Line.linesOf report)[i]?.bind ofLine? = some ⟨position, ds[i].kind, ds[i].message⟩
  last    : (Line.linesOf report).getLast? =
    some ("compilation failed with " ++ toString ds.length ++ " error(s)")
  oneLine : ∀ d ∈ ds, OneLine d.message

namespace CompileError

theorem linesOf_render (h : ∀ d ∈ ds, d.Bears OneLine) :
    Line.linesOf ((rejected ds).render false) = (rejected ds).lines := by
  refine Line.linesOf_intercalate (fun l hl => ?_) (List.concat_ne_nil _ _)
  rcases List.mem_append.mp hl with hl | hl
  case inl =>
    obtain ⟨d, hd, rfl⟩ := List.mem_map.mp hl
    exact (h d hd).oneLine_text
  case inr =>
    obtain rfl := List.mem_singleton.mp hl
    exact .append (.append (.literal rfl) (.toString_nat _)) (.literal rfl)

theorem reported_render (h : ∀ d ∈ ds, d.Bears OneLine) :
    Notice.Reported ((rejected ds).render false) ds where
  length  := by simp [linesOf_render h, lines, diagnostics]
  line i hi := by
    have hd := (h ds[i] (List.getElem_mem hi)).placed
    obtain ⟨position, hp⟩ := Option.isSome_iff_exists.mp hd
    refine ⟨position, hp, ?_⟩
    have hl : (Line.linesOf ((rejected ds).render false))[i]? = some ds[i].text := by
      rw [linesOf_render h, lines, List.getElem?_append_left (by simpa [diagnostics] using hi)]
      simp [diagnostics, hi]
    rw [hl, Option.bind_some, Notice.ofLine?_text hd, Diagnostic.notice?, hp, Option.map_some]
  last    := by
    rw [linesOf_render h, lines, List.getLast?_concat]
    rfl
  oneLine := fun d hd => (h d hd).oneLine_message

end CompileError

theorem acceptUnless_eq_rejected (h : acceptUnless diagnostics value = .error (.rejected ds)) :
    diagnostics = ds := by
  rw [acceptUnless] at h
  split at h
  case isTrue => nomatch h
  case isFalse => injection h with h; injection h

theorem ProgramCode.generate_ne_rejected :
    generate table environment p ≠ .error (.rejected ds) := by
  rw [generate]
  cases Emit.program ⟨table, environment⟩ p <;> nofun

namespace Compilation

-- A text is rejected for what is wrong with its words, or else for what is wrong with its names and
-- types.
theorem rejected_cases (h : ofText text = .error (.rejected ds)) :
    let parsed := ParsedProgram.ofStream (.ofText text)
    ds = parsed.diagnostics ∨ ds = (ResolvedProgram.ofProgram parsed.program).diagnostics := by
  rcases Emit.bind_eq_error.mp h with h | ⟨p, hp, h⟩
  · exact .inl (acceptUnless_eq_rejected h).symm
  obtain ⟨-, rfl⟩ := Program.ofStream_eq_ok.mp hp
  rcases Emit.bind_eq_error.mp h with h | ⟨table, -, h⟩
  · exact .inr (acceptUnless_eq_rejected h).symm
  rcases Emit.bind_eq_error.mp h with h | ⟨code, -, h⟩
  · exact absurd h ProgramCode.generate_ne_rejected
  · nomatch h

-- What a text is rejected for is told in one line and has a place in the text.
theorem bears_rejected (h : ofText text = .error (.rejected ds)) : ∀ d ∈ ds, d.Bears OneLine := by
  have hs := TokenStream.oneLine_ofText text
  have hn := TokenStream.namesBuiltin_ofText text
  have hp := ParsedProgram.bears_program hs hn (.literal rfl) oneLine_builtinTypes
  rcases rejected_cases h with rfl | rfl
  case inl => exact ParsedProgram.bears_diagnostics hs (.literal rfl)
  case inr => exact ResolvedProgram.bears_diagnostics hp (.literal rfl) oneLine_builtinTypes

-- The report of a rejected text is read back as what it is rejected for.
theorem reported_of_rejected (h : ofText text = .error (.rejected ds)) :
    Notice.Reported ((CompileError.rejected ds).render false) ds :=
  CompileError.reported_render (bears_rejected h)

def undeclaredPair : String :=
  "class M { public static void main() { x = y; } }"

theorem reported_of_rejected_undeclaredPair : ∃ ds, ds.length = 2 ∧
    ofText undeclaredPair = .error (.rejected ds) ∧
    Notice.Reported ((CompileError.rejected ds).render false) ds := by
  let p := (ParsedProgram.ofStream (.ofText undeclaredPair)).program
  let ds : List Diagnostic := [.semantic (.unresolved .aVariable "x") ⟨1, 39⟩,
    .semantic (.unresolved .aVariable "y") ⟨1, 43⟩]
  have hp : Program.ofStream (.ofText undeclaredPair) = .ok p :=
    Program.ofStream_eq_ok.mpr ⟨by decide +kernel, rfl⟩
  have hd : (ResolvedProgram.ofProgram p).diagnostics = ds := by decide +kernel
  have ht : SymbolTable.ofProgram p = .error (.rejected ds) := by
    simp [SymbolTable.ofProgram, acceptUnless, hd, ds]
  have h : ofText undeclaredPair = .error (.rejected ds) :=
    Emit.bind_eq_error.mpr (.inr ⟨p, hp, Emit.bind_eq_error.mpr (.inl ht)⟩)
  exact ⟨ds, rfl, h, reported_of_rejected h⟩

end Compilation

end MiniJava
