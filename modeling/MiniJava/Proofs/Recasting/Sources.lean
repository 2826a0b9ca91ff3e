import MiniJava.Proofs.Reading.Complete.Program
import MiniJava.Proofs.Recasting.Reading
import MiniJava.Proofs.Recasting.Unnumbered
import MiniJava.Proofs.Token.Partition

namespace MiniJava

-- Other places, and the same names.
def Recasting.ofPlaces (place : Position → Position) : Recasting where
  name        := id
  place       := place
  length      := rfl
  builtin _ _ := rfl

section SameNames

variable {place : Position → Position}

theorem TokenKind.recast_ofPlaces (k : TokenKind) : k.recast (.ofPlaces place) = k := by
  cases k <;> rfl

theorem SyntaxError.recast_ofPlaces (e : SyntaxError) : e.recast (.ofPlaces place) = e := by
  cases e <;> simp only [recast, TokenKind.recast_ofPlaces]

theorem Problem.recast_ofPlaces (problem : Problem) :
    problem.recast (.ofPlaces place) = problem := by
  cases problem <;> simp only [recast, SyntaxError.recast_ofPlaces]

end SameNames

namespace Scan.Cursor

-- The stream delivers what one call of `next` after another does, also behind the last token.
theorem next_stream (c : Cursor) : c.stream.next = (c.next.1, c.next.2.stream) := by
  rw [stream]
  split
  case isTrue h  =>
    have hn : c.next = (⟨.endOfInput, c.next.1.position⟩, ⟨[], c.next.1.position⟩) := by
      simp only [next, h, cutLexeme, Position.advance_nil]
    rw [hn, stream, if_pos (by rw [splitBlanks])]
    simp [TokenStream.next, next, splitBlanks, Position.advance_nil]
  case isFalse h => rfl

theorem take_stream (c : Cursor) (count : Nat) : c.stream.take count = c.take count := by
  induction count generalizing c with
  | zero          => rfl
  | succ count hi => rw [take, TokenStream.take, next_stream, hi]

end Scan.Cursor

namespace TokenStream

variable {s s' : TokenStream}

-- Where the one stream ends is where the other one ends; other places are the same.
def toEnd (s s' : TokenStream) (p : Position) : Position :=
  if p = s.stop then s'.stop else p

-- Streams that are told apart by their ends only, and what is read from them. No decision of a
-- reader depends on a place.
structure ReadAlike (s s' : TokenStream) : Prop where
  tokens      : s'.tokens = s.tokens
  apart       : ∀ t ∈ s.tokens, t.position ≠ s.stop
  program     : (ParsedProgram.ofStream s').program =
    (ParsedProgram.ofStream s).program.recast (.ofPlaces (s.toEnd s'))
  diagnostics : (ParsedProgram.ofStream s').diagnostics =
    (ParsedProgram.ofStream s).diagnostics.map fun d => ⟨d.problem, d.position.map (s.toEnd s')⟩
  accepts (p) : Program.ofStream s' = .ok p ↔ Program.ofStream s = .ok p

theorem ReadAlike.of_tokens (h : s'.tokens = s.tokens)
    (hb : ∀ t ∈ s.tokens, t.kind.NamesBuiltin) (ha : ∀ t ∈ s.tokens, t.position ≠ s.stop) :
    ReadAlike s s' := by
  have ht : s'.tokens = s.tokens.map (·.recast (.ofPlaces (s.toEnd s'))) := by
    have hk (t) (ht : t ∈ s.tokens) : t.recast (.ofPlaces (s.toEnd s')) = t :=
      congrArg₂ Token.mk t.kind.recast_ofPlaces (if_neg (ha t ht))
    rw [h, List.map_congr_left hk, List.map_id']
  have hr := ParsedProgram.ofStream_recast hb ht (if_pos rfl).symm
  have hd : (ParsedProgram.ofStream s').diagnostics =
      (ParsedProgram.ofStream s).diagnostics.map
        fun d => ⟨d.problem, d.position.map (s.toEnd s')⟩ := by
    rw [hr]
    exact List.map_congr_left fun d _ => congrArg (Diagnostic.mk · _) d.problem.recast_ofPlaces
  have hp (hn : (ParsedProgram.ofStream s).diagnostics = []) :
      (ParsedProgram.ofStream s').program = (ParsedProgram.ofStream s).program := by
    have hl := ParsedProgram.isProgram hn
    rw [← h] at hl
    have hu := (ParsedProgram.ofStream_of_isProgram hl).2
    rw [hr] at hu ⊢
    exact Program.recast_eq_self hu
  refine ⟨h, ha, congrArg ParsedProgram.program hr, hd, fun p => ?_⟩
  rw [Program.ofStream_eq_ok, Program.ofStream_eq_ok, hd, List.map_eq_nil_iff]
  exact and_congr_right fun hn => by rw [hp hn]

theorem ofTokens_toList (h : ∀ t ∈ s.tokens, t.kind ≠ .endOfInput) :
    (ofTokens s.toList).tokens = s.tokens := by
  have hk : ∀ t ∈ s.tokens, decide (t.kind ≠ .endOfInput) = true := fun t ht =>
    decide_eq_true (h t ht)
  have ht : s.toList.takeWhile (·.kind ≠ .endOfInput) = s.tokens ++ [] :=
    List.takeWhile_append_of_pos hk
  rw [ofTokens, ht, List.append_nil]

-- It is the same to scan the tokens of a text as they are asked for and to gather them first.
theorem readAlike_gathered (text : String) :
    (∀ count, (ofText text).take count = (Scan.Cursor.ofText text).take count) ∧
      ReadAlike (ofText text) (ofTokens (ofText text).toList) := by
  have hc := Scan.consists_ofText text
  refine ⟨(Scan.Cursor.ofText text).take_stream, ?_⟩
  refine .of_tokens (ofTokens_toList hc.kind_ne) (namesBuiltin_ofText text) fun t ht => ?_
  have hp := (List.pairwise_append.mp hc.pairwise_before).2.2
  exact (hp t ht _ List.mem_cons_self).ne

-- A scanner ends behind the last token, gathered tokens end with it.
example : (ofText "class").stop = ⟨1, 6⟩ ∧ (ofTokens (ofText "class").toList).stop = ⟨1, 1⟩ := by
  decide +kernel

end TokenStream

end MiniJava
