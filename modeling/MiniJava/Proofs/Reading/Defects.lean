import MiniJava.Proofs.Reading.Program

namespace MiniJava

namespace Reading

-- The reports of malformed tokens: those that have been made, and those that the tokens to come are
-- worth. A malformed token is reported when it is taken, and a reading takes all tokens, so none is
-- lost and none is reported twice.
def Input.defects (s : Input) : List Diagnostic :=
  s.diagnostics.toList.filter (·.kind = .lexical) ++ s.tokens.filterMap defect?

theorem kind_of_defect? (h : defect? t = some d) : d.kind = .lexical := by
  obtain ⟨_, _, rfl⟩ := Option.map_eq_some_iff.mp h
  rfl

theorem filter_defects (l : List Token) :
    (l.filterMap defect?).filter (·.kind = .lexical) = l.filterMap defect? := by
  refine List.filter_eq_self.mpr fun d hd => ?_
  obtain ⟨t, _, ht⟩ := List.mem_filterMap.mp hd
  exact decide_eq_true (kind_of_defect? ht)

-- Taking a token turns what it is worth into a report; nothing else reports a malformed token.
theorem Move.defects_eq (m : Move s s') : s'.defects = s.defects := by
  cases m with
  | take =>
    have ht : s.tokens.take 1 ++ s.tokens.tail = s.tokens := by
      rw [← List.drop_one, List.take_append_drop]
    simp only [Input.defects, Input.tail]
    rw [Array.toList_appendList, List.filter_append, filter_defects, List.append_assoc,
      ← List.filterMap_append, ht]
  | number => rfl
  | report error position =>
    simp only [Input.defects, Input.report]
    rw [Array.toList_push, List.filter_append]
    exact congrArg (· ++ _) (List.append_nil _)

theorem Passes.defects_eq (h : Passes s s') : s'.defects = s.defects := by
  induction h with
  | refl        => rfl
  | tail _ m hi => exact m.defects_eq.trans hi

-- The classes are read up to the end of input, whatever stands there.
theorem tokens_classList (n : Nat) (s : Cursor n) : (classList n s).2.tokens = [] := by
  induction n with
  | zero      => exact List.length_eq_zero_iff.mp (Nat.le_zero.mp s.fits)
  | succ n hi =>
    rw [classList]
    dsimp only
    split
    case isTrue h  => simpa using h
    case isFalse h => exact hi _

theorem tokens_program (n : Nat) (s : Cursor n) : (program n s).2.tokens = [] := by
  rw [run_program]
  exact tokens_classList n _

section

variable {s : Cursor n}

theorem tail_of_nil {s : Input} (h : s.tokens = []) : s.tail = s := by
  obtain ⟨tokens, stop, nextId, diagnostics⟩ := s
  obtain rfl : tokens = [] := h
  simp [Input.tail]

theorem lift_next_of_nil (h : s.tokens = []) : s.next.2.lift = s := by
  obtain ⟨s, hs⟩ := s
  have := tail_of_nil h
  simp_all [Cursor.lift, Cursor.widen, Cursor.next, Input.tail]

theorem skipUntil_of_nil (h : s.tokens = []) (stop : TokenKind → Bool) : s.skipUntil stop = s := by
  obtain ⟨⟨tokens, end', nextId, diagnostics⟩, hs⟩ := s
  obtain rfl : tokens = [] := h
  simp [Cursor.skipUntil]

theorem run_classList_of_nil (h : s.tokens = []) : classList n s = ([], s) := by
  match n with
  | 0     => rfl
  | n + 1 => simp [classList, h]

theorem run_expectKind_of_nil (h : s.tokens = []) (hk : kind ≠ .endOfInput) :
    ExceptT.run (expectKind kind) s =
      (.error (.because (.unexpected (.token kind) .endOfInput) s.stop), s) := by
  have ht : ExceptT.run take s = (.ok ⟨.endOfInput, s.stop⟩, s) := by
    show (Except.ok s.head, s.next.2.lift) = _
    rw [lift_next_of_nil h, Cursor.head, h]
    rfl
  have ha : ExceptT.run (acceptToken (.token kind) (ofKind kind) ⟨.endOfInput, s.stop⟩) s =
      (.error (.because (.unexpected (.token kind) .endOfInput) s.stop), s) := by
    unfold acceptToken
    rw [ofKind, if_neg hk.symm]
    rfl
  simp only [expectKind, expect, Attempt.run_bind, ht, ha]

-- That the end of input stands where a class has to.
def missingClass (stop : Position) : Diagnostic :=
  .grammatical (.unexpected (.token (.keyword .classWord)) .endOfInput) stop

theorem run_program_of_nil (h : s.tokens = []) :
    program n s =
      (⟨none, []⟩, s.report (.unexpected (.token (.keyword .classWord)) .endOfInput) s.stop) := by
  let s' := s.report (.unexpected (.token (.keyword .classWord)) .endOfInput) s.stop
  have hs : s'.tokens = [] := h
  have hm : recover skipClass (mainClass n) s = (none, s') := by
    have hk : ExceptT.run (expectKeyword .classWord) s = _ := run_expectKind_of_nil h nofun
    rw [run_recover, mainClass, Attempt.run_bind, hk]
    exact congrArg (none, ·) (skipUntil_of_nil hs _)
  rw [run_program, hm]
  dsimp only
  rw [run_classList_of_nil hs]

theorem readProgram_of_nil (h : s.tokens = []) (hd : s.diagnostics = #[]) :
    s.readProgram.1 = ⟨⟨none, []⟩, [missingClass s.stop]⟩ := by
  simp [Cursor.readProgram, run_program_of_nil h, Cursor.report, hd, missingClass]

end

end Reading

namespace ParsedProgram

open Reading

-- The malformed tokens are reported, each once and in order. All tokens have been taken then: what
-- is read afterwards is the end of input.
theorem defects_ofTokens (tokens : List Token) :
    ((ofStream (.ofTokens tokens)).diagnostics.filter (·.kind = .lexical) =
      (tokens.takeWhile (·.kind ≠ .endOfInput)).filterMap fun t =>
        match t.kind with
        | .malformed error => some ⟨.lexical error, some t.position⟩
        | _                => none) ∧
    let again := (Cursor.ofStream (.ofTokens tokens)).readProgram.2.readProgram.1
    again.program = ⟨none, []⟩ ∧
    ∃ d, again.diagnostics = [d] ∧ d.kind = .grammatical ∧
      d.message = "expected `class` but found end of input" ∧
      d.position = some (TokenStream.ofTokens tokens).stop := by
  have hp := (meets_program _ (Cursor.ofStream (.ofTokens tokens))).passes
  have ht := tokens_program _ (Cursor.ofStream (.ofTokens tokens))
  constructor
  case left =>
    have hd := hp.defects_eq
    rw [Input.defects, ht] at hd
    refine ((List.append_nil _).symm.trans hd).trans (List.filterMap_congr fun t _ => ?_)
    cases hk : t.kind <;> simp [defect?, TokenKind.defect?, hk, Diagnostic.lexical]
  case right =>
    have hr := readProgram_of_nil (s := (Cursor.ofStream (.ofTokens tokens)).readProgram.2) ht rfl
    dsimp only
    rw [hr]
    exact ⟨rfl, _, rfl, rfl, rfl, congrArg some hp.stop_eq⟩

end ParsedProgram

end MiniJava
