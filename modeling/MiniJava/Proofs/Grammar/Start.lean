import MiniJava.Proofs.Grammar.Basic
import MiniJava.Tree.ReadStatement

namespace MiniJava.Grammar

def startsTerm : TokenKind → Bool
  | .identifier _ | .integer _ | .leftParen | .keyword _ => true
  | _ => false

def startsExpression (kind : TokenKind) : Bool :=
  startsTerm kind || kind = .not

theorem ne_of_startsTerm (h : startsTerm kind) (hk : startsTerm kind' = false := by rfl) :
    kind ≠ kind' :=
  fun he => by rw [he, hk] at h; cases h

theorem ne_of_startsExpression (h : startsExpression kind)
    (hk : startsExpression kind' = false := by rfl) : kind ≠ kind' :=
  fun he => by rw [he, hk] at h; cases h

theorem IsTerm.start : IsTerm l e r → ∃ t m, l = t :: m ∧ startsTerm t.kind
  | .index h .. | .length h .. | .call h .. => h.start
  | .self h | .yes h | .no h | .integer h | .reference h | .parentheses h .. | .newObject h ..
  | .newArray h .. => ⟨_, _, rfl, by rw [h]; rfl⟩

theorem IsLevel.start : IsLevel k l e r → ∃ t m, l = t :: m ∧ startsExpression t.kind
  | .tighter h | .binary h .. => h.start
  | .not h _                  => ⟨_, _, rfl, by rw [h]; rfl⟩
  | .term h                   =>
    have ⟨t, m, hl, ht⟩ := h.start
    ⟨t, m, hl, by simp [startsExpression, ht]⟩

theorem IsArgumentList.start : IsArgumentList l es r → ∃ t m, l = t :: m ∧ startsExpression t.kind
  | .one h | .more h .. => h.start

-- What follows the identifier that an expression starts with. It may be all of the expression.
inductive Follows (r : List Token) : List Token → Prop
  | end                                                               : Follows r r
  | dot (h : u.kind = .dot)                                           : Follows r (u :: m)
  | operator (h : u.kind = .operator op)                              : Follows r (u :: m)
  | bracket (h : u.kind = .leftBracket) (hv : v.kind ≠ .rightBracket) : Follows r (u :: v :: m)

theorem Follows.trans (h : Follows r m) : Follows r' r → Follows r' m :=
  match h with
  | .end          => id
  | .dot h        => fun _ => .dot h
  | .operator h   => fun _ => .operator h
  | .bracket h hv => fun _ => .bracket h hv

theorem IsTerm.follows (ht : t.kind = .identifier name) :
    IsTerm l e r → l = t :: m → Follows r m
  | .self h, hl | .yes h, hl | .no h, hl | .integer h, hl | .parentheses h .., hl
  | .newObject h .., hl | .newArray h .., hl => by
    rw [(List.cons.inj hl).1, ht] at h
    cases h
  | .reference _, hl        => (List.cons.inj hl).2 ▸ .end
  | .length hr hk _, hl     => (hr.follows ht hl).trans (.dot hk)
  | .call hr hk _ _ _ _, hl => (hr.follows ht hl).trans (.dot hk)
  | .index ha hk hx _, hl   =>
    have ⟨v, m, hm, hv⟩ := hx.start
    (ha.follows ht hl).trans (hm ▸ .bracket hk (ne_of_startsExpression hv))

theorem IsLevel.follows (ht : t.kind = .identifier name) :
    IsLevel k l e r → l = t :: m → Follows r m
  | .term h, hl          => h.follows ht hl
  | .tighter h, hl       => h.follows ht hl
  | .binary h hk _ _, hl => (h.follows ht hl).trans (.operator hk)
  | .not h _, hl         => by
    rw [(List.cons.inj hl).1, ht] at h
    cases h

-- Whether a statement, a member or a parameter can start with the token.
def startsStatement : TokenKind → Bool
  | .rightBrace | .rightParen | .keyword .elseWord | .endOfInput => false
  | _ => true

theorem ne_of_startsStatement (h : startsStatement kind)
    (hk : startsStatement kind' = false := by rfl) : kind ≠ kind' :=
  fun he => by rw [he, hk] at h; cases h

theorem startsStatement_of_expression (h : startsExpression kind)
    (hk : ∀ word, kind ≠ .keyword word) : startsStatement kind := by
  cases kind <;> simp_all [startsExpression, startsTerm, startsStatement]

theorem IsType.start : IsType l type r → ∃ t m, l = t :: m ∧ NamesType t type.name
  | .plain h | .array h .. => ⟨_, _, rfl, h⟩

theorem NamesType.startsStatement : NamesType t name → startsStatement t.kind
  | .identifier h | .typeName h => by rw [h]; rfl

theorem IsVariable.start (h : IsVariable storage l d r) :
    ∃ t m, l = t :: m ∧ startsStatement t.kind := by
  cases h with | intro h =>
  obtain ⟨t, m, hl, ht⟩ := h.start
  exact ⟨t, m, hl, ht.startsStatement⟩

theorem IsStatement.start : IsStatement closed l st r → ∃ t m, l = t :: m ∧ startsStatement t.kind
  | .declare h _ => h.start
  | .print h .. | .ret h .. | .assert h .. | .block h .. | .ifThen h .. | .ifThenElse h ..
  | .loop h .. => ⟨_, _, rfl, by rw [h]; rfl⟩
  | .assign hk h .. | .call hk h .. =>
    have ⟨_, _, hl, ht⟩ := h.start
    ⟨_, _, rfl, startsStatement_of_expression ((List.cons.inj hl).1 ▸ ht) hk⟩

end MiniJava.Grammar

namespace MiniJava.Reading.StatementStart

open Grammar

-- The tokens behind each way in which a statement starts.
inductive Of : List Token → StatementStart → Prop
  | typed : t.kind = .typeName name builtin → Of (t :: r) (typed name)
  | word : t.kind = .keyword found → Of (t :: r) (word found)
  | brace : t.kind = .leftBrace → Of (t :: r) brace
  | array :
    t.kind = .identifier name → u.kind = .leftBracket → v.kind = .rightBracket →
      Of (t :: u :: v :: r) (named ⟨name, true⟩)
  | plain :
    t.kind = .identifier name → u.kind = .identifier x → Of (t :: u :: r) (named ⟨name, false⟩)
  | expression : (∀ t r word, l = t :: r → t.kind ≠ .keyword word) → Of l expression

theorem of_ofTokens (l : List Token) : Of l (ofTokens l) := by
  match l with
  | [] => exact .expression fun _ _ _ h => nomatch h
  | t :: l =>
    rcases ht : t.kind
    case typeName    => simpa [ofTokens, ht] using .typed ht
    case keyword     => simpa [ofTokens, ht] using .word ht
    case leftBrace   => simpa [ofTokens, ht] using .brace ht
    case identifier name =>
      have he : Of (t :: l) expression := .expression fun _ _ _ h => by cases h; simp [ht]
      match l with
      | [] => simpa [ofTokens, ht] using he
      | u :: l =>
        rcases hu : u.kind
        case identifier  => simpa [ofTokens, ht, hu] using .plain ht hu
        case leftBracket =>
          match l with
          | [] => simpa [ofTokens, ht, hu] using he
          | v :: r =>
            rcases hv : v.kind
            case rightBracket => simpa [ofTokens, ht, hu, hv] using .array ht hu hv
            all_goals simpa [ofTokens, ht, hu, hv] using he
        all_goals simpa [ofTokens, ht, hu] using he
    all_goals
      simpa [ofTokens, ht] using .expression fun _ _ _ h => by cases h; simp [ht]

theorem ofTokens_of_keyword (h : t.kind = .keyword found) : ofTokens (t :: l) = word found := by
  simp [ofTokens, h]

theorem ofTokens_of_leftBrace (h : t.kind = .leftBrace) : ofTokens (t :: l) = brace := by
  simp [ofTokens, h]

theorem ofTokens_of_isType (h : IsType (t :: l) type (u :: r)) (hu : u.kind = .identifier x) :
    ofTokens (t :: l) = typed type.name ∨ ofTokens (t :: l) = named type := by
  cases h with
  | plain hn =>
    cases hn with
    | identifier hk => exact .inr (by simp [ofTokens, hk, hu])
    | typeName hk   => exact .inl (by simp [ofTokens, hk])
  | array hn hv hw =>
    cases hn with
    | identifier hk => exact .inr (by simp [ofTokens, hk, hv, hw])
    | typeName hk   => exact .inl (by simp [ofTokens, hk])

-- An expression in front of a `=` or `;` is taken for neither a declaration nor a word.
theorem ofTokens_of_isLevel (h : IsLevel k (t :: m) e (u :: r))
    (hk : ∀ word, t.kind ≠ .keyword word) (hu : u.kind = .assign ∨ u.kind = .semicolon) :
    ofTokens (t :: m) = expression := by
  obtain ⟨t', m', hl, ht⟩ := h.start
  obtain ⟨rfl, rfl⟩ := List.cons.inj hl
  cases hi : t.kind with
  | identifier name =>
    cases h.follows hi rfl with
    | «end»         => rcases hu with hu | hu <;> simp [ofTokens, hi, hu]
    | dot hd        => simp [ofTokens, hi, hd]
    | operator ho   => simp [ofTokens, hi, ho]
    | bracket hb hv => simp [ofTokens, hi, hb, hv]
  | keyword word => exact absurd hi (hk word)
  | _ => simp_all [ofTokens, startsExpression, startsTerm]

end MiniJava.Reading.StatementStart
