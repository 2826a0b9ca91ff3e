import MiniJava.Proofs.Reading.Complete.Program
import MiniJava.Proofs.Recovery.Boundary
import MiniJava.Proofs.Recovery.Program

namespace MiniJava

namespace Grammar

def endsPiece : TokenKind → Bool
  | .semicolon | .leftBrace | .rightBrace | .malformed _ | .endOfInput => true
  | _ => false

-- Tokens up to a `;` that are no statement.
structure Piece where
  body  : List Token
  stop  : Token
  plain : ∀ t ∈ body, endsPiece t.kind = false
  ends  : stop.kind = .semicolon
  wrong : ∀ st, ¬ IsStatement false (body ++ [stop]) st []

def Piece.tokens (p : Piece) : List Token :=
  p.body ++ [p.stop]

def Piece.hasIf (q : Piece) : Prop :=
  ∃ t ∈ q.body, t.kind = .keyword .ifWord

-- `class Id { public static void main ( ) {`
inductive OpensMain : List Token → Prop
  | intro :
    t₁.kind = .keyword .classWord → t₂.kind = .identifier name → t₃.kind = .leftBrace →
      t₄.kind = .keyword .publicWord → t₅.kind = .keyword .staticWord →
      t₆.kind = .typeName "void" builtin → t₇.kind = .keyword .mainWord →
      t₈.kind = .leftParen → t₉.kind = .rightParen → t₁₀.kind = .leftBrace →
      OpensMain [t₁, t₂, t₃, t₄, t₅, t₆, t₇, t₈, t₉, t₁₀]

theorem ne_of_endsPiece (h : endsPiece kind = false) (hk : endsPiece kind' = true) :
    kind ≠ kind' :=
  fun he => by rw [he, hk] at h; cases h

namespace Piece

variable {p : Piece} {ps : List Piece}

theorem starts (p : Piece) (l : List Token) :
    ∃ t m, p.tokens ++ l = t :: m ∧ t.kind ≠ .rightBrace := by
  unfold tokens
  cases hb : p.body with
  | nil      => exact ⟨p.stop, l, rfl, by simp [p.ends]⟩
  | cons t m => exact ⟨t, m ++ [p.stop] ++ l, rfl, ne_of_endsPiece (p.plain t (by simp [hb])) rfl⟩

theorem starts_flatMap (ps : List Piece) (hp : ps ≠ []) (l : List Token) :
    ∃ t m, ps.flatMap Piece.tokens ++ l = t :: m ∧ t.kind ≠ .rightBrace := by
  obtain ⟨p, ps, rfl⟩ := List.exists_cons_of_ne_nil hp
  obtain ⟨t, m, hl, ht⟩ := p.starts (ps.flatMap Piece.tokens ++ l)
  exact ⟨t, m, by simpa using hl, ht⟩

theorem mem_tokens (ht : t ∈ ps.flatMap Piece.tokens) :
    t.kind = .semicolon ∨ endsPiece t.kind = false := by
  obtain ⟨p, -, ht⟩ := List.mem_flatMap.mp ht
  rcases List.mem_append.mp ht with ht | ht
  case inl => exact .inr (p.plain t ht)
  case inr => exact .inl (List.mem_singleton.mp ht ▸ p.ends)

theorem ne_leftBrace (ht : t ∈ ps.flatMap Piece.tokens) : t.kind ≠ .leftBrace :=
  (mem_tokens ht).elim (fun hk => by simp [hk]) (ne_of_endsPiece · rfl)

theorem exists_hasIf (ht : t ∈ ps.flatMap Piece.tokens) (hk : t.kind = .keyword .ifWord) :
    ∃ p ∈ ps, p.hasIf := by
  obtain ⟨p, hp, ht⟩ := List.mem_flatMap.mp ht
  refine ⟨p, hp, t, (List.mem_append.mp ht).resolve_right fun ht => ?_, hk⟩
  simp [List.mem_singleton.mp ht, p.ends] at hk

-- Behind each `;` another piece starts.
theorem split (h : ps.flatMap Piece.tokens = x ++ u :: l) (hu : u.kind = .semicolon) :
    ∃ qs rs, ps = qs ++ rs ∧ l = rs.flatMap Piece.tokens := by
  induction ps generalizing x with
  | nil          => simp at h
  | cons p ps ih =>
    have h : p.body ++ p.stop :: ps.flatMap Piece.tokens = x ++ u :: l := by
      simpa [Piece.tokens] using h
    rcases List.append_eq_append_iff.mp h with ⟨y, rfl, hy⟩ | ⟨y, hy, hy'⟩
    case inl =>
      cases y with
      | nil      => exact ⟨[p], ps, rfl, (List.cons.inj hy).2.symm⟩
      | cons v y =>
        obtain ⟨qs, rs, rfl, hl⟩ := ih (List.cons.inj hy).2
        exact ⟨p :: qs, rs, rfl, hl⟩
    case inr =>
      cases y with
      | nil      => exact ⟨[p], ps, rfl, (List.cons.inj hy').2⟩
      | cons v y =>
        have hv := p.plain v (by simp [hy])
        simp [← (List.cons.inj hy').1, hu, endsPiece] at hv

end Piece

end Grammar

namespace Reading

open Grammar Attempt

-- The `;` behind the pieces `qs` was taken in the middle of a statement.
def Misses (ds : List Diagnostic) (qs : List Piece) : Prop :=
  ∃ q ∈ qs.getLast?, Misplaces ds q.stop

-- The last of the pieces with an `if` is followed by nothing but what may belong to the `if`.
def Pends (ds : List Diagnostic) (qs : List Piece) : Prop :=
  ∃ qs₁ q qs₂, qs = qs₁ ++ q :: qs₂ ∧ q.hasIf ∧
    ∀ rs r rs', qs₂ = rs ++ r :: rs' → Misses ds (q :: rs) ∨ StartsElse r.body

-- The piece behind the pieces `qs` is reported, unless the `;` before it was taken in the middle of
-- a statement or it is read as the `else` of an `if` before it.
def Heeded (ds : List Diagnostic) (qs : List Piece) (p : Piece) : Prop :=
  Blames ds p.tokens ∨ Misses ds qs ∨ StartsElse p.body ∧ Pends ds qs

theorem Misses.kept (h : Passes s s') (hm : Misses s.diagnostics.toList qs) :
    Misses s'.diagnostics.toList qs :=
  have ⟨q, hq, hm⟩ := hm
  ⟨q, hq, hm.kept h⟩

theorem misses_append (hr : rs ≠ []) : Misses ds (qs ++ rs) ↔ Misses ds rs := by
  unfold Misses
  rw [List.getLast?_append_of_ne_nil qs hr]

theorem Heeded.kept (h : Passes s s') (hh : Heeded s.diagnostics.toList qs p) :
    Heeded s'.diagnostics.toList qs p := by
  refine hh.imp (·.kept h) (Or.imp (·.kept h) ?_)
  rintro ⟨he, qs₁, q, qs₂, hq, hi, hr⟩
  exact ⟨he, qs₁, q, qs₂, hq, hi, fun rs r rs' hs => (hr rs r rs' hs).imp (·.kept h) id⟩

theorem Heeded.append (qs : List Piece) (h : Heeded ds rs p) : Heeded ds (qs ++ rs) p := by
  refine h.imp id (Or.imp (fun hm => ?misses) ?pends)
  case misses =>
    refine (misses_append ?_).mpr hm
    rintro rfl
    simp [Misses] at hm
  case pends =>
    rintro ⟨he, qs₁, q, qs₂, rfl, hq⟩
    exact ⟨he, qs ++ qs₁, q, qs₂, (List.append_assoc ..).symm, hq⟩

theorem startsElse_body {p : Piece} (h : StartsElse (p.tokens ++ l)) : StartsElse p.body := by
  obtain ⟨u, r, hl, hu⟩ := h
  unfold Piece.tokens at hl
  cases hb : p.body with
  | nil      =>
    have hp : p.stop = u := (List.cons.inj (by simpa [hb] using hl)).1
    simp [← hp, p.ends] at hu
  | cons v m =>
    have hv : v = u := (List.cons.inj (by simpa [hb] using hl)).1
    exact ⟨v, m, rfl, hv ▸ hu⟩

section

variable {s s' : Input} {p : Piece} {qs ps : List Piece} {b : List Token}

-- What takes a statement past the `;` in front of a piece.
theorem Strides.goes_on (h : Strides s s') (hq : qs ≠ [])
    (hs : s.tokens = (qs ++ p :: ps).flatMap Piece.tokens ++ b)
    (hn : ¬ (p :: ps).flatMap Piece.tokens ++ b <:+ s'.tokens) :
    Misses s'.diagnostics.toList qs ∨ StartsElse p.body ∧ ∃ q ∈ qs, q.hasIf := by
  obtain ⟨qs, q, rfl⟩ := (List.eq_nil_or_concat' qs).resolve_left hq
  have hs₁ : s.tokens = (qs.flatMap Piece.tokens ++ q.body) ++
      q.stop :: ((p :: ps).flatMap Piece.tokens ++ b) := by
    simpa [Piece.tokens] using hs
  have hq : qs.flatMap Piece.tokens ++ q.body ⊆ (qs ++ [q]).flatMap Piece.tokens := by
    simp [Piece.tokens, List.append_subset]
  rcases h.misplaces hs₁ q.ends fun t ht => Piece.ne_leftBrace (hq ht) with hm | ⟨he, hi⟩ | hl
  case inl     => exact .inl ⟨q, by simp, hm⟩
  case inr.inl =>
    obtain ⟨t, ht, hk⟩ := hi
    have he : StartsElse (p.tokens ++ (ps.flatMap Piece.tokens ++ b)) := by simpa using he
    exact .inr ⟨startsElse_body he, Piece.exists_hasIf (hq ht) hk⟩
  case inr.inr => exact absurd hl hn

-- A statement that goes on past a piece has reasons to do so.
theorem Strides.heeds_of_past (h : Strides s s') (hq : qs ≠ [])
    (hs : s.tokens = (qs ++ p :: ps).flatMap Piece.tokens ++ b)
    (hn : ¬ (p :: ps).flatMap Piece.tokens ++ b <:+ s'.tokens) :
    Heeded s'.diagnostics.toList qs p := by
  refine .inr ((h.goes_on hq hs hn).imp id ?_)
  rintro ⟨he, q, hq, hi⟩
  obtain ⟨qs₁, qs₂, rfl⟩ := List.append_of_mem hq
  refine ⟨he, qs₁, q, qs₂, rfl, hi, ?_⟩
  rintro rs r rs' rfl
  have hs : s.tokens =
      ((qs₁ ++ q :: rs) ++ r :: (rs' ++ p :: ps)).flatMap Piece.tokens ++ b := by
    simpa using hs
  refine (h.goes_on (by simp) hs fun hl => hn (.trans ⟨?tokens, ?nonempty⟩ hl)).imp ?last And.left
  case tokens => exact (r :: rs').flatMap Piece.tokens
  case nonempty => simp
  case last => exact (misses_append (by simp)).mp

-- A statement that ends in front of a piece ends where a piece starts.
theorem Strides.lands_at_piece (h : Strides s s')
    (hs : s.tokens = (qs ++ p :: ps).flatMap Piece.tokens ++ b)
    (hl : (p :: ps).flatMap Piece.tokens ++ b <:+ s'.tokens) :
    ∃ qs₁ qs₂, qs = qs₁ ++ qs₂ ∧ s'.tokens = (qs₂ ++ p :: ps).flatMap Piece.tokens ++ b := by
  have hs : s.tokens = qs.flatMap Piece.tokens ++ ((p :: ps).flatMap Piece.tokens ++ b) := by
    simpa using hs
  obtain ⟨c, hc, -⟩ := h.passes.rest_of_suffix hs hl
  rcases h.lands with he | ⟨x, hx, t, ht, hk⟩ | ⟨x, u, hx, hu⟩
  case inl     =>
    obtain ⟨t, m, hm, -⟩ := Piece.starts_flatMap (p :: ps) (by simp) b
    rw [hc, hm] at he
    simp at he
  case inr.inl =>
    have hx : qs.flatMap Piece.tokens = x ++ c := by
      refine List.append_cancel_right (hs.symm.trans (hx.trans ?_))
      rw [hc, List.append_assoc]
    exact absurd hk (Piece.ne_leftBrace (hx ▸ List.mem_append_left c ht))
  case inr.inr =>
    have hx : qs.flatMap Piece.tokens = x ++ u :: c := by
      refine List.append_cancel_right (hs.symm.trans (hx.trans ?_))
      rw [hc, List.append_assoc, List.cons_append]
    obtain ⟨qs₁, qs₂, rfl, rfl⟩ := Piece.split hx hu
    exact ⟨qs₁, qs₂, rfl, by simpa using hc⟩

theorem Strides.heeds (h : Strides s s') (hb : Begins s s')
    (hs : s.tokens = (qs ++ p :: ps).flatMap Piece.tokens ++ b) :
    Heeded s'.diagnostics.toList qs p ∨
      ∃ qs₁ qs₂, qs = qs₁ ++ qs₂ ∧ s'.tokens = (qs₂ ++ p :: ps).flatMap Piece.tokens ++ b := by
  by_cases hq : qs = []
  case pos =>
    have hs : s.tokens = p.body ++ p.stop :: (ps.flatMap Piece.tokens ++ b) := by
      simpa [hq, Piece.tokens] using hs
    have ha (t) (ht : t ∈ p.body) := p.plain t ht
    rcases h.blames hb hs p.ends fun t ht =>
      ⟨ne_of_endsPiece (ha t ht) rfl, ne_of_endsPiece (ha t ht) rfl⟩ with hr | ⟨st, hst⟩
    case inl => exact .inl (.inl hr)
    case inr => exact absurd hst (p.wrong st)
  case neg =>
    by_cases hl : (p :: ps).flatMap Piece.tokens ++ b <:+ s'.tokens
    case pos => exact .inr (h.lands_at_piece hs hl)
    case neg => exact .inl (h.heeds_of_past hq hs hl)

end

theorem heeded_statementList (n : Nat) (s : Cursor n) (qs ps : List Piece)
    (hs : s.tokens = (qs ++ p :: ps).flatMap Piece.tokens ++ b) :
    Heeded (statementList n s).2.diagnostics.toList qs p := by
  induction n generalizing qs with
  | zero      =>
    obtain ⟨t, l, hl, -⟩ := Piece.starts_flatMap (qs ++ p :: ps) (by simp) b
    exact absurd s.fits (by rw [hs, hl]; simp)
  | succ n ih =>
    obtain ⟨t, l, hl, ht⟩ := Piece.starts_flatMap (qs ++ p :: ps) (by simp) b
    have hk : s.head.kind ≠ .rightBrace := Cursor.head_eq (hs.trans hl) ▸ ht
    have hm := (meets_statement (n + 1) s).holds
    have hb : Begins s.toInput (statement (n + 1) s).2.toInput := fun hq =>
      ⟨_, (hm.derives hq).1 false (by simp)⟩
    have hp := (walks_statementList n (statement (n + 1) s).2).passes
    rw [statementList]
    simp only [hs, hl, hk, List.isEmpty_cons, decide_false, Bool.or_false]
    rcases (strides_statement (n + 1) s).heeds hb hs with hh | ⟨qs₁, qs₂, rfl, hs'⟩
    case inl => exact hh.kept hp
    case inr => exact (ih _ qs₂ hs').append qs₁

namespace Attempt

variable {s : Cursor n} {R : Input → Prop}

theorem Yields.then {e : Attempt n α} {f : α → Attempt n β} (h : e.Yields s P l)
    (hf : ∀ a s', s'.tokens = l → (f a).Ends s' R Q) : Ends (e >>= f) s R Q := by
  obtain ⟨⟨a, ho, -⟩, ht, -⟩ := h
  refine Ends.bind (P := fun _ s' => s'.tokens = l) ?_ hf
  unfold Ends
  rw [ho]
  exact .value ht

end Attempt

theorem kept_heeded (qs : List Piece) (p : Piece) :
    Kept fun s => Heeded s.diagnostics.toList qs p :=
  fun _ _ h t => h.kept t.passes

theorem heeded_mainClass (h : OpensMain front) (n : Nat) (s : Cursor n)
    (hs : s.tokens = front ++ ((qs ++ p :: ps).flatMap Piece.tokens ++ b)) :
    (mainClass n).Ends s (Heeded ·.diagnostics.toList qs p)
      fun _ s' => Heeded s'.diagnostics.toList qs p := by
  cases h with | intro h₁ h₂ h₃ h₄ h₅ h₆ h₇ h₈ h₉ h₁₀ =>
  refine (yields_expectKind hs h₁).then fun _ s₁ hs₁ => ?_
  refine (yields_expectIdentifier hs₁ h₂).then fun _ s₂ hs₂ => ?_
  refine (yields_expectKind hs₂ h₃).then fun _ s₃ hs₃ => ?_
  refine (yields_expectKind hs₃ h₄).then fun _ s₄ hs₄ => ?_
  refine (yields_expectKind hs₄ h₅).then fun _ s₅ hs₅ => ?_
  refine (yields_expectNamedType hs₅ h₆).then fun _ s₆ hs₆ => ?_
  refine (yields_expectKind hs₆ h₇).then fun _ s₇ hs₇ => ?_
  refine (yields_expectKind hs₇ h₈).then fun _ s₈ hs₈ => ?_
  refine (yields_expectKind hs₈ h₉).then fun _ s₉ hs₉ => ?_
  refine (yields_expectKind hs₉ h₁₀).then fun _ s₁₀ hs₁₀ => ?_
  have hb := heeded_statementList n s₁₀ qs ps hs₁₀
  have hk := kept_heeded qs p
  refine .bind (P := fun _ s' => Heeded s'.diagnostics.toList qs p) (.lift hb) fun body s₁₁ => ?_
  refine ((goes_expectKind (by simp) (by simp)).keeps hk).bind fun _ s₁₂ => ?_
  refine ((goes_expectKind (by simp) (by simp)).keeps hk).bind fun _ s₁₃ => ?_
  exact (goes_freshId.keeps hk).bind fun _ _ => .pure

theorem heeded_program (h : OpensMain front) (n : Nat) (s : Cursor n)
    (hs : s.tokens = front ++ ((qs ++ p :: ps).flatMap Piece.tokens ++ b)) :
    Heeded (program n s).2.diagnostics.toList qs p := by
  have hm : Heeded (recover skipClass (mainClass n) s).2.diagnostics.toList qs p :=
    (heeded_mainClass h n s hs).recover (Q := fun s' => Heeded s'.diagnostics.toList qs p)
      fun s' h => h.kept (passes_skipClass s')
  rw [run_program]
  exact hm.kept (walks_classList n _).passes

end Reading

namespace ParsedProgram

open Reading Grammar

-- What is read if there are the pieces between the tokens `front` and `back`.
def ofPieces (front : List Token) (ps : List Piece) (back : List Token) : ParsedProgram :=
  ofStream (.ofTokens (front ++ (ps.flatMap Piece.tokens ++ back)))

-- In a main method whose statements are all wrong, each is reported at one of its tokens, or there
-- is a reason for it not to be.
theorem pieces_reported (h : OpensMain front) (before after : List Piece) (p : Piece)
    (back : List Token) :
    Heeded (ofPieces front (before ++ p :: after) back).diagnostics before p := by
  have hk (t) (ht : t ∈ front) : t.kind ≠ .endOfInput := by
    cases h
    simp only [List.mem_cons, List.not_mem_nil, or_false] at ht
    rcases ht with rfl | rfl | rfl | rfl | rfl | rfl | rfl | rfl | rfl | rfl <;> simp [*]
  have hk' (t) (ht : t ∈ (before ++ p :: after).flatMap Piece.tokens) : t.kind ≠ .endOfInput :=
    (Piece.mem_tokens ht).elim (fun hk => by simp [hk]) (ne_of_endsPiece · rfl)
  have hs : (TokenStream.ofTokens (front ++
      ((before ++ p :: after).flatMap Piece.tokens ++ back))).tokens =
      front ++ ((before ++ p :: after).flatMap Piece.tokens ++
        back.takeWhile (·.kind ≠ .endOfInput)) := by
    unfold TokenStream.ofTokens
    rw [List.takeWhile_append_of_pos (by simpa using hk),
      List.takeWhile_append_of_pos (by simpa using hk')]
  exact heeded_program h _ (Cursor.ofStream _) hs

-- Tokens that are reported when they are read as a statement are none.
theorem not_isStatement {l : List Token}
    (h : (statement l.length (Cursor.ofStream ⟨l, .start⟩)).2.diagnostics ≠ #[]) :
    ¬ IsStatement false l st [] := by
  intro hst
  have hr : false = false → ¬ StartsElse [] := by simp [StartsElse]
  exact h (hst.reads hr (Cursor.ofStream ⟨l, .start⟩) rfl).quiet

-- Tokens in one line.
def row (column : Nat) (kinds : List TokenKind) : List Token :=
  kinds.mapIdx fun i kind => ⟨kind, ⟨1, column + i⟩⟩

def mainRow : List Token :=
  row 1 [.keyword .classWord, .identifier "A", .leftBrace, .keyword .publicWord,
    .keyword .staticWord, .typeName "void" true, .keyword .mainWord, .leftParen, .rightParen,
    .leftBrace]

def closing (column : Nat) : List Token :=
  row column [.rightBrace, .rightBrace]

theorem opensMain_mainRow : OpensMain mainRow :=
  .intro rfl rfl rfl rfl rfl rfl rfl rfl rfl rfl

-- `a b c;`
def overnamed : Piece where
  body  := row 11 [.identifier "a", .identifier "b", .identifier "c"]
  stop  := ⟨.semicolon, ⟨1, 14⟩⟩
  plain := by decide
  ends  := rfl
  wrong := fun _ => not_isStatement (by decide +kernel)

-- `assert (x;`
def unclosed : Piece where
  body  := row 11 [.keyword .assertWord, .leftParen, .identifier "x"]
  stop  := ⟨.semicolon, ⟨1, 14⟩⟩
  plain := by decide
  ends  := rfl
  wrong := fun _ => not_isStatement (by decide +kernel)

-- `);`
def lateClose : Piece where
  body  := row 15 [.rightParen]
  stop  := ⟨.semicolon, ⟨1, 16⟩⟩
  plain := by decide
  ends  := rfl
  wrong := fun _ => not_isStatement (by decide +kernel)

-- `if (a) );`
def badBranch : Piece where
  body  := row 11 [.keyword .ifWord, .leftParen, .identifier "a", .rightParen, .rightParen]
  stop  := ⟨.semicolon, ⟨1, 16⟩⟩
  plain := by decide
  ends  := rfl
  wrong := fun _ => not_isStatement (by decide +kernel)

-- `else x = 1;`
def lateElse : Piece where
  body  := row 17 [.keyword .elseWord, .identifier "x", .assign, .integer 1]
  stop  := ⟨.semicolon, ⟨1, 21⟩⟩
  plain := by decide
  ends  := rfl
  wrong := fun _ => not_isStatement (by decide +kernel)

-- In `a b c; );` no `;` is taken in the middle of a statement, so both pieces are reported.
theorem pieces_reported_mainRow :
    let ds := (ofPieces mainRow [overnamed, lateClose] (closing 17)).diagnostics
    OpensMain mainRow ∧ Blames ds overnamed.tokens ∧ Blames ds lateClose.tokens := by
  intro ds
  have hstop : ∀ d ∈ ds, d.position ≠ some overnamed.stop.position := by decide +kernel
  refine ⟨opensMain_mainRow, ?first, ?second⟩
  case first =>
    rcases pieces_reported opensMain_mainRow [] [lateClose] overnamed (closing 17) with h | h | h
    case inl     => exact h
    case inr.inl =>
      obtain ⟨_, hq, _⟩ := h
      cases hq
    case inr.inr =>
      obtain ⟨⟨_, _, he, hk⟩, _⟩ := h
      cases he
      cases hk
  case second =>
    rcases pieces_reported opensMain_mainRow [overnamed] [] lateClose (closing 17) with h | h | h
    case inl     => exact h
    case inr.inl =>
      obtain ⟨_, hq, _, hd⟩ := h
      cases hq
      exact absurd rfl (hstop _ hd)
    case inr.inr =>
      obtain ⟨⟨_, _, he, hk⟩, _⟩ := h
      cases he
      cases hk

instance : Decidable (Blames ds l) :=
  inferInstanceAs (Decidable (∃ d ∈ ds, ∃ t ∈ l, d.position = some t.position))

-- In `assert (x; );` nothing is reported behind the first `;`. In `if (a) ); else x = 1;` the `else`
-- belongs to the `if`, although nothing is reported at the first `;`.
theorem pieces_hidden :
    OpensMain mainRow ∧
      ¬ Blames (ofPieces mainRow [unclosed, lateClose] (closing 17)).diagnostics lateClose.tokens ∧
      ¬ Blames (ofPieces mainRow [badBranch, lateElse] (closing 22)).diagnostics
        (badBranch.stop :: lateElse.tokens) :=
  ⟨opensMain_mainRow, by decide +kernel⟩

end ParsedProgram

end MiniJava
