import MiniJava.Proofs.Prefix.Completion
import MiniJava.Proofs.Prefix.Program
import MiniJava.Proofs.Reading.Complete.Program
import MiniJava.Token.Scan

namespace MiniJava

namespace Program

def Accepts (tokens : List Token) : Prop :=
  ∃ p, ofStream (.ofTokens tokens) = .ok p

-- The tokens before the place `i` are the beginning of a program. With the token there they are not;
-- at the end of input they are, but there is something missing.
structure BreaksAt (tokens : List Token) (i : Nat) : Prop where
  begins : ∃ rest, Accepts (tokens.take i ++ rest)
  breaks : i < tokens.length → ∀ rest, ¬ Accepts (tokens.take (i + 1) ++ rest)
  lacks  : i = tokens.length → ∃ rest, rest ≠ [] ∧ Accepts (tokens ++ rest)

end Program

namespace Prefix

open Reading

-- The goals are met by the tokens.
def Meets (σ : State) (l : List Token) : Prop :=
  ∃ σ', σ.after l = some σ' ∧ σ'.step .endOfInput = .ends

theorem Refuses.not_meets {stop : Position} (h : Refuses σ stop l r) : ¬ Meets σ (l ++ r) := by
  rintro ⟨σ₁, ha, he⟩
  obtain ⟨σ', hl, hs⟩ := h
  rw [State.after_append, hl, Option.bind_some] at ha
  cases r with
  | nil      =>
    cases ha
    cases hs.symm.trans he
  | cons t r =>
    have hs : σ'.step t.kind = .stuck := hs
    rw [State.after, hs] at ha
    cases ha

theorem Blames.not_meets {s : Input} (h : Blames σ s d) : ¬ Meets σ s.tokens := by
  cases h with
  | token hs hr _            => exact hs ▸ hr.not_meets
  | expression hs _ _ _ hr =>
    rw [hs, ← List.append_assoc]
    exact hr.not_meets

variable {s : TokenStream}

theorem meets_or_blames (hc : ∀ t ∈ s.tokens, proper t.kind) :
    (ParsedProgram.ofStream s).diagnostics = [] ∧ Meets .initial s.tokens ∨
    ∃ d ds, (ParsedProgram.ofStream s).diagnostics = d :: ds ∧
      Blames .initial (Cursor.ofStream s).toInput d := by
  have ht := (tracks_program _ (Cursor.ofStream s) hc).holds
  have hn := tokens_program _ (Cursor.ofStream s)
  cases ht with
  | read hr   =>
    obtain ⟨l, σ, hl, ha, hk⟩ := hr.run
    rw [hn] at hl hk
    refine .inl ⟨congrArg Array.toList hr.quiet, σ, ?_, hk.step⟩
    have hl : s.tokens = l := hl.trans (List.append_nil l)
    rwa [hl]
  | blamed hb =>
    obtain ⟨d, hd, ds, hds⟩ := hb
    exact .inr ⟨d, ds, hds.symm, hd⟩

theorem proper_of_diagnostics (hs : ∀ t ∈ s.tokens, t.kind ≠ .endOfInput)
    (h : (ParsedProgram.ofStream s).diagnostics = []) : ∀ t ∈ s.tokens, proper t.kind := by
  intro t ht
  have hd := (meets_program _ (Cursor.ofStream s)).passes.defects_eq
  have h : (program _ (Cursor.ofStream s)).2.diagnostics.toList = [] := h
  rw [Input.defects, tokens_program, h] at hd
  have hn := List.filterMap_eq_nil_iff.mp (show s.tokens.filterMap defect? = [] from hd.symm) t ht
  simp_all [proper, defect?]

-- A list of tokens is accepted if and only if it meets the goals.
theorem accepts_iff (tokens : List Token) :
    Program.Accepts tokens ↔
      let kept := tokens.takeWhile (·.kind ≠ .endOfInput)
      (∀ t ∈ kept, proper t.kind) ∧ Meets .initial kept := by
  constructor
  case mp =>
    rintro ⟨p, h⟩
    have hd := (Program.ofStream_eq_ok.mp h).1
    have hc := proper_of_diagnostics (fun t => TokenStream.kind_ne_of_mem_ofTokens) hd
    rcases meets_or_blames hc with ⟨-, hm⟩ | ⟨d, ds, hds, -⟩
    case inl => exact ⟨hc, hm⟩
    case inr => cases hd.symm.trans hds
  case mpr =>
    rintro ⟨hc, hm⟩
    rcases meets_or_blames (s := .ofTokens tokens) hc with ⟨hd, -⟩ | ⟨d, ds, -, hb⟩
    case inl => exact ⟨_, Program.ofStream_eq_ok.mpr ⟨hd, rfl⟩⟩
    case inr => exact absurd hm hb.not_meets

theorem takeWhile_of_proper {l : List Token} (hl : ∀ t ∈ l, proper t.kind) (r : List Token) :
    (l ++ r).takeWhile (·.kind ≠ .endOfInput) = l ++ r.takeWhile (·.kind ≠ .endOfInput) := by
  refine List.takeWhile_append_of_pos fun t ht => ?_
  have := hl t ht
  simp_all [proper]

-- Whatever the goals lead to, there is a way to the end of a program.
theorem exists_accepts {l : List Token} (hl : ∀ t ∈ l, proper t.kind)
    (h : State.initial.after l = some σ) : ∃ rest, Meets σ rest ∧ Program.Accepts (l ++ rest) := by
  obtain ⟨rest, σ', hr, ha, he⟩ := exists_after (fit_of_after h fit_initial) σ.call
  refine ⟨rest, ⟨σ', ha, he⟩, (accepts_iff _).mpr ?_⟩
  have hk := takeWhile_of_proper (List.forall_mem_append.mpr ⟨hl, hr⟩) []
  rw [List.append_nil] at hk
  rw [hk]
  refine ⟨by simpa using List.forall_mem_append.mpr ⟨hl, hr⟩, σ', ?_, he⟩
  simp [State.after_append, h, ha]

theorem Refuses.breaksAt {stop : Position} (hc : ∀ t ∈ l ++ r, proper t.kind)
    (h : Refuses .initial stop l r) : Program.BreaksAt (l ++ r) l.length := by
  obtain ⟨hl, hr⟩ := List.forall_mem_append.mp hc
  obtain ⟨σ, ha, hs⟩ := id h
  obtain ⟨rest, hm, hp⟩ := exists_accepts hl ha
  refine ⟨⟨rest, by simpa using hp⟩, fun hi rest hp => ?more, fun hi => ?nothing⟩
  case more =>
    cases r with
    | nil      => simp at hi
    | cons t r =>
      have ht : (l ++ t :: r).take (l.length + 1) = l ++ [t] := by simp [List.take_append]
      obtain ⟨-, hm⟩ := (accepts_iff _).mp hp
      have hq : ∀ u ∈ l ++ [t], proper u.kind :=
        List.forall_mem_append.mpr ⟨hl, by simpa using (List.forall_mem_cons.mp hr).1⟩
      rw [ht, takeWhile_of_proper hq, List.append_assoc] at hm
      have hf : Refuses .initial stop l (t :: rest.takeWhile (·.kind ≠ .endOfInput)) := ⟨σ, ha, hs⟩
      exact hf.not_meets hm
  case nothing =>
    obtain rfl : r = [] := by simpa using hi
    refine ⟨rest, ?_, by simpa using hp⟩
    rintro rfl
    obtain ⟨σ', ha, he⟩ := hm
    cases ha
    cases hs.symm.trans he

-- A loop may stand wherever a statement can start.
theorem Opens.exists_accepts (hl : ∀ t ∈ l, proper t.kind) (h : Opens .initial l) :
    ∃ rest, Program.Accepts (l ++ ⟨.keyword .whileWord, .start⟩ :: rest) := by
  obtain ⟨σ, ha, ho⟩ := h
  unfold State.opens at ho
  split at ho
  case h_2 => cases ho
  case h_1 goals hg =>
    have ha : State.initial.after (l ++ [⟨.keyword .whileWord, .start⟩]) = some ⟨false, goals⟩ := by
      simp [State.after_append, ha, State.after, hg]
    have hl : ∀ t ∈ l ++ [(⟨.keyword .whileWord, .start⟩ : Token)], proper t.kind :=
      List.forall_mem_append.mpr ⟨hl, by simp [proper, TokenKind.defect?]⟩
    obtain ⟨rest, -, hp⟩ := Prefix.exists_accepts hl ha
    exact ⟨rest, by simpa using hp⟩

end Prefix

namespace Program

open Prefix Reading Grammar

variable {tokens : List Token}

-- The first report of a reading names the place where the tokens stop being the beginning of a
-- program. There is one report that does not stand at that place: it is for a `;`, and stands at the
-- expression before it that is no statement.
theorem ofStream_breaksAt (hm : ∀ t ∈ tokens, t.kind.defect? = none)
    (h : ofStream (.ofTokens tokens) = .error e) :
    let kept := tokens.takeWhile (·.kind ≠ .endOfInput)
    ∃ d ds i t, e = .rejected (d :: ds) ∧ BreaksAt kept i ∧
      (TokenStream.ofTokens tokens).toList[i]? = some t ∧
      ((∀ form, d.problem ≠ .grammatical (.notAStatement form)) → d.position = some t.position) ∧
      ∀ form, d.problem = .grammatical (.notAStatement form) →
        t.kind = .semicolon ∧ ∃ j x, IsExpression (kept.drop j) x (kept.drop i) ∧
          (∃ rest, Accepts (kept.take j ++ ⟨.keyword .whileWord, .start⟩ :: rest)) ∧
          form = x.form ∧ d.position = some x.position := by
  intro kept
  have hc : ∀ t ∈ kept, proper t.kind := by
    intro t ht
    have hk : t.kind ≠ .endOfInput := TokenStream.kind_ne_of_mem_ofTokens ht
    have hm := hm t (List.takeWhile_subset _ ht)
    simp [proper, hk, hm]
  rcases meets_or_blames (s := .ofTokens tokens) hc with ⟨hd, -⟩ | ⟨d, ds, hd, hb⟩
  case inl => cases h.symm.trans (ofStream_eq_ok.mpr ⟨hd, rfl⟩)
  case inr =>
    have he : e = .rejected (d :: ds) := by
      simp only [ofStream, acceptUnless, hd] at h
      exact (Except.error.inj h).symm
    have hi {l r} (hs : kept = l ++ r) (hr : Refuses .initial (TokenStream.ofTokens tokens).stop l r) :
        BreaksAt kept l.length ∧ (TokenStream.ofTokens tokens).toList[l.length]? =
          some (firstOf (TokenStream.ofTokens tokens).stop r) := by
      refine ⟨hs ▸ hr.breaksAt (hs ▸ hc), ?_⟩
      have ht : (TokenStream.ofTokens tokens).toList =
          l ++ r ++ [⟨.endOfInput, (TokenStream.ofTokens tokens).stop⟩] := hs ▸ rfl
      rw [ht]
      cases r <;> simp [firstOf]
    refine ⟨d, ds, ?_⟩
    cases hb with
    | @token l r error hs hr hn              =>
      obtain ⟨hb, ht⟩ := hi hs hr
      refine ⟨l.length, _, he, hb, ht, fun _ => rfl, fun form hf => ?_⟩
      cases hf
      exact absurd rfl (hn form)
    | @expression l m r x hs hx hk ho hr =>
      have hs : kept = l ++ m ++ r := by rw [List.append_assoc]; exact hs
      obtain ⟨hb, ht⟩ := hi hs hr
      refine ⟨(l ++ m).length, _, he, hb, ht, fun hf => absurd rfl (hf _), fun form hf => ?_⟩
      cases hf
      have hl : ∀ t ∈ l, proper t.kind := fun t h => hc t (by simp [hs, h])
      refine ⟨hk, l.length, x, ?completes, ?accepted, rfl, rfl⟩
      case completes =>
        rw [hs, List.drop_left, List.append_assoc, List.drop_left]
        exact hx
      case accepted =>
        obtain ⟨rest, hp⟩ := ho.exists_accepts hl
        rw [hs, List.append_assoc, List.take_left]
        exact ⟨rest, hp⟩

-- It is the sum that is reported, but the `;` is what no program goes on with.
theorem ofStream_breaksAt_sum :
    let tokens := (TokenStream.ofText "class A{public static void main(){1+x;}}").tokens
    let kept := tokens.takeWhile (·.kind ≠ .endOfInput)
    ∃ i t, BreaksAt kept i ∧ (TokenStream.ofTokens tokens).toList[i]? = some t ∧
      t.kind = .semicolon ∧ ofStream (.ofTokens tokens) = .error
        (.rejected [.grammatical (.notAStatement .binaryOperator) ⟨1, 36⟩]) := by
  intro tokens kept
  have hm : ∀ t ∈ tokens, t.kind.defect? = none := by decide +kernel
  have hd : (ParsedProgram.ofStream (.ofTokens tokens)).diagnostics =
      [.grammatical (.notAStatement .binaryOperator) ⟨1, 36⟩] := by decide +kernel
  have h : ofStream (.ofTokens tokens) = .error
      (.rejected [.grammatical (.notAStatement .binaryOperator) ⟨1, 36⟩]) := by
    simp [ofStream, acceptUnless, hd]
  obtain ⟨d, ds, i, t, he, hb, ht, -, hs⟩ := ofStream_breaksAt hm h
  cases he
  exact ⟨i, t, hb, ht, (hs .binaryOperator rfl).1, h⟩

end Program

end MiniJava
