import MiniJava.Proofs.Reading.Complete.Statement
import MiniJava.Proofs.Reading.Program

namespace MiniJava

namespace Reading

open Grammar Attempt

abbrev LikeMember (d d' : Member) : Prop :=
  d'.unnumbered = d.unnumbered

abbrev LikeClass (c c' : ClassDeclaration) : Prop :=
  c'.unnumbered = c.unnumbered

theorem yields_parameter (h : IsVariable .formal l d r) (s : Cursor n) (hs : s.tokens = l) :
    (parameter n).Yields s (fun o => ∃ d', o = some d' ∧ LikeVariable d d') r := by
  cases h with | intro ht hu =>
  refine Step.yields_recover <| (yields_typeRef ht hu s hs).bind ?_
  rintro ⟨_, _⟩ s₁ ha hs₁
  obtain ⟨rfl, rfl⟩ := Prod.mk.inj ha
  exact yields_variableAfter hu s₁ hs₁

theorem exists_parameters_start (h : IsParameters l ds r) :
    ∃ t m, l = t :: m ∧ startsStatement t.kind := by
  cases h with | one h | more h => exact h.start

theorem yields_parameterList (h : IsParameters l ds r) (hr : r = w :: m)
    (hw : w.kind = .rightParen) (s : Cursor n) (hs : s.tokens = l) :
    (parameterList n).Yields s
      (fun ds' => ds'.map (·.unnumbered) = ds.map (·.unnumbered)) r := by
  induction h generalizing n with
  | one h =>
    obtain ⟨t, m, hl, _⟩ := h.start
    obtain ⟨n, rfl⟩ := s.exists_succ (hs.trans hl)
    rw [parameterList]
    refine (yields_parameter h s hs).lift.bind fun o s₁ ho hs₁ => ?_
    obtain ⟨d', rfl, hd⟩ := ho
    rw [yields_isAt_bind, Cursor.head_eq (hs₁.trans hr), if_pos (by simp [hw])]
    exact .pure (by simpa using hd) hs₁
  | more h hk _ hi =>
    obtain ⟨t, m, hl, _⟩ := h.start
    obtain ⟨n, rfl⟩ := s.exists_succ (hs.trans hl)
    rw [parameterList]
    refine (yields_parameter h s hs).lift.bind fun o s₁ ho hs₁ => ?_
    obtain ⟨d', rfl, hd⟩ := ho
    rw [yields_isAt_bind, Cursor.head_eq hs₁, if_neg (by simp [hk])]
    refine .attemptAfter hs₁ (by rw [hk]; rfl) fun s₂ hs₂ => ?_
    refine (yields_acceptToken (a := ()) (by simp [hk, ofKind])).bind fun _ s₃ _ hs₃ => ?_
    refine (hi hr s₃ (hs₃.trans hs₂)).bind fun ds s₄ hds hs₄ => .pure ?_ hs₄
    simpa [hds] using hd

theorem finds_memberAfter {body : Token → Attempt n Member} {s : Cursor (n + 1)}
    (hs : s.tokens = t :: l) (hd : t.kind.defect? = none)
    (h : ∀ s', s'.tokens = l → (body t).Yields s' P r) :
    Finds s.toInput P r (afterToken (fun t => closeMember start (body t)) s) :=
  finds_afterToken hs hd fun s' hs' => Step.yields_close (h s' hs')

theorem yields_field (h : IsType (t :: l) type (u :: v :: r)) (hu : u.kind = .identifier name)
    (hv : v.kind = .semicolon) (s : Cursor n) (hs : s.tokens = l) :
    (field type.name t.position).Yields s
      (LikeMember (.field ⟨i, name, type, .field, t.position⟩)) r := by
  refine (yields_declarationAfter (i := i) h hu hv s hs).bind fun o s₁ ho hs₁ => ?_
  obtain ⟨d, rfl, hd⟩ := ho
  exact .pure (congrArg Member.field hd) hs₁

theorem yields_expectNamedType (hs : s.tokens = t :: l) (hk : t.kind = .typeName name builtin) :
    (expectNamedType name).Yields s (fun _ => True) l := by
  refine (yields_expect hs (a := ()) (by simp [hk]) (by rw [hk]; rfl)).bind fun a s₁ _ hs₁ => ?_
  exact .pure trivial hs₁

-- A method from behind its `public`.
theorem yields_method (hk : t.kind = .keyword .publicWord) (ht : IsType l type (u :: m))
    (hu : u.kind = .identifier name) (hp : IsSignature m parameters m') (hb : IsBody m' body r)
    (s : Cursor n) (hs : s.tokens = l) :
    (method t).Yields s (LikeMember (.method ⟨i, name, type, parameters, body, t.position⟩)) r := by
  obtain ⟨t', l', rfl, _⟩ := ht.start
  refine (yields_acceptToken (a := ()) (by simp [hk, ofKind])).bind fun _ s₁ _ hs₁ => ?_
  refine (yields_typeRef ht hu s₁ (hs₁.trans hs)).bind ?_
  rintro ⟨type, _⟩ s₂ ha hs₂
  obtain ⟨rfl, rfl⟩ := Prod.mk.inj ha
  refine (yields_expectIdentifier hs₂ hu).bind ?_
  rintro ⟨name, _⟩ s₃ ha hs₃
  obtain ⟨rfl, rfl⟩ := Prod.mk.inj ha
  have hc {y parameters'} (hv : y.kind = .rightParen) (s₄ : Cursor n) (hs₄ : s₄.tokens = y :: m')
      (hps : parameters'.map (·.unnumbered) = parameters.map (·.unnumbered)) :
      Yields (do
        let _ ← expectKind .rightParen
        let _ ← expectKind .leftBrace
        let body ← statementList n
        let _ ← expectKind .rightBrace
        return .method ⟨← freshId, name, type, parameters', body, t.position⟩ : Attempt n Member) s₄
        (LikeMember (.method ⟨i, name, type, parameters, body, t.position⟩)) r := by
    obtain ⟨hx, hb, hy⟩ := hb
    refine (yields_expectKind hs₄ hv).bind fun _ s₅ _ hs₅ => ?_
    refine (yields_expectKind hs₅ hx).bind fun _ s₆ _ hs₆ => ?_
    refine (hb.reads rfl hy s₆ hs₆).lift.bind fun body' s₇ hb hs₇ => ?_
    refine (yields_expectKind hs₇ hy).bind fun _ s₈ _ hs₈ => ?_
    refine yields_freshId.bind fun j s₉ _ hs₉ => .pure ?_ (hs₉.trans hs₈)
    simp only [LikeMember, Member.unnumbered, MethodDeclaration.unnumbered, hps, hb]
  cases hp with
  | none hv hw =>
    refine (yields_expectKind hs₃ hv).bind fun _ s₄ _ hs₄ => ?_
    rw [yields_isAt_bind, Cursor.head_eq hs₄, if_pos (by simp [hw])]
    exact hc hw s₄ hs₄ rfl
  | some hv hp hw =>
    refine (yields_expectKind hs₃ hv).bind fun _ s₄ _ hs₄ => ?_
    obtain ⟨w, l', hl, hw'⟩ := exists_parameters_start hp
    have hn : w.kind ≠ .rightParen := ne_of_startsStatement hw'
    rw [yields_isAt_bind, Cursor.head_eq (hs₄.trans hl), if_neg (by simpa using hn)]
    exact (yields_parameterList hp rfl hw s₄ hs₄).bind fun ps s₅ hps hs₅ => hc hw s₅ hs₅ hps

end Reading

namespace Grammar

open Reading Attempt

theorem IsMember.reads (h : IsMember l d r) (s : Cursor (n + 1)) (hs : s.tokens = l) :
    Finds s.toInput (LikeMember d) r (member s) := by
  unfold member
  cases h with
  | field h hv =>
    cases h with | intro ht hu =>
    obtain ⟨_, _, hl, hn⟩ := ht.start
    obtain ⟨rfl, rfl⟩ := List.cons.inj hl
    dsimp only
    rw [Cursor.head_eq hs]
    cases hn with | identifier hk | typeName hk =>
    rw [hk]
    exact finds_memberAfter hs (by rw [hk]; rfl) (yields_field ht hu hv)
  | method hk ht hu hp hb =>
    dsimp only
    rw [Cursor.head_eq hs, hk]
    exact finds_memberAfter hs (by rw [hk]; rfl) (yields_method hk ht hu hp hb)

theorem IsMember.start : IsMember l d r → ∃ t m, l = t :: m ∧ startsStatement t.kind
  | .field h _    => h.start
  | .method h ..  => ⟨_, _, rfl, by rw [h]; rfl⟩

theorem IsMembers.reads (h : IsMembers l ds r) (hr : r = u :: m) (hu : u.kind = .rightBrace)
    (s : Cursor n) (hs : s.tokens = l) :
    (memberList n).Yields s (fun ds' => ds'.map Member.unnumbered = ds.map Member.unnumbered) r := by
  induction h generalizing n with
  | nil =>
    obtain ⟨n, rfl⟩ := s.exists_succ (hs.trans hr)
    have hk := Cursor.head_eq (hs.trans hr) ▸ hu
    rw [memberList]
    simp only [Step.Yields, hk, decide_true, Bool.or_true, if_true]
    exact ⟨rfl, hs, rfl⟩
  | cons h _ hi =>
    obtain ⟨t, l, hl, ht⟩ := h.start
    obtain ⟨n, rfl⟩ := s.exists_succ (hs.trans hl)
    have hn : t.kind ≠ .rightBrace := ne_of_startsStatement ht
    have hk := Cursor.head_eq (hs.trans hl) ▸ hn
    rw [memberList]
    simp only [Step.Yields, hs, hl, hk, List.isEmpty_cons, decide_false, Bool.or_false]
    have hf := h.reads s hs
    have hfs := hi hr _ hf.tokens
    exact ⟨congrArg₂ List.cons hf.holds hfs.holds, hfs.tokens, hfs.quiet.trans hf.quiet⟩

theorem IsSuperclass.reads (h : IsSuperclass l parent (v :: r)) (hv : v.kind = .leftBrace)
    (s : Cursor n) (hs : s.tokens = l) : superclass.Yields s (· = parent) (v :: r) := by
  rw [superclass, yields_isAt_bind]
  cases h with
  | none =>
    rw [Cursor.head_eq hs, if_pos (by simp [hv])]
    exact .pure rfl hs
  | some hk hu =>
    rw [Cursor.head_eq hs, if_neg (by simp [hk])]
    refine (yields_expectKind hs hk).bind fun _ s₁ _ hs₁ => ?_
    refine (yields_expectIdentifier hs₁ hu).bind ?_
    rintro ⟨_, _⟩ s₂ ha hs₂
    obtain ⟨rfl, -⟩ := Prod.mk.inj ha
    exact .pure rfl hs₂

theorem IsClass.reads (h : IsClass l c r) (s : Cursor (n + 1)) (hs : s.tokens = l) :
    Finds s.toInput (fun o => ∃ c', o = some c' ∧ LikeClass c c') r
      (afterToken (fun t => recover skipClass (classDeclaration t)) s) := by
  cases h with | intro hk hu hp hv hm hw =>
  refine finds_afterToken hs (by rw [hk]; rfl) fun s₁ hs₁ => Step.yields_recover ?_
  refine (yields_acceptToken (a := ()) (by simp [hk, ofKind])).bind fun _ s₂ _ hs₂ => ?_
  refine (yields_expectIdentifier (hs₂.trans hs₁) hu).bind ?_
  rintro ⟨_, _⟩ s₃ ha hs₃
  obtain ⟨rfl, rfl⟩ := Prod.mk.inj ha
  refine (hp.reads hv s₃ hs₃).bind fun _ s₄ ho hs₄ => ?_
  refine (yields_expectKind hs₄ hv).bind fun _ s₅ _ hs₅ => ?_
  refine (hm.reads rfl hw s₅ hs₅).lift.bind fun members s₆ hm hs₆ => ?_
  refine (yields_expectKind hs₆ hw).bind fun _ s₇ _ hs₇ => ?_
  refine yields_freshId.bind fun j s₈ _ hs₈ => .pure ?_ (hs₈.trans hs₇)
  simp only [LikeClass, ClassDeclaration.unnumbered, hm, ho]

theorem IsClass.start (h : IsClass l c r) : ∃ t m, l = t :: m := by
  cases h
  exact ⟨_, _, rfl⟩

theorem IsClasses.reads (h : IsClasses l cs) (s : Cursor n) (hs : s.tokens = l) :
    (classList n).Yields s
      (fun cs' => cs'.map ClassDeclaration.unnumbered = cs.map ClassDeclaration.unnumbered) [] := by
  induction h generalizing n with
  | nil =>
    match n with
    | 0     => exact ⟨rfl, hs, rfl⟩
    | n + 1 =>
      rw [classList]
      simp only [Step.Yields, hs, List.isEmpty_nil, if_true]
      exact ⟨rfl, hs, rfl⟩
  | cons h _ hi =>
    obtain ⟨t, l, hl⟩ := h.start
    obtain ⟨n, rfl⟩ := s.exists_succ (hs.trans hl)
    rw [classList]
    simp only [Step.Yields, hs, hl, List.isEmpty_cons]
    have hf := h.reads s hs
    have hfs := hi _ hf.tokens
    obtain ⟨c, ho, hc⟩ := hf.holds
    refine ⟨?_, hfs.tokens, hfs.quiet.trans hf.quiet⟩
    rw [ho]
    exact congrArg₂ List.cons hc hfs.holds

theorem IsMainClass.reads (h : IsMainClass l c r) (s : Cursor n) (hs : s.tokens = l) :
    (mainClass n).Yields s (fun c' => c'.unnumbered = c.unnumbered) r := by
  cases h with | intro h₁ h₂ h₃ h₄ h₅ h₆ h₇ h₈ h₉ hb hw =>
  obtain ⟨hu, hb, hv⟩ := hb
  refine (yields_expectKind hs h₁).bind fun _ s₁ hp hs₁ => ?_
  refine (yields_expectIdentifier hs₁ h₂).bind ?_
  rintro ⟨_, _⟩ s₂ ha hs₂
  obtain ⟨rfl, rfl⟩ := Prod.mk.inj ha
  refine (yields_expectKind hs₂ h₃).bind fun _ s₃ _ hs₃ => ?_
  refine (yields_expectKind hs₃ h₄).bind fun _ s₄ _ hs₄ => ?_
  refine (yields_expectKind hs₄ h₅).bind fun _ s₅ _ hs₅ => ?_
  refine (yields_expectNamedType hs₅ h₆).bind fun _ s₆ _ hs₆ => ?_
  refine (yields_expectKind hs₆ h₇).bind fun _ s₇ _ hs₇ => ?_
  refine (yields_expectKind hs₇ h₈).bind fun _ s₈ _ hs₈ => ?_
  refine (yields_expectKind hs₈ h₉).bind fun _ s₉ _ hs₉ => ?_
  refine (yields_expectKind hs₉ hu).bind fun _ s₁₀ _ hs₁₀ => ?_
  refine (hb.reads rfl hv s₁₀ hs₁₀).lift.bind fun body s₁₁ hb hs₁₁ => ?_
  refine (yields_expectKind hs₁₁ hv).bind fun _ s₁₂ _ hs₁₂ => ?_
  refine (yields_expectKind hs₁₂ hw).bind fun _ s₁₃ _ hs₁₃ => ?_
  refine yields_freshId.bind fun j s₁₄ _ hs₁₄ => .pure ?_ (hs₁₄.trans hs₁₃)
  simp only [MainClass.unnumbered, hb, hp]

theorem IsProgram.reads (h : IsProgram l p) (s : Cursor n) (hs : s.tokens = l) :
    (program n).Yields s (fun p' => p'.unnumbered = p.unnumbered) [] := by
  cases h with | intro hm hcs =>
  have hf : (recover skipClass (mainClass n)).Yields s _ _ := Step.yields_recover (hm.reads s hs)
  have hfs := hcs.reads _ hf.tokens
  obtain ⟨c, ho, hc⟩ := hf.holds
  refine ⟨?_, hfs.tokens, hfs.quiet.trans hf.quiet⟩
  rw [run_program]
  simp only [Program.unnumbered, ho, Option.map_some, hc, hfs.holds]

end Grammar

namespace ParsedProgram

open Reading Grammar

-- A program of the grammar is read without a diagnostic.
theorem ofStream_of_isProgram {s : TokenStream} (h : IsProgram s.tokens p) :
    (ofStream s).diagnostics = [] ∧ (ofStream s).program.unnumbered = p.unnumbered := by
  have hf := h.reads (Cursor.ofStream s) rfl
  exact ⟨congrArg Array.toList hf.quiet, hf.holds⟩

end ParsedProgram

theorem acceptUnless_eq_ok : acceptUnless diagnostics value = .ok a ↔ diagnostics = [] ∧ value = a := by
  unfold acceptUnless
  split <;> simp_all

namespace Program

open Grammar

theorem ofStream_eq_ok : ofStream s = .ok p ↔
    (ParsedProgram.ofStream s).diagnostics = [] ∧ (ParsedProgram.ofStream s).program = p :=
  acceptUnless_eq_ok

-- The tokens up to the first end of input are accepted if and only if they are those of a program.
-- The tree that is read is the tree of the program, and there is no other.
theorem ofStream_ofTokens_exact (tokens : List Token) :
    ((∃ p, ofStream (.ofTokens tokens) = .ok p) ↔
      ∃ q, IsProgram (tokens.takeWhile (·.kind ≠ .endOfInput)) q) ∧
    ∀ p, ofStream (.ofTokens tokens) = .ok p →
      IsProgram (tokens.takeWhile (·.kind ≠ .endOfInput)) p ∧
      ∀ q, IsProgram (tokens.takeWhile (·.kind ≠ .endOfInput)) q →
        q.unnumbered = p.unnumbered := by
  have hs (p) (h : ofStream (.ofTokens tokens) = .ok p) :
      IsProgram (tokens.takeWhile (·.kind ≠ .endOfInput)) p := by
    obtain ⟨hd, rfl⟩ := ofStream_eq_ok.mp h
    exact ParsedProgram.isProgram hd
  refine ⟨⟨fun ⟨p, h⟩ => ⟨p, hs p h⟩, fun ⟨q, h⟩ => ?accepts⟩,
    fun p h => ⟨hs p h, fun q hq => ?unique⟩⟩
  case accepts => exact ⟨_, ofStream_eq_ok.mpr ⟨(ParsedProgram.ofStream_of_isProgram h).1, rfl⟩⟩
  case unique =>
    obtain ⟨-, rfl⟩ := ofStream_eq_ok.mp h
    exact (ParsedProgram.ofStream_of_isProgram hq).2.symm

end Program

end MiniJava
