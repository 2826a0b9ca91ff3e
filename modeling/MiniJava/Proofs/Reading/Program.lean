import MiniJava.Proofs.Reading.Statement
import MiniJava.Tree.ReadProgram

namespace MiniJava

namespace Reading

open Grammar Attempt

theorem passes_skipClass (s : Cursor n) : Passes s.toInput (skipClass s).toInput :=
  s.passes_skipUntil _

theorem passes_skipMember (s : Cursor n) : Passes s.toInput (skipMember s).toInput :=
  s.passes_skipThrough _

theorem meets_parameter (s : Cursor n) :
    (parameter n).Meets s fun o s' =>
      Built (o.toList.map (·.id)) 0 (∃ d, o = some d ∧ IsVariable .formal s.tokens d s'.tokens)
        s.toInput s' := by
  have hd : Attempt.Meets s.diagnostics.size (do
      let type ← typeRef
      variableAfter .formal type.1 type.2) s (BuildsVariable .formal s.toInput) :=
    meets_typeRef.bind fun _ _ _ h => meets_variableAfter h
  have hr := hd.recover passes_skipVariable (Nat.le_refl _)
  refine ⟨hr.passes, ?_⟩
  have hh := hr.holds
  unfold parameter
  split at hh <;> rename_i ho <;> rw [ho]
  case h_1 d => exact hh.node rfl rfl fun h => ⟨d, rfl, h⟩
  case h_2   => exact .omitted hr.passes hh

theorem meets_parameterList (n : Nat) (s : Cursor n) :
    (parameterList n).Meets base s fun ds s' =>
      Built (ds.map (·.id)) 0 (IsParameters s.tokens ds s'.tokens) s.toInput s' := by
  induction n with
  | zero =>
    rw [parameterList]
    refine (meets_parameter s).lift.bind fun o s₁ _ ho => ?_
    refine (meets_expectKind).bind ?_
    rintro _ s₂ _ ⟨t, _, _, ht⟩
    refine .pure ?_
    refine ho.trans ht |>.node (by simp) rfl ?_
    rintro ⟨-, ht⟩
    exact absurd s₁.fits (by simp [ht])
  | succ n hi =>
    rw [parameterList]
    refine (meets_parameter s).lift.bind fun o s₁ _ ho => ?_
    rw [meets_isAt_bind]
    split
    case isTrue =>
      refine .pure <| ho.node rfl rfl ?_
      rintro ⟨d, rfl, hd⟩
      exact .one hd
    case isFalse =>
      refine .attemptAfter fun hd => ?_
      refine (meets_acceptKind rfl hd).bind ?_
      rintro _ s₂ _ ⟨hk, ht⟩
      refine (hi s₂).bind fun ds s₃ _ hds => .pure ?_
      refine (ho.trans ht).trans hds |>.node (by simp) rfl ?_
      rintro ⟨⟨⟨d, rfl, hd⟩, ht⟩, hds⟩
      exact .more (ht ▸ hd) hk hds

abbrev BuildsMember (s : Input) (d : Member) (s' : Input) : Prop :=
  Built d.nodeIds d.gaps (IsMember s.tokens d s'.tokens) s s'

theorem meets_method {s : Cursor n} (ht : Takes s₀ t s.toInput) (hk : t.kind = .keyword word) :
    (method t).Meets base s (BuildsMember s₀) := by
  refine .bind (P := fun _ s' => t.kind = .keyword .publicWord ∧ s' = s.toInput)
    (.acceptToken (by simp [hk, TokenKind.defect?]) fun a ha => ⟨by simpa [ofKind] using ha, rfl⟩)
    ?_
  rintro _ s₁ _ ⟨hk, hs₁⟩
  rw [← hs₁] at ht
  refine meets_typeRef.bind ?_
  rintro ⟨type, _⟩ s₂ _ hty
  refine meets_expectIdentifier.bind ?_
  rintro ⟨name, _⟩ s₃ _ ⟨u, hu, _, hu'⟩
  refine (meets_expectKind).bind ?_
  rintro _ s₄ _ ⟨v, hv, _, hv'⟩
  have hc (parameters : List VariableDeclaration) (s₅ : Cursor n)
      (hp : Built (parameters.map (·.id)) 0
        (∀ w r, w.kind = .rightParen → s₅.tokens = w :: r →
          IsSignature (v :: s₄.tokens) parameters r) s₄.toInput s₅.toInput) :
      Attempt.Meets base (do
        let _ ← expectKind .rightParen
        let _ ← expectKind .leftBrace
        let body ← statementList n
        let _ ← expectKind .rightBrace
        return .method ⟨← freshId, name, type, parameters, body, t.position⟩ : Attempt n Member) s₅
        (BuildsMember s₀) := by
    refine (meets_expectKind).bind ?_
    rintro _ s₆ _ ⟨w, hw, _, hw'⟩
    refine (meets_expectKind).bind ?_
    rintro _ s₇ _ ⟨x, hx, _, hx'⟩
    refine (meets_statementList n s₇).lift.bind fun body s₈ _ hb => ?_
    refine (meets_expectKind).bind ?_
    rintro _ s₉ _ ⟨y, hy, _, hy'⟩
    refine meets_freshId.bind ?_
    rintro i s₁₀ _ ⟨hi, hs₁₀⟩
    refine .pure ?_
    refine (((ht.trans hty).trans (hu'.trans hv')).trans (hp.trans hw')).trans
      ((hx'.trans hb).trans (hy'.trans hi))
      |>.node (by simp [Member.nodeIds, MethodDeclaration.nodeIds]) (by simp [Member.gaps]) ?_
    rintro ⟨⟨⟨⟨ht, ⟨_, _, _, _, hty⟩⟩, hu', hv'⟩, hp, hw'⟩, ⟨hx', hb⟩, hy', -⟩
    rw [ht, hs₁₀]
    have hb : IsBody s₆.tokens body s₉.tokens := hx' ▸ .intro hx (hy' ▸ hb) hy
    exact .method hk (hu' ▸ hty) hu (hv' ▸ hp w _ hw hw') hb
  rw [meets_isAt_bind]
  split
  case isTrue =>
    refine hc [] s₄ <| .node (.refl _) rfl rfl ?_
    rintro - w r hw hl
    exact hl ▸ .none hv hw
  case isFalse =>
    refine (meets_parameterList n s₄).bind fun parameters s₅ _ hp => hc parameters s₅ ?_
    refine hp.node rfl rfl fun hp w r hw hl => .some hv (hl ▸ hp) hw

theorem meets_field {s : Cursor n} (ht : Takes s₀ t s.toInput) (hn : NamesType t name) :
    (field name t.position).Meets base s (BuildsMember s₀) := by
  refine (meets_declarationAfter ht hn).bind fun o s₁ _ ho => ?_
  match o with
  | some d =>
    refine .pure <| ho.node rfl rfl ?_
    rintro ⟨u, hd, hu⟩
    exact .field hd hu
  | none   => exact .pure <| .gap ho.1 ho.2

theorem leads_closeMember {s : Cursor n} (hp : Passes s₀ s.toInput)
    (h : body.Meets s₀.diagnostics.size s (BuildsMember s₀)) :
    Leads s₀ (BuildsMember s₀) (closeMember start body s) := by
  have hc : Leads s.toInput (BuildsMember s₀) (closeMember start body s) :=
    h.close passes_skipMember hp.size_le fun s' hp' hs => .gap (hp.trans hp') hs
  exact ⟨hp.trans hc.passes, hc.holds⟩

theorem meets_member (s : Cursor (n + 1)) :
    Leads s.toInput (BuildsMember s.toInput) (member s) := by
  have ht (hk : s.head.kind ≠ .endOfInput) := Cursor.takes_next hk
  have hp := Cursor.passes_next s
  unfold member
  dsimp only
  split <;> rename_i hk
  case h_1 => exact leads_closeMember hp (meets_field (ht (by simp [hk])) (.identifier hk))
  case h_2 => exact leads_closeMember hp (meets_field (ht (by simp [hk])) (.typeName hk))
  case h_3 => exact leads_closeMember hp (meets_method (ht (by simp [hk])) hk)
  case h_4 =>
    refine leads_closeMember hp <| .reported <| Cursor.size_lt_next ?_
    simp [hk, TokenKind.defect?]
  case h_5 =>
    have hr : Passes s.toInput (s.report (.declarationStart s.head.kind) s.head.position).toInput :=
      .report ..
    have hp := hr.trans (Cursor.passes_skipThrough .leftBrace _)
    refine ⟨hp, .gap hp ?_⟩
    refine lt_of_lt_of_le ?_ (Cursor.passes_skipThrough .leftBrace _).size_le
    simp [Cursor.report]

theorem meets_memberList (n : Nat) (s : Cursor n) :
    (memberList n).Meets s fun ds s' =>
      Built (ds.flatMap Member.nodeIds) (ds.map Member.gaps).sum (IsMembers s.tokens ds s'.tokens)
        s.toInput s' := by
  have hn {n} (s : Cursor n) : Built [] 0 (IsMembers s.tokens [] s.tokens) s.toInput s.toInput :=
    .node (.refl _) rfl rfl fun _ => .nil
  induction n with
  | zero => exact ⟨.refl, hn s⟩
  | succ n hi =>
    rw [memberList]
    unfold Step.Meets
    dsimp only
    split
    case isTrue  => exact ⟨.refl, hn s⟩
    case isFalse =>
      have hd := meets_member s
      have hds := hi (member s).2
      refine ⟨hd.passes.trans hds.passes, hd.holds.trans hds.holds |>.node rfl rfl ?_⟩
      rintro ⟨hd, hds⟩
      exact .cons hd hds

theorem meets_superclass {s : Cursor n} :
    superclass.Meets base s fun o s' =>
      Built [] 0 (IsSuperclass s.tokens o s'.tokens) s.toInput s' := by
  rw [superclass, meets_isAt_bind]
  split
  case isTrue  => exact .pure <| .node (.refl _) rfl rfl fun _ => .none
  case isFalse =>
    refine (meets_expectKind).bind ?_
    rintro _ s₁ _ ⟨t, ht, _, ht'⟩
    refine meets_expectIdentifier.bind ?_
    rintro ⟨name, _⟩ s₂ _ ⟨u, hu, _, hu'⟩
    refine .pure ?_
    refine ht'.trans hu' |>.node rfl rfl ?_
    rintro ⟨ht', hu'⟩
    rw [ht', hu']
    exact .some ht hu

abbrev BuildsClass (s : Input) (c : ClassDeclaration) (s' : Input) : Prop :=
  Built c.nodeIds c.gaps (IsClass s.tokens c s'.tokens) s s'

theorem meets_classDeclaration {s : Cursor n} {s₀ : Cursor m} (hs : s.toInput = s₀.next.2.toInput) :
    (classDeclaration s₀.head).Meets s₀.diagnostics.size s (BuildsClass s₀.toInput) := by
  refine (meets_acceptKind hs fun hd => ?lt).bind ?_
  case lt => exact hs ▸ Cursor.size_lt_next hd
  rintro _ s₁ _ ⟨hk, ht⟩
  refine meets_expectIdentifier.bind ?_
  rintro ⟨name, _⟩ s₂ _ ⟨u, hu, _, hu'⟩
  refine meets_superclass.bind fun o s₃ _ ho => ?_
  refine (meets_expectKind).bind ?_
  rintro _ s₄ _ ⟨v, hv, _, hv'⟩
  refine (meets_memberList n s₄).lift.bind fun members s₅ _ hm => ?_
  refine (meets_expectKind).bind ?_
  rintro _ s₆ _ ⟨w, hw, _, hw'⟩
  refine meets_freshId.bind ?_
  rintro i s₇ _ ⟨hi, hs₇⟩
  refine .pure ?_
  refine ((ht.trans hu').trans (ho.trans hv')).trans ((hm.trans hw').trans hi)
    |>.node (by simp [ClassDeclaration.nodeIds]) (by simp [ClassDeclaration.gaps]) ?_
  rintro ⟨⟨⟨ht, hu'⟩, ho, hv'⟩, ⟨hm, hw'⟩, -⟩
  rw [ht, hu', hs₇]
  exact .intro hk hu (hv' ▸ ho) hv (hw' ▸ hm) hw

theorem leads_class (s : Cursor (n + 1)) :
    Leads s.toInput (fun o s' =>
      Built (o.toList.flatMap ClassDeclaration.nodeIds) (o.toList.map ClassDeclaration.gaps).sum
        (∃ c, o = some c ∧ IsClass s.tokens c s'.tokens) s.toInput s')
      (afterToken (fun t => recover skipClass (classDeclaration t)) s) := by
  have hp := Cursor.passes_next s
  have hd : (classDeclaration s.head).Meets s.diagnostics.size s.next.2 (BuildsClass s.toInput) :=
    meets_classDeclaration rfl
  have hr := hd.recover passes_skipClass hp.size_le
  have hp := hp.trans hr.passes
  refine ⟨hp, ?_⟩
  have hh := hr.holds
  unfold afterToken
  dsimp only
  split at hh <;> rename_i ho
  case h_1 c => exact ho ▸ hh.node (by simp) (by simp) fun h => ⟨c, rfl, h⟩
  case h_2   => exact ho ▸ .omitted hp hh

theorem meets_classList (n : Nat) (s : Cursor n) :
    (classList n).Meets s fun cs s' =>
      Built (cs.flatMap ClassDeclaration.nodeIds) (cs.map ClassDeclaration.gaps).sum
        (IsClasses s.tokens cs) s.toInput s' := by
  induction n with
  | zero =>
    have hl : s.tokens = [] := List.length_eq_zero_iff.mp (Nat.le_zero.mp s.fits)
    exact ⟨.refl, .node (.refl _) rfl rfl fun _ => hl ▸ .nil⟩
  | succ n hi =>
    rw [classList]
    unfold Step.Meets
    dsimp only
    split
    case isTrue hl =>
      have hl : s.tokens = [] := by simpa using hl
      exact ⟨.refl, .node (.refl _) rfl rfl fun _ => hl ▸ .nil⟩
    case isFalse =>
      have hc := leads_class s
      have hcs := hi (afterToken (fun t => recover skipClass (classDeclaration t)) s).2
      refine ⟨hc.passes.trans hcs.passes, hc.holds.trans hcs.holds |>.node ?nodeIds ?gaps ?classes⟩
      case nodeIds => exact List.flatMap_append.symm
      case gaps    => exact List.sum_append.symm.trans (congrArg List.sum List.map_append.symm)
      case classes =>
        rintro ⟨⟨c, ho, hc⟩, hcs⟩
        rw [ho]
        exact .cons hc hcs

theorem meets_mainClass (n : Nat) (s : Cursor n) :
    (mainClass n).Meets base s fun c s' =>
      Built c.nodeIds (Statement.gapsOf c.body) (IsMainClass s.tokens c s'.tokens) s.toInput s' := by
  refine (meets_expectKind).bind ?_
  rintro _ s₁ _ ⟨t₁, h₁, hp, h₁'⟩
  refine meets_expectIdentifier.bind ?_
  rintro ⟨name, _⟩ s₂ _ ⟨t₂, h₂, _, h₂'⟩
  refine (meets_expectKind).bind ?_
  rintro _ s₃ _ ⟨t₃, h₃, _, h₃'⟩
  refine (meets_expectKind).bind ?_
  rintro _ s₄ _ ⟨t₄, h₄, _, h₄'⟩
  refine (meets_expectKind).bind ?_
  rintro _ s₅ _ ⟨t₅, h₅, _, h₅'⟩
  refine meets_expectNamedType.bind ?_
  rintro _ s₆ _ ⟨t₆, ⟨_, h₆⟩, _, h₆'⟩
  refine (meets_expectKind).bind ?_
  rintro _ s₇ _ ⟨t₇, h₇, _, h₇'⟩
  refine (meets_expectKind).bind ?_
  rintro _ s₈ _ ⟨t₈, h₈, _, h₈'⟩
  refine (meets_expectKind).bind ?_
  rintro _ s₉ _ ⟨t₉, h₉, _, h₉'⟩
  refine (meets_expectKind).bind ?_
  rintro _ s₁₀ _ ⟨u, hu, _, hu'⟩
  refine (meets_statementList n s₁₀).lift.bind fun body s₁₁ _ hb => ?_
  refine (meets_expectKind).bind ?_
  rintro _ s₁₂ _ ⟨v, hv, _, hv'⟩
  refine (meets_expectKind).bind ?_
  rintro _ s₁₃ _ ⟨w, hw, _, hw'⟩
  refine meets_freshId.bind ?_
  rintro i s₁₄ _ ⟨hi, hs₁₄⟩
  refine .pure ?_
  have hh := ((h₁'.trans h₂').trans h₃').trans ((h₄'.trans h₅').trans h₆')
  have ht := ((h₇'.trans h₈').trans h₉').trans (hu'.trans hb)
  refine (hh.trans ht).trans ((hv'.trans hw').trans hi)
    |>.node (by simp [MainClass.nodeIds]) (by simp) ?_
  rintro ⟨⟨⟨⟨⟨h₁', h₂'⟩, h₃'⟩, ⟨h₄', h₅'⟩, h₆'⟩, ⟨⟨h₇', h₈'⟩, h₉'⟩, hu', hb⟩, ⟨hv', hw'⟩, -⟩
  have hb : IsBody s₉.tokens body s₁₂.tokens := hu' ▸ .intro hu (hv' ▸ hb) hv
  rw [h₁', h₂', h₃', h₄', h₅', h₆', h₇', h₈', h₉', hs₁₄, hp]
  exact .intro h₁ h₂ h₃ h₄ h₅ h₆ h₇ h₈ h₉ (hw' ▸ hb) hw

theorem run_program (n : Nat) (s : Cursor n) :
    program n s =
      let main := recover skipClass (mainClass n) s
      let classes := classList n main.2
      (⟨main.1, classes.1⟩, classes.2) :=
  rfl

theorem meets_program (n : Nat) (s : Cursor n) :
    (program n).Meets s fun p s' =>
      Built p.nodeIds p.gaps (IsProgram s.tokens p) s.toInput s' := by
  have hm := (meets_mainClass n s).recover passes_skipClass (Nat.le_refl _)
  have hcs := meets_classList n (recover skipClass (mainClass n) s).2
  refine ⟨hm.passes.trans hcs.passes, ?_⟩
  rw [run_program]
  dsimp only
  have hh := hm.holds
  have hcs := hcs.holds
  split at hh <;> rename_i ho
  case h_1 c =>
    rw [ho]
    refine hh.trans hcs |>.node rfl rfl ?_
    rintro ⟨hm, hcs⟩
    exact .intro hm hcs
  case h_2 =>
    rw [ho]
    refine Built.trans (.gap (D := False) hm.passes hh) hcs |>.node rfl rfl ?_
    rintro ⟨h, _⟩
    exact h.elim

-- A move reports a defect of the text or of its phrases.
theorem Move.kind_of_mem (m : Move s s') (h : d ∈ s'.diagnostics) :
    d ∈ s.diagnostics ∨ d.kind = .lexical ∨ d.kind = .grammatical := by
  cases m with
  | take =>
    have h : d ∈ s.diagnostics ∨ ∃ t ∈ s.tokens.take 1, defect? t = some d := by
      simpa [Input.tail, ← Array.mem_toList_iff] using h
    rcases h with h | ⟨t, _, ht⟩
    case inl => exact .inl h
    case inr =>
      obtain ⟨error, _, rfl⟩ := Option.map_eq_some_iff.mp ht
      exact .inr (.inl rfl)
  | number => exact .inl h
  | report error position =>
    rcases Array.mem_push.mp h with h | rfl
    case inl => exact .inl h
    case inr => exact .inr (.inr rfl)

theorem Passes.kind_of_mem (h : Passes s s') (hd : d ∈ s'.diagnostics) :
    d ∈ s.diagnostics ∨ d.kind = .lexical ∨ d.kind = .grammatical := by
  induction h with
  | refl => exact .inl hd
  | tail _ m hi =>
    rcases m.kind_of_mem hd with hd | hd
    case inl => exact hi hd
    case inr => exact .inr hd

end Reading

namespace ParsedProgram

open Reading Grammar

variable {s : TokenStream}

theorem built_ofStream (s : TokenStream) :
    ∃ s', (ofStream s).diagnostics = s'.diagnostics.toList ∧
      Built (ofStream s).program.nodeIds (ofStream s).program.gaps
        (IsProgram s.tokens (ofStream s).program) (Cursor.ofStream s).toInput s' :=
  ⟨_, rfl, (meets_program _ (Cursor.ofStream s)).holds⟩

theorem kind_of_mem_diagnostics (h : d ∈ (ofStream s).diagnostics) :
    d.kind = .lexical ∨ d.kind = .grammatical := by
  obtain ⟨s', hs, hb⟩ := built_ofStream s
  rw [hs, Array.mem_toList_iff] at h
  exact (hb.passes.kind_of_mem h).resolve_left (Array.not_mem_empty d)

theorem nodup_nodeIds (s : TokenStream) : (ofStream s).program.nodeIds.Nodup := by
  obtain ⟨s', _, hb⟩ := built_ofStream s
  exact hb.ordered.nodup List.nodup_range'

-- Every placeholder has been reported.
theorem gaps_le (s : TokenStream) :
    (ofStream s).program.gaps ≤ (ofStream s).diagnostics.length := by
  obtain ⟨s', hs, hb⟩ := built_ofStream s
  simpa [hs, Cursor.ofStream] using hb.paid

-- A missing main class has been reported as well. So nothing is missing from a program without
-- diagnostics.
theorem placeholders_paid (tokens : List Token) :
    let parsed := ofStream (.ofTokens tokens)
    parsed.program.placeholders + (if parsed.program.mainClass.isNone then 1 else 0) ≤
        parsed.diagnostics.length ∧
      (parsed.diagnostics = [] →
        parsed.program.mainClass.isSome ∧ parsed.program.placeholders = 0) := by
  intro parsed
  have hp : parsed.program.gaps ≤ parsed.diagnostics.length := gaps_le (.ofTokens tokens)
  rw [Program.gaps_eq] at hp
  refine ⟨hp, fun hd => ?_⟩
  rw [hd] at hp
  cases hm : parsed.program.mainClass <;> simp_all

theorem isProgram (h : (ofStream s).diagnostics = []) :
    IsProgram s.tokens (ofStream s).program := by
  obtain ⟨s', hs, hb⟩ := built_ofStream s
  refine (hb.derives ?_).1
  have hs : s'.diagnostics = #[] := by simpa [h] using hs.symm
  simp [hs, Cursor.ofStream]

end ParsedProgram

end MiniJava
