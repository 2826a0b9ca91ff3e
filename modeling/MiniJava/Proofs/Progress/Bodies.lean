import MiniJava.Proofs.Progress.Descent

namespace MiniJava.Reading.Reader

variable {c : Routine × Input} {o s : Input} {R P Q : Input → Prop}

theorem descends_skip (hc : Rest c.2 s) (hl : 0 < c.1.level) :
    (call (.skip stop)).Descends c s R (Rest s) :=
  (descends_found rfl (hc.below (q := .skip stop) hl)).imp fun _ h => h.1

-- The token that ends what is skipped is taken as well.
theorem descends_skipThrough (hc : Rest c.2 s) (hl : 0 < c.1.level) :
    (skipThrough last).Descends c s R fun s' => ∃ s₁, Rest s s₁ ∧ s' = s₁.tail :=
  (descends_skip hc hl).bind fun _ s₁ h => descends_take_bind.mpr (descends_pure ⟨s₁, h, rfl⟩)

theorem descends_acceptToken (hs : Rest o s) :
    (of (acceptToken expected extract t)).Descends c s (Rest o)
      fun s' => s' = s ∧ (extract t.kind).isSome := by
  unfold acceptToken Descends of
  cases extract t.kind with
  | some a => exact ⟨rfl, rfl⟩
  | none   =>
    cases t.kind.defect?.isSome with
    | true  => exact hs
    | false => exact hs

-- A token that has been taken is the expected one.
theorem descends_take_accept_bind {f : Token → Reader α} (hk : kind ≠ .endOfInput) (hs : Rest o s)
    (hf : Shorter s s.tail → (f s.first).Descends c s.tail (Rest o) Q) :
    (of take >>= fun t =>
      of (acceptToken (.token kind) (ofKind kind) t) >>= fun _ => f t).Descends c s (Rest o) Q := by
  refine descends_take_bind.mpr ((descends_acceptToken (hs.trans (rest_tail s))).bind ?_)
  rintro a _ ⟨rfl, hp⟩
  refine hf (shorter_tail ?_)
  unfold ofKind at hp
  split at hp
  case isTrue h  => exact h ▸ hk
  case isFalse   => cases hp

-- A call that is left out if there is nothing to read.
theorem descends_unless_bind {b : Bool} {q : Routine} {a : q.Value} {f : q.Value → Reader α}
    (hb : Below (q, s) c) (hs : Rest o s)
    (hf : ∀ a s', Rest o s' → (f a).Descends c s' (Rest o) Q) :
    Descends c (if b then pure a >>= f else call q >>= f) s (Rest o) Q := by
  cases b with
  | true  => exact hf a s hs
  | false => exact descends_call_bind hb hs hf

theorem descends_condition (hs : Rest o s)
    (hb : ∀ s', Shorter o s' → Below (.expression, s') c) :
    condition.Descends c s (Rest o) (Shorter o) := by
  refine descends_taking_bind (.expectKind (by simp)) hs fun _ s₁ h₁ => ?_
  refine Descends.rebase ?_ h₁.1 fun _ => h₁.trans
  refine descends_call_bind (hb s₁ h₁) List.suffix_rfl fun _ s₂ h => ?_
  exact descends_of_bind (.expectKind _) h fun _ s₃ h => h

theorem descends_mainClass (s : Input) :
    mainClass.Descends (.program, s) s (Rest s) (Rest s) := by
  refine descends_of_bind (.expectKind _) List.suffix_rfl fun _ s₁ h => ?_
  refine descends_of_bind (.expect _ _) h fun _ s₂ h => ?_
  refine descends_of_bind (.expectKind _) h fun _ s₃ h => ?_
  refine descends_of_bind (.expectKind _) h fun _ s₄ h => ?_
  refine descends_of_bind (.expectKind _) h fun _ s₅ h => ?_
  refine descends_of_bind (.expectNamedType _) h fun _ s₆ h => ?_
  refine descends_of_bind (.expectKind _) h fun _ s₇ h => ?_
  refine descends_of_bind (.expectKind _) h fun _ s₈ h => ?_
  refine descends_of_bind (.expectKind _) h fun _ s₉ h => ?_
  refine descends_of_bind (.expectKind _) h fun _ s₁₀ h => ?_
  refine descends_call_bind (h.below (by simp [Routine.level])) h fun _ s₁₁ h => ?_
  refine descends_of_bind (.expectKind _) h fun _ s₁₂ h => ?_
  refine descends_of_bind (.expectKind _) h fun _ s₁₃ h => ?_
  exact descends_of_bind .freshId h fun _ s₁₄ h => h

theorem descends_classDeclaration (s : Input) (t : Token) :
    (classDeclaration t).Descends (.classDeclaration, s) s.tail (Rest s.tail) (Rest s.tail) := by
  refine descends_of_bind (.acceptToken _ _ _) List.suffix_rfl fun _ s₁ h => ?_
  refine descends_of_bind (.expect _ _) h fun _ s₂ h => ?_
  refine descends_of_bind .superclass h fun _ s₃ h => ?_
  refine descends_of_bind (.expectKind _) h fun _ s₄ h => ?_
  refine descends_call_bind (((rest_tail s).trans h).below (by simp [Routine.level])) h
    fun _ s₅ h => ?_
  refine descends_of_bind (.expectKind _) h fun _ s₆ h => ?_
  exact descends_of_bind .freshId h fun _ s₇ h => h

-- The part behind the type of a field or a local variable.
theorem descends_declarationAfter (hc : Rest c.2 o) (hl : 0 < c.1.level) (hs : Rest o s) :
    (declarationAfter storage name p).Descends c s (Rest o) (Rest o) := by
  refine Descends.bind (P := Rest o) (descends_recover (o := o) ?body fun s₁ h => ?skipped)
    fun _ s₁ h => ?stop
  case body =>
    exact descends_of ((Plain.typeAfter _).bind fun _ => .variableAfter _ _ _) hs
  case skipped => exact (descends_skip (hc.trans h) hl).imp fun _ => h.trans
  case stop => exact descends_of_bind (.expectKind _) h fun _ s₂ h => h

theorem descends_declarationStatement (s : Input) :
    (declarationStatement name p).Descends (.statement, s) s.tail (Rest s.tail) (Rest s.tail) := by
  refine (descends_declarationAfter (rest_tail s) (by simp [Routine.level]) List.suffix_rfl).bind
    fun a s₁ h => ?_
  cases a with
  | some _ => exact h
  | none   => exact h

theorem descends_field (s : Input) :
    (field name p).Descends (.member, s) s.tail (Rest s.tail) (Rest s.tail) := by
  refine (descends_declarationAfter (rest_tail s) (by simp [Routine.level]) List.suffix_rfl).bind
    fun a s₁ h => ?_
  cases a with
  | some _ => exact h
  | none   => exact h

theorem descends_parameter (s : Input) :
    parameter.Descends (.parameterList, s) s R (Rest s) := by
  refine descends_recover (o := s) ?body fun s₁ h => ?skipped
  case body =>
    exact descends_of (Plain.typeRef.bind fun _ => .variableAfter _ _ _) List.suffix_rfl
  case skipped => exact (descends_skip h (by simp [Routine.level])).imp fun _ => h.trans

theorem descends_method (s : Input) (t : Token) :
    (method t).Descends (.member, s) s.tail (Rest s.tail) (Rest s.tail) := by
  have hs := rest_tail s
  refine descends_of_bind (.acceptToken _ _ _) List.suffix_rfl fun _ s₁ h => ?_
  refine descends_of_bind .typeRef h fun _ s₂ h => ?_
  refine descends_of_bind (.expect _ _) h fun _ s₃ h => ?_
  refine descends_of_bind (.expectKind _) h fun _ s₄ h => ?_
  refine descends_isAt_bind.mpr ?_
  refine descends_unless_bind ((hs.trans h).below (by simp [Routine.level])) h fun _ s₅ h => ?_
  refine descends_of_bind (.expectKind _) h fun _ s₆ h => ?_
  refine descends_of_bind (.expectKind _) h fun _ s₇ h => ?_
  refine descends_call_bind ((hs.trans h).below (by simp [Routine.level])) h fun _ s₈ h => ?_
  refine descends_of_bind (.expectKind _) h fun _ s₉ h => ?_
  exact descends_of_bind .freshId h fun _ s₁₀ h => h

theorem descends_termBody (s : Input) :
    termBody.Descends (.term, s) s (Rest s) (Rest s) := by
  refine descends_head_bind.mpr ?_
  have tail (inner s₁) (h : Rest s s₁) :
      (call (.termTail inner)).Descends (.term, s) s₁ (Rest s) (Rest s) :=
    descends_call (h.below (by simp [Routine.level])) h
  have single (f : NodeId → Expression) : (of take >>= fun _ => of freshId >>= fun id =>
      call (.termTail (f id))).Descends (.term, s) s (Rest s) (Rest s) :=
    descends_take_bind.mpr (descends_of_bind .freshId (rest_tail s) fun _ s₁ h => tail _ s₁ h)
  split
  case h_1 =>
    refine descends_take_bind.mpr ?_
    refine descends_call_bind ((rest_tail s).below (by simp [Routine.level])) (rest_tail s)
      fun _ s₁ h => ?_
    exact tail _ s₁ h
  case h_2 => exact single _
  case h_3 => exact single _
  case h_4 => exact single _
  case h_5 => exact single _
  case h_6 => exact single _
  case h_7 hk =>
    have hs : Shorter s s.tail := shorter_tail (by simp [hk])
    refine descends_take_bind.mpr ?_
    refine descends_call_bind hs.below hs.1 fun _ s₁ h => ?_
    refine descends_of_bind (.expectKind _) h fun _ s₂ h => ?_
    exact tail _ s₂ h
  case h_8 => exact descends_take_bind.mpr (descends_of (.throw _) (rest_tail s))
  case h_9 => exact descends_of (.noTerm _) List.suffix_rfl

-- The arguments stand behind a name that has been read.
theorem descends_invocation (s : Input) :
    (invocation receiver).Descends (.invocation receiver, s) s (Rest s) (Rest s) := by
  refine descends_head_bind.mpr ?_
  split
  case h_1 =>
    refine descends_of_bind (.expectKind _) List.suffix_rfl fun _ s₁ h => ?_
    exact descends_of_bind .freshId h fun _ s₂ h => h
  case h_2 =>
    refine descends_taking_bind (.expect rfl) List.suffix_rfl fun _ s₁ h₁ => ?_
    refine Descends.rebase ?_ h₁.1 fun _ h => (h₁.trans h).1
    refine descends_of_bind (.expectKind _) List.suffix_rfl fun _ s₂ h => ?_
    refine descends_isAt_bind.mpr ?_
    refine descends_unless_bind (h₁.trans h).below h fun _ s₃ h => ?_
    refine descends_of_bind (.expectKind _) h fun _ s₄ h => ?_
    exact descends_of_bind .freshId h fun _ s₅ h => h

-- The size stands behind a type that has been read.
theorem descends_creation (s : Input) (p : Position) :
    (creation p).Descends (.creation p, s) s (Rest s) (Rest s) := by
  refine descends_taking_bind (.expect rfl) List.suffix_rfl fun a s₁ h₁ => ?_
  refine Descends.rebase ?_ h₁.1 fun _ h => (h₁.trans h).1
  refine descends_isAt_bind.mpr ?_
  split
  case isTrue =>
    refine descends_of_bind (.expectKind _) List.suffix_rfl fun _ s₂ h => ?_
    refine descends_call_bind (h₁.trans h).below h fun _ s₃ h => ?_
    refine descends_of_bind (.expectKind _) h fun _ s₄ h => ?_
    exact descends_of_bind .freshId h fun _ s₅ h => h
  case isFalse =>
    refine descends_of_bind (.expectKind _) List.suffix_rfl fun _ s₂ h => ?_
    refine descends_of_bind (.expectKind _) h fun _ s₃ h => ?_
    exact descends_of_bind .freshId h fun _ s₄ h => h

-- An inner statement stands behind a condition.
theorem descends_wordStatement (word : Keyword) (p : Position) (s : Input) :
    (wordStatement word p).Descends (.wordStatement word p, s) s (Rest s) (Rest s) := by
  have value {s₁ : Input} (h : Rest s s₁) :
      Below (.expression, s₁) (.wordStatement word p, s) :=
    h.below (by simp [Routine.level])
  have behind := descends_condition (c := (.wordStatement word p, s)) (s := s) List.suffix_rfl
    fun _ h => value h.1
  cases word
  case assertWord =>
    refine behind.bind fun _ s₁ h => ?_
    refine descends_of_bind (.expectKind _) h.1 fun _ s₂ h => ?_
    exact descends_of_bind .freshId h fun _ s₃ h => h
  case ifWord =>
    refine behind.bind fun _ s₁ h₁ => ?_
    refine Descends.rebase ?_ h₁.1 fun _ h => (h₁.trans h).1
    refine descends_call_bind h₁.below List.suffix_rfl fun _ s₂ h => ?_
    refine descends_isAt_bind.mpr ?_
    split
    case isTrue =>
      have h := h.trans (rest_tail s₂)
      refine descends_take_bind.mpr ?_
      refine descends_call_bind (h₁.trans h).below h fun _ s₃ h => ?_
      exact descends_of_bind .freshId h fun _ s₄ h => h
    case isFalse => exact descends_of_bind .freshId h fun _ s₃ h => h
  case whileWord =>
    refine behind.bind fun _ s₁ h => ?_
    refine descends_call_bind h.below h.1 fun _ s₂ h => ?_
    exact descends_of_bind .freshId h fun _ s₃ h => h
  case systemWord =>
    refine descends_of_bind (.expectKind _) List.suffix_rfl fun _ s₁ h => ?_
    refine descends_of_bind (.expectKind _) h fun _ s₂ h => ?_
    refine descends_of_bind (.expectKind _) h fun _ s₃ h => ?_
    refine descends_of_bind (.expectKind _) h fun _ s₄ h => ?_
    refine (descends_condition h fun _ h => value h.1).bind fun _ s₅ h => ?_
    refine descends_of_bind (.expectKind _) h.1 fun _ s₆ h => ?_
    exact descends_of_bind .freshId h fun _ s₇ h => h
  case returnWord =>
    refine descends_call_bind (value List.suffix_rfl) List.suffix_rfl fun _ s₁ h => ?_
    refine descends_of_bind (.expectKind _) h fun _ s₂ h => ?_
    exact descends_of_bind .freshId h fun _ s₃ h => h
  all_goals exact descends_of (.giveUp _ _) List.suffix_rfl

theorem descends_statementAfter (hb : ∀ s', Rest o s' → Below (.expression, s') c) :
    (statementAfter first t).Descends c o (Rest o) (Rest o) := by
  unfold statementAfter
  split
  case h_1 =>
    refine descends_call_bind (hb o List.suffix_rfl) List.suffix_rfl fun _ s₁ h => ?_
    refine descends_of_bind (.expectKind _) h fun _ s₂ h => ?_
    exact descends_of_bind .freshId h fun _ s₃ h => h
  case h_2 =>
    refine descends_of_bind (.acceptToken _ _ _) List.suffix_rfl fun _ s₁ h => ?_
    split
    case h_1 => exact h
    case h_2 => exact h
    case h_3 => exact h

-- Behind its first token, a statement or member that cannot be read is skipped.
theorem descends_close (last : TokenKind) (missing : α) {body : Token → Reader α}
    (hc : Rest c.2 s) (hl : 0 < c.1.level)
    (h : (body s.first).Descends c s.tail (Rest s.tail) (Rest s.tail)) :
    Descends c (of take >>= fun t => do
      return (← recover (skipThrough last) (body t)).getD missing) s R (Rest s.tail) := by
  refine descends_take_bind.mpr ((descends_recover h fun s₁ h₁ => ?_).bind fun _ s' h => h)
  refine (descends_skipThrough (hc.trans ((rest_tail s).trans h₁)) hl).imp ?_
  rintro _ ⟨s₂, h₂, rfl⟩
  exact (h₁.trans h₂).trans (rest_tail s₂)

end Reader

-- What has to hold behind an item, unless there are no tokens.
def Consumes (s s' : Input) : Prop :=
  Rest s s' ∧ (s.tokens ≠ [] → Shorter s s')

theorem consumes_of_rest_tail {s₁ s' : Input} (h : Rest s s₁) (h' : Rest s₁.tail s') :
    Consumes s s' :=
  ⟨(h.trans (rest_tail s₁)).trans h', fun hs => (h.shorter_tail hs).trans h'⟩

namespace Reader

theorem descends_statement (start : Position) (s : Input) :
    (statement start (.ofTokens s.tokens)).Descends (.statement, s) s R (Consumes s) := by
  have hl : 0 < Routine.level .statement := by simp [Routine.level]
  have close {body : Token → Reader Statement}
      (h : (body s.first).Descends (.statement, s) s.tail (Rest s.tail) (Rest s.tail)) :
      (of take >>= fun t => closeStatement start (body t)).Descends (.statement, s) s R
        (Consumes s) :=
    (descends_close .semicolon (Statement.malformed start) List.suffix_rfl hl h).imp fun _ =>
      consumes_of_rest_tail List.suffix_rfl
  cases h : StatementStart.ofTokens s.tokens with
  | typed name => exact close (descends_declarationStatement s)
  | word word  =>
    exact close (descends_call ((rest_tail s).below (by simp [Routine.level])) List.suffix_rfl)
  | brace      =>
    have hs : s.tokens ≠ [] := by
      intro hn
      simp [hn, StatementStart.ofTokens] at h
    have hs : Shorter s s.tail := Rest.shorter_tail List.suffix_rfl hs
    exact close (descends_call hs.below List.suffix_rfl)
  | named type => exact close (descends_of (.namedDeclaration _ _) List.suffix_rfl)
  | expression =>
    refine descends_found_bind rfl (Rest.below List.suffix_rfl (by simp [Routine.level]))
      fun _ s₁ h₁ => ?_
    refine (descends_close .semicolon (Statement.malformed start) h₁ hl ?_).imp fun _ =>
      consumes_of_rest_tail h₁
    have ht := h₁.trans (rest_tail s₁)
    exact descends_statementAfter fun _ h => (ht.trans h).below (by simp [Routine.level])

theorem descends_member (start : Position) (kind : TokenKind) (s : Input) :
    (member start kind).Descends (.member, s) s R (Consumes s) := by
  have hl : 0 < Routine.level .member := by simp [Routine.level]
  have close {body : Token → Reader Member}
      (h : (body s.first).Descends (.member, s) s.tail (Rest s.tail) (Rest s.tail)) :
      (of take >>= fun t => closeMember start (body t)).Descends (.member, s) s R (Consumes s) :=
    (descends_close .leftBrace (Member.malformed start) List.suffix_rfl hl h).imp fun _ =>
      consumes_of_rest_tail List.suffix_rfl
  unfold member
  split
  case h_1 => exact close (descends_field s)
  case h_2 => exact close (descends_field s)
  case h_3 => exact close (descends_method s s.first)
  case h_4 => exact close (descends_of (.throw _) List.suffix_rfl)
  case h_5 =>
    have hs : Rest s (s.report (.declarationStart kind) start) := List.suffix_rfl
    refine descends_report_bind.mpr ((descends_skipThrough hs hl).bind ?_)
    rintro _ _ ⟨s₁, h, rfl⟩
    exact consumes_of_rest_tail (hs.trans h) List.suffix_rfl

end Reader

open Reader

variable {s s' : Input}

theorem keeps_of_fails {p : Routine} (hr : p.recovers = false) (hi : p.isItem = false)
    (h : (Reader.body p).Descends (p, s) s (Rest s) (Rest s)) :
    (Reader.body p s).Descend (p, s) (p.Keeps s) := by
  refine Calls.Descend.imp h ?_
  rintro ⟨_ | a, s'⟩ h
  case error => exact ⟨h, by simp [hr], by simp [hi]⟩
  case ok    => exact ⟨h, by simp [hr], by simp [hi]⟩

theorem keeps_of_found {p : Routine} (hi : p.isItem = false)
    (h : (Reader.body p).Descends (p, s) s (fun _ => False) (Rest s)) :
    (Reader.body p s).Descend (p, s) (p.Keeps s) := by
  refine Calls.Descend.imp h ?_
  rintro ⟨_ | a, s'⟩ h
  case error => cases h
  case ok    => exact ⟨h, fun _ => ⟨a, rfl⟩, by simp [hi]⟩

theorem keeps_of_consumes {p : Routine}
    (h : (Reader.body p).Descends (p, s) s (fun _ => False) (Consumes s)) :
    (Reader.body p s).Descend (p, s) (p.Keeps s) := by
  refine Calls.Descend.imp h ?_
  rintro ⟨_ | a, s'⟩ h
  case error => cases h
  case ok    => exact ⟨h.1, fun _ => ⟨a, rfl⟩, fun _ => h.2⟩

-- A round of a list of items, and the next round behind the item.
theorem descends_round (item list : Routine) {f : item.Value → list.Value → α}
    (hr : item.recovers) (hl : list.recovers) (hi : item.isItem)
    (hb : item.level < list.level) (hs : s.tokens ≠ []) :
    (call item >>= fun first => call list >>= fun rest => pure (f first rest)).Descends (list, s) s
      R (Rest s) := by
  refine (descends_found hr (Rest.below List.suffix_rfl hb)).bind fun _ s₁ h => ?_
  have h₁ := h.2 hi hs
  exact descends_found_bind hl h₁.below fun _ s₂ h => (h₁.trans h).1

-- What is done behind a comma.
theorem descends_comma {p : Routine} {next : Routine} {f : next.Value → α} (hs : Rest s s') :
    (of take >>= fun t => of (acceptToken (.token .comma) (ofKind .comma) t) >>= fun _ =>
      call next >>= fun a => pure (f a)).Descends (p, s) s' (Rest s) (Rest s) := by
  refine descends_take_accept_bind (by simp) hs fun h => ?_
  have h := hs.shorter h
  exact descends_call_bind h.below h.1 fun _ s₂ h => h

-- Every routine keeps what it has to keep if its calls do, and its calls are below it.
theorem body_descends (p : Routine) (s : Input) :
    (Reader.body p s).Descend (p, s) (p.Keeps s) := by
  have lower {q p : Routine} (hl : q.level < p.level) : Below (q, s) (p, s) :=
    Rest.below List.suffix_rfl hl
  cases p with
  | program =>
    refine keeps_of_found rfl ?_
    refine (descends_recover (descends_mainClass s) fun s₁ h => ?skippedClass).bind (P := Rest s)
      fun _ s₁ h => ?classes
    case skippedClass => exact (descends_skip h (by simp [Routine.level])).imp fun _ => h.trans
    case classes =>
      exact descends_found_bind rfl (h.below (by simp [Routine.level])) fun _ s₂ h' => h.trans h'
  | classList =>
    refine keeps_of_found rfl (descends_atEnd_bind.mpr ?_)
    split
    case isTrue    => exact List.suffix_rfl
    case isFalse h =>
      exact descends_round .classDeclaration .classList rfl rfl rfl (by simp [Routine.level])
        (by simpa using h)
  | classDeclaration =>
    refine keeps_of_consumes (descends_take_bind.mpr ?_)
    refine (descends_recover (descends_classDeclaration s _) fun s₁ h => ?_).imp
      fun _ => consumes_of_rest_tail List.suffix_rfl
    exact (descends_skip ((rest_tail s).trans h) (by simp [Routine.level])).imp fun _ => h.trans
  | memberList =>
    refine keeps_of_found rfl (descends_atClose_bind.mpr ?_)
    split
    case isTrue    => exact List.suffix_rfl
    case isFalse h =>
      exact descends_round .member .memberList rfl rfl rfl (by simp [Routine.level]) (by simp_all)
  | member => exact keeps_of_consumes (descends_head_bind.mpr (descends_member _ _ s))
  | parameterList =>
    refine keeps_of_fails rfl rfl ((descends_parameter s).bind fun _ s₁ h => ?_)
    refine descends_isAt_bind.mpr ?_
    split
    case isTrue  => exact h
    case isFalse => exact descends_comma h
  | statementList =>
    refine keeps_of_found rfl (descends_atClose_bind.mpr ?_)
    split
    case isTrue    => exact List.suffix_rfl
    case isFalse h =>
      exact descends_round .statement .statementList rfl rfl rfl (by simp [Routine.level])
        (by simp_all)
  | statement => exact keeps_of_consumes (descends_head_bind.mpr (descends_statement _ s))
  | wordStatement word p => exact keeps_of_fails rfl rfl (descends_wordStatement word p s)
  | block p =>
    refine keeps_of_fails rfl rfl ?_
    refine descends_call_bind (lower (by simp [Routine.level])) List.suffix_rfl fun _ s₁ h => ?_
    refine descends_of_bind (.expectKind _) h fun _ s₂ h => ?_
    exact descends_of_bind .freshId h fun _ s₃ h => h
  | expression =>
    refine keeps_of_found rfl (descends_head_bind.mpr ?_)
    refine (descends_recover (o := s) ?called fun s₁ h => ?skipped).bind (P := Rest s)
      fun _ s₁ h => h
    case called  => exact descends_call (lower (by simp [Routine.level])) List.suffix_rfl
    case skipped => exact (descends_skip h (by simp [Routine.level])).imp fun _ => h.trans
  | chain k =>
    cases k with
    | zero   =>
      exact keeps_of_fails rfl rfl
        (descends_call (lower (by simp [Routine.level])) List.suffix_rfl)
    | succ k =>
      refine keeps_of_fails rfl rfl ?_
      refine descends_call_bind (lower (by simp [Routine.level])) List.suffix_rfl fun _ s₁ h => ?_
      exact descends_call (h.below (by simp only [Routine.level]; omega)) h
  | chainRest k left =>
    refine keeps_of_fails rfl rfl (descends_head_bind.mpr ?_)
    split
    case h_1      => exact List.suffix_rfl
    case h_2 hop =>
      have ht : Shorter s s.tail := shorter_tail (by rintro hk; simp [hk, operatorAbove?] at hop)
      refine descends_take_bind.mpr ?_
      refine Descends.rebase ?_ ht.1 fun _ h => (ht.trans h).1
      refine descends_call_bind ht.below List.suffix_rfl fun _ s₁ h => ?_
      refine descends_of_bind .freshId h fun _ s₂ h => ?_
      exact descends_call (ht.trans h).below h
  | unary =>
    refine keeps_of_fails rfl rfl (descends_isAt_bind.mpr ?_)
    split
    case isTrue  =>
      refine descends_take_bind.mpr ?_
      refine descends_call_bind ((rest_tail s).below (by simp [Routine.level])) (rest_tail s)
        fun _ s₁ h => ?_
      exact descends_of_bind .freshId h fun _ s₂ h => h
    case isFalse => exact descends_call (lower (by simp [Routine.level])) List.suffix_rfl
  | term =>
    refine keeps_of_found rfl (descends_head_bind.mpr ?_)
    refine (descends_recover (descends_termBody s) fun s₁ h => ?_).bind (P := Rest s)
      fun _ s₁ h => h
    exact (descends_skip h (by simp [Routine.level])).imp fun _ => h.trans
  | termTail inner =>
    refine keeps_of_fails rfl rfl (descends_head_bind.mpr ?_)
    split
    case h_1 hk =>
      have ht : Shorter s s.tail := shorter_tail (by simp [hk])
      refine descends_take_bind.mpr ?_
      refine Descends.rebase ?_ ht.1 fun _ h => (ht.trans h).1
      refine descends_call_bind ht.below List.suffix_rfl fun _ s₁ h => ?_
      refine descends_of_bind (.expectKind _) h fun _ s₂ h => ?_
      refine descends_of_bind .freshId h fun _ s₃ h => ?_
      exact descends_call (ht.trans h).below h
    case h_2 hk =>
      have ht : Shorter s s.tail := shorter_tail (by simp [hk])
      refine descends_take_bind.mpr ?_
      refine Descends.rebase ?_ ht.1 fun _ h => (ht.trans h).1
      refine descends_call_bind ht.below List.suffix_rfl fun _ s₁ h => ?_
      exact descends_call (ht.trans h).below h
    case h_3 => exact List.suffix_rfl
  | invocation receiver => exact keeps_of_fails rfl rfl (descends_invocation s)
  | argumentList =>
    refine keeps_of_fails rfl rfl ?_
    refine descends_call_bind (lower (by simp [Routine.level])) List.suffix_rfl fun _ s₁ h => ?_
    refine descends_isAt_bind.mpr ?_
    split
    case isTrue  => exact h
    case isFalse => exact descends_comma h
  | creation p => exact keeps_of_fails rfl rfl (descends_creation s p)
  | skip stop =>
    refine keeps_of_found rfl (descends_atEnd_bind.mpr ?_)
    split
    case isTrue    => exact List.suffix_rfl
    case isFalse h =>
      have ht : Shorter s s.tail := Rest.shorter_tail List.suffix_rfl (by simpa using h)
      refine descends_head_bind.mpr ?_
      split
      case isTrue  => exact List.suffix_rfl
      case isFalse =>
        refine descends_take_bind.mpr ?_
        exact (descends_found rfl ht.below).imp fun _ h => (ht.trans h.1).1

end MiniJava.Reading
