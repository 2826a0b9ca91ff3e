import MiniJava.Proofs.Resolve.Standing
import MiniJava.Proofs.Tree.Likeness
import MiniJava.Proofs.Typing.Lineage

namespace MiniJava

structure Signature.Like (m m' : Signature) : Prop where
  name       : m'.name = m.name
  returns    : m'.returns = m.returns
  parameters : m'.parameters = m.parameters

structure Body.Like (P : Position → Position → Prop) (b b' : Body) : Prop where
  inMain     : b'.inMain = b.inMain
  parameters : List.Forall₂ (VariableDeclaration.Like (.upTo P)) b.parameters b'.parameters
  statements : Statement.LikeAll (.upTo P) b.statements b'.statements

-- Classes that offer the same, in whatever order.
structure Resolve.AnyClass.Like (P : Position → Position → Prop) (c c' : AnyClass) : Prop where
  name       : c'.name = c.name
  superclass : c'.superclass = c.superclass
  fields     : ∀ name, Option.Rel (VariableDeclaration.Like (.upTo P))
    (c.fields.find? (·.name = name)) (c'.fields.find? (·.name = name))
  signatures : ∀ name, Option.Rel Signature.Like
    (c.signatures.find? (·.name = name)) (c'.signatures.find? (·.name = name))

namespace Typing

open Resolve (AnyClass allClasses staticType)

-- Declarations that are alike, with what else is known of them.
structure Matches (P : Position → Position → Prop)
    (A : VariableDeclaration → VariableDeclaration → Prop) (d d' : VariableDeclaration) : Prop where
  like  : d.Like (.upTo P) d'
  agree : A d d'

-- Methods that are called alike, with what else is known of them.
structure MatchesMethod (M : Signature → Signature → Prop) (m m' : Signature) : Prop where
  like  : m.Like m'
  agree : M m m'

theorem exists_of_rel {R : α → β → Prop} {o : Option α} {o' : Option β} (h : Option.Rel R o o')
    (ho : o = some a) : ∃ b, o' = some b ∧ R a b := by
  cases h with
  | none   => cases ho
  | some h => exact ⟨_, rfl, Option.some.inj ho ▸ h⟩

-- The first of a name.
theorem rel_find? {R : α → α → Prop} {name : α → String} (hR : ∀ a a', R a a' → name a' = name a)
    (h : List.Forall₂ R l l') (n : String) :
    Option.Rel R (l.find? (name · = n)) (l'.find? (name · = n)) := by
  induction h with
  | nil          => exact .none
  | cons h hs hi =>
    rw [List.find?_cons, List.find?_cons, hR _ _ h]
    split
    case h_1 => exact .some h
    case h_2 => exact hi

section

variable {P : Position → Position → Prop} {A : VariableDeclaration → VariableDeclaration → Prop}
  {M : Signature → Signature → Prop}

theorem Matches.name (h : Matches P A d d') : d'.name = d.name :=
  h.like.name

theorem Matches.type (h : Matches P A d d') : d'.type = d.type :=
  h.like.type

-- What expressions can refer to in one context they can refer to in the other.
structure Context.Like (P : Position → Position → Prop)
    (A : VariableDeclaration → VariableDeclaration → Prop) (M : Signature → Signature → Prop)
    (Γ Γ' : Context) : Prop where
  className     : Γ'.className = Γ.className
  inMain        : Γ'.inMain = Γ.inMain
  known         : Known Γ.program name → Known Γ'.program name
  lookup?       : ∀ name, Option.Rel (Matches P A) (Γ.lookup? name) (Γ'.lookup? name)
  exists_method : HasMethod Γ.program c name m →
    ∃ m', HasMethod Γ'.program c name m' ∧ MatchesMethod M m m'
  methods       : HasMethod Γ.program c name m → HasMethod Γ'.program c name m' →
    MatchesMethod M m m'

theorem Context.lookup?_push (Γ : Context) (F : Frame) (name : String) :
    (Γ.push F).lookup? name = (F.find? (·.name = name)).or (Γ.lookup? name) := by
  simp only [lookup?, push, List.findSome?_cons]
  cases F.find? (·.name = name) <;> rfl

theorem Context.Like.push (h : Context.Like P A M Γ Γ') (hF : List.Forall₂ (Matches P A) F F') :
    Context.Like P A M (Γ.push F) (Γ'.push F') where
  className     := h.className
  inMain        := h.inMain
  known         := h.known
  exists_method := h.exists_method
  methods       := h.methods
  lookup? name  := by
    have hfind := rel_find? (R := Matches P A) (fun _ _ h => h.name) hF name
    have hlookup := h.lookup? name
    rw [lookup?_push, lookup?_push]
    revert hfind
    generalize F.find? _ = o
    generalize F'.find? _ = o'
    intro hfind
    cases hfind with
    | some hd => exact .some hd
    | none    => exact hlookup

mutual

theorem HasType.move (h : Context.Like P A M Γ Γ') (ht : HasType .any Γ e τ)
    (hl : e.Like (.upTo P) e') : HasType .any Γ' e' τ := by
  match ht, hl with
  | .length hr ha _, .call _ hlr hla _ => exact .length (hr.move h hlr) (ha.move h hla) trivial
  | .call hr ha hn hm hlen _ _, .call _ hlr hla _ =>
    obtain ⟨m', hm', hs⟩ := h.exists_method hm
    rw [← hs.like.returns]
    refine .call (hr.move h hlr) (ha.move h hla) hn hm' ?_ trivial trivial
    rw [hs.like.parameters, hlen, hla.length_eq]
  | .newObject hk _, .newObject _ _ => exact .newObject (h.known hk) trivial
  | .newArray hs hk _, .newArray _ hls _ => exact .newArray (hs.move h hls) (h.known hk) trivial
  | .not ho _, .not _ hlo _ => exact .not (ho.move h hlo) trivial
  | .arithmetic hl hr ho _, .binary _ hll hlr _ =>
    exact .arithmetic (hl.move h hll) (hr.move h hlr) ho trivial
  | .logical hl hr ho _, .binary _ hll hlr _ =>
    exact .logical (hl.move h hll) (hr.move h hlr) ho trivial
  | .boolean _, .boolean _ _ => exact .boolean trivial
  | .integer _, .integer _ _ => exact .integer trivial
  | .self hm _, .self _ _ =>
    rw [← h.className]
    exact .self (h.inMain.trans hm) trivial
  | .index ha hs _, .index _ hla hls _ => exact .index (ha.move h hla) (hs.move h hls) trivial
  | .reference hd _ _, .reference _ _ =>
    obtain ⟨d', hd', hm⟩ := exists_of_rel (h.lookup? _) hd
    rw [← hm.type]
    exact .reference hd' trivial trivial

theorem HaveTypes.move (h : Context.Like P A M Γ Γ') : HaveTypes .any Γ es →
    Expression.LikeAll (.upTo P) es es' → HaveTypes .any Γ' es'
  | .nil, .nil => .nil
  | .cons he hes, .cons hle hles => .cons (he.move h hle) (hes.move h hles)

end

theorem Assignable.move {e e' : Expression} (hl : e.Like (.upTo P) e') (h : Assignable e) :
    Assignable e' := by
  cases hl <;> exact h

theorem forall_name_ne (h : List.Forall₂ (Matches P A) F F') (hn : ∀ d ∈ F, d.name ≠ name) :
    ∀ d ∈ F', d.name ≠ name := by
  intro d' hd'
  obtain ⟨d, hd, hm⟩ := exists_of_forall₂ h hd'
  exact hm.name ▸ hn d hd

theorem forall₂_append {R : α → β → Prop} {l₁ l₂ : List α} {l₁' l₂' : List β}
    (h : List.Forall₂ R (l₁ ++ l₂) (l₁' ++ l₂')) (hl : l₁.length = l₁'.length) :
    List.Forall₂ R l₁ l₁' ∧ List.Forall₂ R l₂ l₂' := by
  have ht := List.forall₂_take l₁.length h
  have hd := List.forall₂_drop l₁.length h
  rw [List.take_left, hl, List.take_left] at ht
  rw [List.drop_left, hl, List.drop_left] at hd
  exact ⟨ht, hd⟩

mutual

theorem Checks.move {s s' : Statement} (h : Context.Like P A M Γ Γ') (hc : Checks .any Γ F s F₁)
    (hl : s.Like (.upTo P) s') (hF : List.Forall₂ (Matches P A) F F')
    (hA : List.Forall₂ A s.locals s'.locals) :
    ∃ F₁', Checks .any Γ' F' s' F₁' ∧ List.Forall₂ (Matches P A) F₁ F₁' := by
  match hc, hl with
  | .declare hd hk, .declare hld =>
    cases hA with | cons hA =>
    refine ⟨_, .declare ?free ?known, .cons ⟨hld, hA⟩ hF⟩
    case free => exact hld.name ▸ forall_name_ne hF hd
    case known => exact hld.type ▸ h.known hk
  | .print he, .print _ hle _ => exact ⟨_, .print (he.move (h.push hF) hle), hF⟩
  | .ret he, .ret _ hle _ => exact ⟨_, .ret (he.move (h.push hF) hle), hF⟩
  | .assert he, .assert _ hle _ => exact ⟨_, .assert (he.move (h.push hF) hle), hF⟩
  | .block hb, .block _ hlb _ =>
    obtain ⟨_, hb, _⟩ := hb.move (h.push hF) hlb .nil hA
    exact ⟨_, .block hb, hF⟩
  | .assign ha ht hv, .assign _ hlt hlv _ =>
    exact ⟨_, .assign (ha.move hlt) (ht.move (h.push hF) hlt) (hv.move (h.push hF) hlv), hF⟩
  | .ifThen he ht, .ifThen _ hle hlt _ =>
    obtain ⟨_, ht, hF₁⟩ := ht.move h hlt hF hA
    exact ⟨_, .ifThen (he.move (h.push hF) hle) ht, hF₁⟩
  | .ifThenElse he ht hf, .ifThenElse _ hle hlt hlf _ =>
    obtain ⟨hAt, hAf⟩ := forall₂_append hA hlt.locals.length_eq
    obtain ⟨_, ht, hF₁⟩ := ht.move h hlt hF hAt
    obtain ⟨_, hf, hF₂⟩ := hf.move h hlf hF₁ hAf
    exact ⟨_, .ifThenElse (he.move (h.push hF) hle) ht hf, hF₂⟩
  | .loop he hb, .loop _ hle hlb _ =>
    obtain ⟨_, hb, hF₁⟩ := hb.move h hlb hF hA
    exact ⟨_, .loop (he.move (h.push hF) hle) hb, hF₁⟩
  | .call he, .call hle => exact ⟨_, .call (he.move (h.push hF) hle), hF⟩

theorem ChecksAll.move {ss ss' : List Statement} (h : Context.Like P A M Γ Γ')
    (hc : ChecksAll .any Γ F ss F₁) (hl : Statement.LikeAll (.upTo P) ss ss')
    (hF : List.Forall₂ (Matches P A) F F')
    (hA : List.Forall₂ A (Statement.localsOf ss) (Statement.localsOf ss')) :
    ∃ F₁', ChecksAll .any Γ' F' ss' F₁' ∧ List.Forall₂ (Matches P A) F₁ F₁' := by
  match hc, hl with
  | .nil, .nil => exact ⟨_, .nil, hF⟩
  | .cons hs hss, .cons hls hlss =>
    obtain ⟨hAs, hAss⟩ := forall₂_append hA hls.locals.length_eq
    obtain ⟨_, hs, hF₁⟩ := hs.move h hls hF hAs
    obtain ⟨_, hss, hF₂⟩ := hss.move h hlss hF₁ hAss
    exact ⟨_, .cons hs hss, hF₂⟩

end

-- What is noted of the nodes of two trees agrees: they have the same types, and refer to variables
-- and methods that correspond.
def noted (P : Position → Position → Prop) (A : VariableDeclaration → VariableDeclaration → Prop)
    (M : Signature → Signature → Prop) (N N' : Notes) : Likeness where
  nodes
    | .expression, i, i' => ∃ τ, N.type i τ ∧ N'.type i' τ
    | .reference, i, i'  =>
      (∃ τ, N.type i τ ∧ N'.type i' τ) ∧ ∃ d d', A d d' ∧ N.refersTo i d ∧ N'.refersTo i' d'
    | .call, i, i'       =>
      (∃ τ, N.type i τ ∧ N'.type i' τ) ∧ ∃ m m', M m m' ∧ N.calls i m ∧ N'.calls i' m'
    | .other, _, _       => True
  name      := id
  positions := P

mutual

theorem HasType.like {e e' : Expression} (h : Context.Like P A M Γ Γ') (ht : HasType N Γ e τ)
    (ht' : HasType N' Γ' e' τ') (hl : e.Like (.upTo P) e') :
    e.Like (noted P A M N N') e' ∧ τ' = τ := by
  match e with
  | .call i receiver name arguments p =>
    cases hl with | call _ hlr hla hp =>
    cases ht with
    | length hr ha hn =>
      cases ht' with
      | length hr' ha' hn'     => exact ⟨.call ⟨_, hn, hn'⟩ (hr.like h hr' hlr).1 (ha.like h ha' hla) hp, rfl⟩
      | call _ _ hname _ _ _ _ => exact absurd rfl hname
    | call hr ha hname hm _ hc hn =>
      cases ht' with
      | length _ _ _                   => exact absurd rfl hname
      | call hr' ha' _ hm' _ hc' hn' =>
        obtain ⟨hlr, he⟩ := hr.like h hr' hlr
        obtain ⟨⟩ := he
        have hs := h.methods hm hm'
        rw [hs.like.returns] at hn' ⊢
        refine ⟨.call ?_ hlr (ha.like h ha' hla) hp, rfl⟩
        rw [NodeRole.ofCall, if_neg hname]
        exact ⟨⟨_, hn, hn'⟩, _, _, hs.agree, hc, hc'⟩
  | .newObject i name p =>
    cases hl with | newObject _ hp =>
    cases ht with | newObject _ hn =>
    cases ht' with | newObject _ hn' => exact ⟨.newObject ⟨_, hn, hn'⟩ hp, rfl⟩
  | .newArray i name size p =>
    cases hl with | newArray _ hls hp =>
    cases ht with | newArray hs _ hn =>
    cases ht' with | newArray hs' _ hn' =>
    exact ⟨.newArray ⟨_, hn, hn'⟩ (hs.like h hs' hls).1 hp, rfl⟩
  | .not i operand p =>
    cases hl with | not _ hlo hp =>
    cases ht with | not ho hn =>
    cases ht' with | not ho' hn' => exact ⟨.not ⟨_, hn, hn'⟩ (ho.like h ho' hlo).1 hp, rfl⟩
  | .binary i op left right p =>
    cases hl with | binary _ hll hlr hp =>
    cases ht with
    | arithmetic hleft hright hop hn =>
      cases ht' with
      | arithmetic hleft' hright' _ hn' =>
        exact ⟨.binary ⟨_, hn, hn'⟩ (hleft.like h hleft' hll).1 (hright.like h hright' hlr).1 hp, rfl⟩
      | logical _ _ hop' _              => exact absurd hop hop'
    | logical hleft hright hop hn =>
      cases ht' with
      | arithmetic _ _ hop' _        => exact absurd hop' hop
      | logical hleft' hright' _ hn' =>
        exact ⟨.binary ⟨_, hn, hn'⟩ (hleft.like h hleft' hll).1 (hright.like h hright' hlr).1 hp, rfl⟩
  | .boolean i value p =>
    cases hl with | boolean _ hp =>
    cases ht with | boolean hn =>
    cases ht' with | boolean hn' => exact ⟨.boolean ⟨_, hn, hn'⟩ hp, rfl⟩
  | .integer i value p =>
    cases hl with | integer _ hp =>
    cases ht with | integer hn =>
    cases ht' with | integer hn' => exact ⟨.integer ⟨_, hn, hn'⟩ hp, rfl⟩
  | .self i p =>
    cases hl with | self _ hp =>
    cases ht with | self _ hn =>
    cases ht' with | self _ hn' =>
    rw [h.className] at hn' ⊢
    exact ⟨.self ⟨_, hn, hn'⟩ hp, rfl⟩
  | .index i array subscript p =>
    cases hl with | index _ hla hls hp =>
    cases ht with | index ha hs hn =>
    cases ht' with | index ha' hs' hn' =>
    obtain ⟨hla, he⟩ := ha.like h ha' hla
    obtain ⟨⟩ := he
    exact ⟨.index ⟨_, hn, hn'⟩ hla (hs.like h hs' hls).1 hp, rfl⟩
  | .reference i name p =>
    cases hl with | reference _ hp =>
    cases ht with | reference hd hr hn =>
    cases ht' with | reference hd' hr' hn' =>
    obtain ⟨d', hd'', hm⟩ := exists_of_rel (h.lookup? _) hd
    obtain rfl := Option.some.inj (hd'.symm.trans hd'')
    rw [hm.type] at hn' ⊢
    exact ⟨.reference ⟨⟨_, hn, hn'⟩, _, _, hm.agree, hr, hr'⟩ hp, rfl⟩
  | .malformed p => cases ht

theorem HaveTypes.like {es es' : List Expression} (h : Context.Like P A M Γ Γ')
    (ht : HaveTypes N Γ es) (ht' : HaveTypes N' Γ' es') (hl : Expression.LikeAll (.upTo P) es es') :
    Expression.LikeAll (noted P A M N N') es es' := by
  match es with
  | []      =>
    cases hl with | nil => exact .nil
  | e :: es =>
    cases hl with | cons hle hles =>
    cases ht with | cons he hes =>
    cases ht' with | cons he' hes' => exact .cons (he.like h he' hle).1 (hes.like h hes' hles)

end

theorem noted_declaration {d d' : VariableDeclaration} {N N' : Notes} (h : d.Like (.upTo P) d') :
    d.Like (noted P A M N N') d' :=
  { h with }

mutual

theorem Checks.like {s s' : Statement} (h : Context.Like P A M Γ Γ') (hc : Checks N Γ F s F₁)
    (hc' : Checks N' Γ' F' s' F₁') (hl : s.Like (.upTo P) s') (hF : List.Forall₂ (Matches P A) F F')
    (hA : List.Forall₂ A s.locals s'.locals) :
    s.Like (noted P A M N N') s' ∧ List.Forall₂ (Matches P A) F₁ F₁' := by
  match s with
  | .declare d =>
    cases hl with | declare hld =>
    cases hc with | declare =>
    cases hc' with | declare =>
    cases hA with | cons hA => exact ⟨.declare (noted_declaration hld), .cons ⟨hld, hA⟩ hF⟩
  | .print i e p =>
    cases hl with | print _ hle hp =>
    cases hc with | print he =>
    cases hc' with | print he' => exact ⟨.print trivial (he.like (h.push hF) he' hle).1 hp, hF⟩
  | .ret i e p =>
    cases hl with | ret _ hle hp =>
    cases hc with | ret he =>
    cases hc' with | ret he' => exact ⟨.ret trivial (he.like (h.push hF) he' hle).1 hp, hF⟩
  | .assert i e p =>
    cases hl with | assert _ hle hp =>
    cases hc with | assert he =>
    cases hc' with | assert he' => exact ⟨.assert trivial (he.like (h.push hF) he' hle).1 hp, hF⟩
  | .block i ss p =>
    cases hl with | block _ hls hp =>
    cases hc with | block hss =>
    cases hc' with | block hss' =>
    exact ⟨.block trivial (hss.like (h.push hF) hss' hls .nil hA) hp, hF⟩
  | .assign i target value p =>
    cases hl with | assign _ hlt hlv hp =>
    cases hc with | assign _ ht hv =>
    cases hc' with | assign _ ht' hv' =>
    exact ⟨.assign trivial (ht.like (h.push hF) ht' hlt).1 (hv.like (h.push hF) hv' hlv).1 hp, hF⟩
  | .ifThen i e onTrue p =>
    cases hl with | ifThen _ hle hlt hp =>
    cases hc with | ifThen he ht =>
    cases hc' with | ifThen he' ht' =>
    obtain ⟨hlt, hF₁⟩ := ht.like h ht' hlt hF hA
    exact ⟨.ifThen trivial (he.like (h.push hF) he' hle).1 hlt hp, hF₁⟩
  | .ifThenElse i e onTrue onFalse p =>
    cases hl with | ifThenElse _ hle hlt hlf hp =>
    cases hc with | ifThenElse he ht hf =>
    cases hc' with | ifThenElse he' ht' hf' =>
    obtain ⟨hAt, hAf⟩ := forall₂_append hA hlt.locals.length_eq
    obtain ⟨hlt, hF₁⟩ := ht.like h ht' hlt hF hAt
    obtain ⟨hlf, hF₂⟩ := hf.like h hf' hlf hF₁ hAf
    exact ⟨.ifThenElse trivial (he.like (h.push hF) he' hle).1 hlt hlf hp, hF₂⟩
  | .loop i e body p =>
    cases hl with | loop _ hle hlb hp =>
    cases hc with | loop he hb =>
    cases hc' with | loop he' hb' =>
    obtain ⟨hlb, hF₁⟩ := hb.like h hb' hlb hF hA
    exact ⟨.loop trivial (he.like (h.push hF) he' hle).1 hlb hp, hF₁⟩
  | .call i receiver name arguments p =>
    cases hl with | call hle =>
    cases hc with | call he =>
    cases hc' with | call he' => exact ⟨.call (he.like (h.push hF) he' hle).1, hF⟩
  | .malformed p => cases hc

theorem ChecksAll.like {ss ss' : List Statement} (h : Context.Like P A M Γ Γ')
    (hc : ChecksAll N Γ F ss F₁) (hc' : ChecksAll N' Γ' F' ss' F₁')
    (hl : Statement.LikeAll (.upTo P) ss ss') (hF : List.Forall₂ (Matches P A) F F')
    (hA : List.Forall₂ A (Statement.localsOf ss) (Statement.localsOf ss')) :
    Statement.LikeAll (noted P A M N N') ss ss' := by
  match ss with
  | []      =>
    cases hl with | nil => exact .nil
  | s :: ss =>
    cases hl with | cons hls hlss =>
    cases hc with | cons hs hss =>
    cases hc' with | cons hs' hss' =>
    obtain ⟨hAs, hAss⟩ := forall₂_append hA hls.locals.length_eq
    obtain ⟨hls, hF₁⟩ := hs.like h hs' hls hF hAs
    exact .cons hls (hss.like h hss' hlss hF₁ hAss)

end

end

section

variable {P : Position → Position → Prop} {p p' : Program}

-- A class and the class of the other program that offers the same.
structure Counterparts (P : Position → Position → Prop) (p p' : Program) (c c' : AnyClass) : Prop where
  mem  : c ∈ allClasses p
  mem' : c' ∈ allClasses p'
  like : c.Like P c'

-- Every class of one program has a counterpart in the other.
def ClassesLike (P : Position → Position → Prop) (p p' : Program) : Prop :=
  ∀ c ∈ allClasses p, ∃ c', Counterparts P p p' c c'

-- Fields of the same name in classes of the same name.
inductive SameField (p p' : Program) (d d' : VariableDeclaration) : Prop
  | intro : c ∈ allClasses p → c' ∈ allClasses p' → c'.name = c.name → d ∈ c.fields →
    d' ∈ c'.fields → d'.name = d.name → SameField p p' d d'

inductive SameMethod (p p' : Program) (m m' : Signature) : Prop
  | intro : c ∈ allClasses p → c' ∈ allClasses p' → c'.name = c.name → m ∈ c.signatures →
    m' ∈ c'.signatures → m'.name = m.name → SameMethod p p' m m'

theorem rel_of_mem {R R' : α → β → Prop} {o : Option α} {o' : Option β} (h : Option.Rel R o o')
    (hR : ∀ a b, o = some a → o' = some b → R a b → R' a b) : Option.Rel R' o o' := by
  cases h with
  | none   => exact .none
  | some h => exact .some (hR _ _ rfl rfl h)

namespace Counterparts

theorem fields (h : Counterparts P p p' c c') (name : String) :
    Option.Rel (Matches P (SameField p p')) (c.fields.find? (·.name = name))
      (c'.fields.find? (·.name = name)) :=
  rel_of_mem (h.like.fields name) fun _ _ hd hd' hl =>
    ⟨hl, .intro h.mem h.mem' h.like.name (List.mem_of_find?_eq_some hd)
      (List.mem_of_find?_eq_some hd') hl.name⟩

theorem signatures (h : Counterparts P p p' c c') (name : String) :
    Option.Rel (MatchesMethod (SameMethod p p')) (c.signatures.find? (·.name = name))
      (c'.signatures.find? (·.name = name)) :=
  rel_of_mem (h.like.signatures name) fun _ _ hm hm' hl =>
    ⟨hl, .intro h.mem h.mem' h.like.name (List.mem_of_find?_eq_some hm)
      (List.mem_of_find?_eq_some hm') hl.name⟩

end Counterparts

theorem Lineage.move (h : ClassesLike P p p') (hl : Lineage p c l) (hc : Counterparts P p p' c c') :
    ∃ l', Lineage p' c' l' ∧ List.Forall₂ (Counterparts P p p') l l' := by
  induction hl generalizing c' with
  | root _ hs          => exact ⟨_, .root hc.mem' (hc.like.superclass.trans hs), .cons hc .nil⟩
  | extend _ hs hpl hi =>
    obtain ⟨parent', hparent⟩ := h _ hpl.mem
    obtain ⟨l', hl', hll⟩ := hi hparent
    refine ⟨_, .extend hc.mem' ?_ hl', .cons hc hll⟩
    rw [hc.like.superclass, hs, hparent.like.name]

theorem known_move (h : ClassesLike P p p') (hk : Known p name) : Known p' name := by
  refine hk.imp_right fun hn => ?_
  obtain ⟨c, hc, rfl⟩ := List.mem_map.mp hn
  obtain ⟨c', hc⟩ := h c hc
  exact List.mem_map.mpr ⟨c', hc.mem', hc.like.name⟩

theorem rel_method? (h : List.Forall₂ (Counterparts P p p') l l') (name : String) :
    Option.Rel (MatchesMethod (SameMethod p p')) (method? l name) (method? l' name) :=
  rel_findSome? (h.imp fun _ _ hc => hc.signatures name)

theorem HasMethod.move (h : ClassesLike P p p') (hm : HasMethod p className name m) :
    ∃ m', HasMethod p' className name m' ∧ MatchesMethod (SameMethod p p') m m' := by
  cases hm with | intro hl hm =>
  obtain ⟨c', hc⟩ := h _ hl.mem
  obtain ⟨l', hl', hll⟩ := hl.move h hc
  obtain ⟨m', hm', hmatch⟩ := exists_of_rel (rel_method? hll name) hm
  exact ⟨m', hc.like.name ▸ .intro hl' hm', hmatch⟩

theorem HasMethod.unique (hn : (classNames p).Nodup) (hm : HasMethod p className name m)
    (hm' : HasMethod p className name m') : m = m' := by
  cases hm with | intro hl hm =>
  exact Option.some.inj (hm.symm.trans ((hasMethod_iff hn hl).mp hm'))

-- The contexts of bodies in classes that are counterparts.
theorem bodyContext_like (h : ClassesLike P p p') (hn : (classNames p').Nodup)
    (hA : ∀ d d', SameField p p' d d' → A d d') (hl : List.Forall₂ (Counterparts P p p') l l')
    (hc : Counterparts P p p' c c') (hm : b'.inMain = b.inMain) :
    Context.Like P A (SameMethod p p') (bodyContext p c l b) (bodyContext p' c' l' b') where
  className         := hc.like.name
  inMain            := hm
  known             := known_move h
  exists_method     := HasMethod.move h
  methods hm hm'    := by
    obtain ⟨_, hm'', hmatch⟩ := hm.move h
    exact HasMethod.unique hn hm'' hm' ▸ hmatch
  lookup? name      := by
    show Option.Rel _ ((l.map _).findSome? _) ((l'.map _).findSome? _)
    rw [List.findSome?_map, List.findSome?_map]
    exact rel_imp (fun _ _ hd => ⟨hd.like, hA _ _ hd.agree⟩)
      (rel_findSome? (hl.imp fun _ _ hc => hc.fields name))

end

end Typing

end MiniJava
