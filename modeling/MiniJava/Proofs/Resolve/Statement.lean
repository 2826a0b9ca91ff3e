import MiniJava.Proofs.Resolve.Variable

namespace MiniJava.Resolve

open Typing

-- What is accepted with which notes, and the frame that it leaves.
abbrev Accepts := Notes → Frame → Prop

def Slots (t : SymbolTable) (ds : List VariableDeclaration) (next : Nat) : Prop :=
  ∀ (k : Nat) (d : VariableDeclaration), ds[k]? = some d → HasSlot t d (next + k)

theorem Grows.hasSlot (h : Grows ids s σ σ') (hs : HasSlot σ.table d slot) :
    HasSlot σ'.table d slot :=
  have ⟨x, hx⟩ := hs
  ⟨x, h.symbols _ _ hx⟩

theorem Grows.slots (h : Grows ids s σ σ') (hs : Slots σ.table ds next) : Slots σ'.table ds next :=
  fun k d hd => h.hasSlot (hs k d hd)

theorem slots_nil (t : SymbolTable) (next : Nat) : Slots t [] next :=
  fun k d hd => by simp at hd

theorem slots_cons {next : Nat} (hd : HasSlot t d next) (hs : Slots t ds (next + 1)) :
    Slots t (d :: ds) next := by
  intro k d' hk
  cases k with
  | zero   =>
    obtain rfl := Option.some.inj hk
    exact hd
  | succ k =>
    have hs := hs k d' hk
    rwa [Nat.add_assoc, Nat.add_comm 1] at hs

theorem slots_append (h : Slots t ds next) (h' : Slots t ds' (next + ds.length)) :
    Slots t (ds ++ ds') next := by
  intro k d hd
  by_cases hk : k < ds.length
  case pos =>
    rw [List.getElem?_append_left hk] at hd
    exact h k d hd
  case neg =>
    rw [List.getElem?_append_right (Nat.le_of_not_lt hk)] at hd
    have hd := h' _ d hd
    rwa [Nat.add_assoc, Nat.add_sub_cancel' (Nat.le_of_not_lt hk)] at hd

-- The locals `ds` get the slots from `σ.nextLocal` on, as far as there are slots.
inductive Verdict (place : Place) (Γ : Context) (ds : List VariableDeclaration) (A : Accepts)
    (σ σ' : State) : Prop
  | passed :
    σ'.size = σ.size → A σ'.table.notes F → Stands σ'.table place (Γ.push F) →
      σ'.slotsReported = false → σ'.nextLocal = σ.nextLocal + ds.length →
      (σ.nextLocal ≤ maxSlot + 1 → σ'.nextLocal ≤ maxSlot + 1) →
      Slots σ'.table ds σ.nextLocal → Verdict place Γ ds A σ σ'
  | failed :
    (∀ F, A .any F → ¬σ.nextLocal + ds.length ≤ maxSlot + 1) → σ.size < σ'.size →
      Verdict place Γ ds A σ σ'

namespace Verdict

theorem imp (h : Verdict place Γ ds A σ σ') (hA : ∀ N F, A N F → A' N F)
    (hA' : ∀ F, A' .any F → A .any F) : Verdict place Γ ds A' σ σ' := by
  cases h with
  | passed hq ha hs hr hn hl hd => exact .passed hq (hA _ _ ha) hs hr hn hl hd
  | failed hu hlt               => exact .failed (fun F h => hu F (hA' F h)) hlt

-- One part after the other: the second stands in the frame that the first has left.
theorem seq {A : Accepts} {B : Frame → Accepts} {C : Accepts}
    (h : Verdict place Γ ds A σ σ₁)
    (h' : ∀ F, A σ₁.table.notes F → Stands σ₁.table place (Γ.push F) → σ₁.slotsReported = false →
      Verdict place Γ ds' (B F) σ₁ σ₂)
    (hg : Grows ids place.scope σ₁ σ₂)
    (hk : ∀ F, A σ₁.table.notes F → A σ₂.table.notes F)
    (hu : ∀ N F F', A N F → A .any F' → F' = F)
    (hi : ∀ N F F', A N F → B F N F' → C N F')
    (he : ∀ F', C .any F' → ∃ F, A .any F ∧ B F .any F') :
    Verdict place Γ (ds ++ ds') C σ σ₂ := by
  cases h with
  | failed hf hlt =>
    apply Verdict.failed _ (Nat.lt_of_lt_of_le hlt hg.adds.size_le)
    intro F' hA
    obtain ⟨F, hA, _⟩ := he F' hA
    have := hf F hA
    rw [List.length_append]
    omega
  | @passed F hq ha hs hr hn hl hd =>
    cases h' F ha hs hr with
    | failed hf hlt =>
      apply Verdict.failed _ (hq ▸ hlt)
      intro F' hA
      obtain ⟨F₁, hA, hB⟩ := he F' hA
      obtain rfl := hu _ _ _ ha hA
      have := hf F' hB
      rw [List.length_append]
      omega
    | passed hq' ha' hs' hr' hn' hl' hd' =>
      refine .passed (hq'.trans hq) (hi _ _ _ (hk F ha) ha') hs' hr' ?next ?room ?slots
      case next  => rw [hn', hn, List.length_append, Nat.add_assoc]
      case room  => exact fun h => hl' (hl h)
      case slots => exact slots_append (hg.slots hd) (hn ▸ hd')

end Verdict

def Typed (Γ : Context) (F : Frame) (e : Expression) : Accepts :=
  fun N F' => F' = F ∧ ∃ τ, HasType N (Γ.push F) e τ

theorem verdict_expression (e : Expression) (hp : e.Proper) (hn : e.nodeIds.Nodup)
    (hs : Stands σ.table place (Γ.push F)) (hr : σ.slotsReported = false) :
    Verdict place Γ [] (Typed Γ F e) σ (expression place e σ).2 := by
  have ha := Annotates.expression place e σ
  have hj := judged_expression e hp hn hs.sees
  generalize expression place e σ = out at ha hj ⊢
  cases hj with
  | typed hq ht _ =>
    have hl := ha.nextLocal
    refine .passed hq ⟨rfl, _, ht⟩ (hs.annotate ha) (ha.reported.trans hr) hl ?room ?slots
    case room => exact fun h => Nat.le_trans (Nat.le_of_eq hl) h
    case slots => exact slots_nil _ _
  | untyped hu hlt => exact .failed (fun F' ⟨_, τ, ht⟩ => absurd ht (hu τ)) hlt

theorem verdict_declare (d : VariableDeclaration) (hs : Stands σ.table place (Γ.push F))
    (hr : σ.slotsReported = false) :
    Verdict place Γ [d] (fun N F' => Checks N Γ F (.declare d) F') σ (declareLocal place d σ).2 := by
  obtain ⟨b, hb, hh⟩ := hs.scope
  have hg : Grows [d.id] place.scope σ (declareLocal place d σ).2 :=
    .declareLocal (List.mem_singleton_self d.id) σ
  rw [declareLocal_eq] at hg ⊢
  by_cases hn : σ.nextLocal ≤ maxSlot
  case neg =>
    have hlt := lt_size_slotOf hn .locals d.position hr
    have hg' : Grows [d.id] place.scope _ _ := .defineVariable (List.mem_singleton_self d.id)
      (slotOf σ.nextLocal .locals d.position σ).1 (slotOf σ.nextLocal .locals d.position σ).2
    refine .failed (fun _ _ h => hn (Nat.le_of_succ_le_succ h)) ?exhausted
    case exhausted =>
      have hlt := Nat.lt_of_lt_of_le hlt hg'.adds.size_le
      split
      case isTrue  => exact hlt
      case isFalse => exact hlt
  case pos =>
    rw [slotOf_of_le hn] at hg ⊢
    have hd := defined_defineVariable hb hh d σ.nextLocal
    dsimp only at hg ⊢
    generalize defineVariable d place.scope (some σ.nextLocal) σ = out at hg hd ⊢
    cases hd with
    | reported hu hlt =>
      refine .failed ?taken ?grown
      case taken =>
        intro F' h
        cases h with | declare hf hk => exact absurd hf (hu ((hs.sees.known _).mpr hk))
      case grown =>
        split
        case isTrue  => exact hlt
        case isFalse => exact hlt
    | added hk hf hq hl hr' hh' hx =>
      have hk := (hs.sees.known _).mp hk
      have hks := (List.forall_mem_cons.mp hs.sees.sound.declared).1
      simp only [Option.isSome_some, Bool.and_self, if_true] at hg ⊢
      have hs' := hs.grow hg (List.forall_mem_cons.mpr ⟨hk, hks⟩) hh'
      refine .passed hq (.declare hf hk) hs' (hr'.trans hr) (congrArg (· + 1) hl) ?room ?slots
      case room => exact fun _ => Nat.succ_le_succ (hl ▸ hn)
      case slots => exact slots_cons hx (slots_nil _ _)

-- An expression and what comes after it.
theorem Verdict.after {A : Accepts} {A' : Accepts} (h : Verdict place Γ [] (Typed Γ F e) σ σ₁)
    (h' : Stands σ₁.table place (Γ.push F) → σ₁.slotsReported = false →
      Verdict place Γ ds A σ₁ σ₂)
    (hg : Grows ids place.scope σ₁ σ₂) (hd : e.nodeIds.Disjoint ids)
    (hi : ∀ N F' τ, HasType N (Γ.push F) e τ → A N F' → A' N F')
    (he : ∀ F', A' .any F' → (∃ τ, HasType .any (Γ.push F) e τ) ∧ A .any F') :
    Verdict place Γ ds A' σ σ₂ := by
  refine h.seq (B := fun _ => A) ?behind hg ?kept ?unique ?whole ?parts
  case behind =>
    rintro _ ⟨rfl, _⟩ hs hr
    exact h' hs hr
  case kept   => exact fun F' ⟨hF, τ, ht⟩ => ⟨hF, τ, ht.keep (hg.keeps hd)⟩
  case unique => exact fun _ _ _ h h' => h'.1.trans h.1.symm
  case whole  => exact fun N _ F' ⟨_, τ, ht⟩ hA => hi N F' τ ht hA
  case parts  =>
    intro F' hA
    obtain ⟨ht, hA⟩ := he F' hA
    exact ⟨F, ⟨rfl, ht⟩, hA⟩

theorem isAssignable_iff : isAssignable e.form = true ↔ Assignable e := by
  cases e <;> simp [isAssignable, Expression.form, Assignable]

theorem verdict_assign (hp : target.Proper ∧ value.Proper)
    (hn : (target.nodeIds ++ value.nodeIds).Nodup) (hs : Stands σ.table place (Γ.push F))
    (hr : σ.slotsReported = false) :
    Verdict place Γ [] (fun N F' => Checks N Γ F (.assign i target value p) F') σ
      (statement place (.assign i target value p) σ).2 := by
  obtain ⟨hnt, hnv, hd⟩ := List.nodup_append'.mp hn
  have ha := Annotates.expression place target σ
  have hv := Annotates.expression place value (expression place target σ).2
  by_cases hf : isAssignable target.form = true
  case pos =>
    have ht := isAssignable_iff.mp hf
    have he : (statement place (.assign i target value p) σ).2 =
        (expression place value (expression place target σ).2).2 := by
      rw [statement, if_pos hf]
      rfl
    rw [he]
    refine (verdict_expression target hp.1 hnt hs hr).after (verdict_expression value hp.2 hnv)
      (hv.grows place.scope) hd ?assign ?parts
    case assign =>
      rintro N _ τ h ⟨rfl, υ, h'⟩
      exact .assign ht h h'
    case parts =>
      intro F' h
      cases h with | assign _ h h' => exact ⟨⟨_, h⟩, rfl, _, h'⟩
  case neg =>
    let σ₁ := (report (.cannotAssign target.form) target.position σ).2
    have he : (statement place (.assign i target value p) σ).2 =
        (expression place value (expression place target σ₁).2).2 := by
      rw [statement, if_neg hf]
      rfl
    rw [he]
    refine .failed ?form ?reported
    case form =>
      intro F' h
      cases h with | assign ht => exact absurd (isAssignable_iff.mpr ht) hf
    case reported =>
      have ha := (Annotates.expression place target σ₁).adds
      have hv := (Annotates.expression place value (expression place target σ₁).2).adds
      exact Nat.lt_of_lt_of_le (lt_size_report _ _ _) (Nat.le_trans ha.size_le hv.size_le)

theorem verdict_block (hs : Stands σ.table place (Γ.push F)) (hr : σ.slotsReported = false)
    (h : ∀ {σ place}, Stands σ.table place ((Γ.push F).push []) → σ.slotsReported = false →
      Verdict place (Γ.push F) (Statement.localsOf body)
        (fun N F' => ChecksAll N (Γ.push F) [] body F') σ (statements place body σ).2) :
    Verdict place Γ (Statement.localsOf body) (fun N F' => Checks N Γ F (.block i body p) F') σ
      (statement place (.block i body p) σ).2 := by
  let inner : Place := ⟨σ.table.scopes.size, place.inMain⟩
  let σ₁ := (addScope .ofBlock place.scope none σ).2
  let σ₂ := (modifyTable (·.bindScope i inner.scope) σ₁).2
  have hb : Annotates [i] σ₁ σ₂ := .bindScope (List.mem_singleton_self i) inner.scope σ₁
  -- Seen from the scope around it, a block changes no scope.
  have hg : Grows (Statement.nodeIdsOf body ++ [i]) inner.scope σ (statements inner body σ₂).2 :=
    .of_addScope (.trans ((hb.grows _).mono (List.subset_append_right _ _))
      ((Grows.statements inner body σ₂).mono (List.subset_append_left _ _)))
  rw [statement]
  show Verdict place Γ _ _ σ (statements inner body σ₂).2
  cases h (hs.addScope.annotate hb) hr with
  | failed hu hlt =>
    refine .failed (fun F' h => ?_) hlt
    cases h with | block h => exact hu _ h
  | passed hq ha _ hr' hn hl hd =>
    exact .passed hq (.block ha) (hs.keep hg (Nat.le_refl _)) hr' hn hl hd

mutual

theorem verdict_statement (s : Statement) (hp : s.Proper) (hn : s.nodeIds.Nodup)
    (hs : Stands σ.table place (Γ.push F)) (hr : σ.slotsReported = false) :
    Verdict place Γ s.locals (fun N F' => Checks N Γ F s F') σ (statement place s σ).2 := by
  match s with
  | .declare d => exact verdict_declare d hs hr
  | .print i e p | .ret i e p | .assert i e p =>
    apply (verdict_expression e hp (nodup_append_singleton hn).1 hs hr).imp
    case hA =>
      rintro N _ ⟨rfl, τ, h⟩
      first | exact .print h | exact .ret h | exact .assert h
    case hA' =>
      intro F' h
      cases h with | _ h => exact ⟨rfl, _, h⟩
  | .block i body p =>
    exact verdict_block hs hr (verdict_statements body hp (nodup_append_singleton hn).1)
  | .assign i target value p => exact verdict_assign hp (nodup_append_singleton hn).1 hs hr
  | .ifThen i e onTrue p =>
    obtain ⟨hne, hnt, hd⟩ := List.nodup_append'.mp (nodup_append_singleton hn).1
    rw [statement]
    refine (verdict_expression e hp.1 hne hs hr).after (verdict_statement onTrue hp.2 hnt)
      (.statement place onTrue _) hd ?ifThenRule ?ifThenParts
    case ifThenRule => exact fun N F' τ h h' => .ifThen h h'
    case ifThenParts =>
      intro F' h
      cases h with | ifThen h h' => exact ⟨⟨_, h⟩, h'⟩
  | .ifThenElse i e onTrue onFalse p =>
    have hn := (nodup_append_singleton hn).1
    rw [List.append_assoc] at hn
    obtain ⟨hne, hnb, hd⟩ := List.nodup_append'.mp hn
    obtain ⟨hnt, hnf, hdb⟩ := List.nodup_append'.mp hnb
    rw [statement]
    let σ₁ := (expression place e σ).2
    have hg := Grows.statement place onFalse (statement place onTrue σ₁).2
    have hg' : Grows (onTrue.nodeIds ++ onFalse.nodeIds) place.scope σ₁ _ :=
      .trans ((Grows.statement place onTrue σ₁).mono (List.subset_append_left _ _))
        (hg.mono (List.subset_append_right _ _))
    let both : Accepts := fun N F'' => ∃ F', Checks N Γ F onTrue F' ∧ Checks N Γ F' onFalse F''
    refine (verdict_expression e hp.1 hne hs hr).after (A := both) (fun hs hr => ?branches) hg' hd
      ?ifThenElseRule ?ifThenElseParts
    case branches =>
      apply (verdict_statement onTrue hp.2.1 hnt hs hr).seq
        (fun F' _ => verdict_statement onFalse hp.2.2 hnf) hg
      case hk => exact fun F' h => h.keep (hg.keeps hdb)
      case hu => exact fun N F₁ F₂ h h' => h'.unique h
      case hi => exact fun N F₁ F₂ h h' => ⟨F₁, h, h'⟩
      case he => exact fun F' h => h
    case ifThenElseRule => exact fun N F' τ h ⟨F'', h₁, h₂⟩ => .ifThenElse h h₁ h₂
    case ifThenElseParts =>
      intro F' h
      cases h with | ifThenElse h h₁ h₂ => exact ⟨⟨_, h⟩, _, h₁, h₂⟩
  | .loop i e body p =>
    obtain ⟨hne, hnt, hd⟩ := List.nodup_append'.mp (nodup_append_singleton hn).1
    rw [statement]
    refine (verdict_expression e hp.1 hne hs hr).after (verdict_statement body hp.2 hnt)
      (.statement place body _) hd ?loopRule ?loopParts
    case loopRule => exact fun N F' τ h h' => .loop h h'
    case loopParts =>
      intro F' h
      cases h with | loop h h' => exact ⟨⟨_, h⟩, h'⟩
  | .call i receiver name arguments p =>
    rw [statement]
    apply (verdict_expression (.call i receiver name arguments p) hp hn hs hr).imp
    case hA =>
      rintro N _ ⟨rfl, τ, h⟩
      exact .call h
    case hA' =>
      intro F' h
      cases h with | call h => exact ⟨rfl, _, h⟩
  | .malformed _ => exact hp.elim

theorem verdict_statements (ss : List Statement) (hp : Statement.ProperAll ss)
    (hn : (Statement.nodeIdsOf ss).Nodup) (hs : Stands σ.table place (Γ.push F))
    (hr : σ.slotsReported = false) :
    Verdict place Γ (Statement.localsOf ss) (fun N F' => ChecksAll N Γ F ss F') σ
      (statements place ss σ).2 := by
  match ss with
  | []      => exact .passed rfl .nil hs hr rfl id (slots_nil _ _)
  | s :: ss =>
    obtain ⟨hns, hnss, hd⟩ := List.nodup_append'.mp hn
    have hg := Grows.statements place ss (statement place s σ).2
    rw [statements]
    apply (verdict_statement s hp.1 hns hs hr).seq
      (fun F' _ => verdict_statements ss hp.2 hnss) hg
    case hk => exact fun F' h => h.keep (hg.keeps hd)
    case hu => exact fun N F₁ F₂ h h' => h'.unique h
    case hi => exact fun N F₁ F₂ h h' => .cons h h'
    case he =>
      intro F' h
      cases h with | cons h h' => exact ⟨_, h, h'⟩

end

end MiniJava.Resolve
