import MiniJava.Proofs.Resolve.Members
import MiniJava.Proofs.Resolve.Operation
import MiniJava.Proofs.Resolve.Statement

namespace MiniJava.Resolve

open SymbolTable (Operation Persists)

-- All new scopes are of that kind and have that parent.
def Opening (R : ScopeKind → Option ScopeId → Prop) (t t' : SymbolTable) : Prop :=
  ∀ s b, t.scopes.size ≤ s → t'.scope? s = some b → R b.kind b.parent

abbrev Path (R : ScopeKind → Option ScopeId → Prop) : SymbolTable → SymbolTable → Prop :=
  Relation.ReflTransGen fun t t' => Operation t t' ∧ Opening R t t'

namespace Path

variable {R : ScopeKind → Option ScopeId → Prop}

theorem keeps (h : Path R t t') (ht : t.Tree) : t'.Tree ∧ Persists t t' := by
  induction h with
  | refl          => exact ⟨ht, .refl t⟩
  | tail _ hs hi  =>
    obtain ⟨ht', hp⟩ := hi
    exact ⟨hs.1.tree ht', hp.trans (hs.1.change ht').toPersists⟩

theorem mono (h : Path R t t') (hR : ∀ k p, R k p → R' k p) : Path R' t t' :=
  Relation.ReflTransGen.mono (fun _ _ hs => ⟨hs.1, fun s b hs' hb => hR _ _ (hs.2 s b hs' hb)⟩) _ _ h

-- Only class scopes get another parent later.
theorem opening (h : Path R t t') (ht : t.Tree)
    (hR : ∀ k p, R k p → k ≠ .ofClass ∨ ∀ p', R k p') : Opening R t t' := by
  induction h with
  | refl => exact fun s b hs hb => absurd (SymbolTable.lt_of_scope? hb) (Nat.not_lt.mpr hs)
  | @tail t' t'' h hs hi =>
    intro s b hle hb
    by_cases hs' : t'.scopes.size ≤ s
    case pos => exact hs.2 s b hs' hb
    case neg =>
      have hb' : t'.scope? s = some t'.scopes[s] := Array.getElem?_eq_getElem (Nat.not_le.mp hs')
      have hr := hi s _ hle hb'
      obtain ⟨b'', hb'', hk, hp, _⟩ := (hs.1.change (keeps h ht).1).scope s _ hb'
      obtain rfl := Option.some.inj (hb.symm.trans hb'')
      rw [hk]
      rcases hR _ _ hr with hn | hr
      case inl => rwa [hp hn]
      case inr => exact hr _

end Path

theorem size_le_of_persists (h : Persists t t') : t.scopes.size ≤ t'.scopes.size := by
  by_contra hlt
  have hs : t.scope? t'.scopes.size = some t.scopes[t'.scopes.size] :=
    Array.getElem?_eq_getElem (Nat.not_le.mp hlt)
  obtain ⟨b, hb, _⟩ := h.scope _ _ hs
  exact Nat.lt_irrefl _ (SymbolTable.lt_of_scope? hb)

theorem opening_of_size (h : t'.scopes.size = t.scopes.size) : Opening R t t' :=
  fun _ _ hs hb => absurd (SymbolTable.lt_of_scope? hb) (Nat.not_lt.mpr (h ▸ hs))

theorem opening_addScope (h : R kind (some parent)) :
    Opening R t (t.addScope kind parent owner).2 := by
  intro s b hs hb
  rw [SymbolTable.scope?_addScope] at hb
  split at hb
  case isTrue  => exact Option.some.inj hb ▸ h
  case isFalse => exact absurd (SymbolTable.lt_of_scope? hb) (Nat.not_lt.mpr hs)

theorem Path.addSymbol (t : SymbolTable) (s : ScopeId) (hτ : ∀ τ, symbol.asType? = some τ →
    τ.scope = none ∧ τ.superclass = none ∧ (τ.builtin = true → symbol.name ∈ builtinTypes)) :
    Path R t (t.addSymbol s symbol).2 :=
  .single ⟨.addSymbol s hτ, opening_of_size (by simp [SymbolTable.addSymbol])⟩

-- From a table with a tree of scopes on.
def Builds (R : ScopeKind → Option ScopeId → Prop) (σ σ' : State) : Prop :=
  σ.table.Tree → Path R σ.table σ'.table

-- The scope of a body, or one of a block in a body.
def InBody (t : SymbolTable) (s : ScopeId) : Prop :=
  ∃ b, t.scope? s = some b ∧ (b.kind = .ofMethod ∨ b.kind = .ofBlock)

theorem InBody.persist (h : InBody t s) (hp : Persists t t') : InBody t' s := by
  obtain ⟨b, hb, hk⟩ := h
  obtain ⟨b', hb', hk', _⟩ := hp.scope s b hb
  exact ⟨b', hb', hk' ▸ hk⟩

structure IsClass (t : SymbolTable) (D : DefinedClass) : Prop where
  scope  : t.IsClassScope D.scope D.symbol
  symbol : ∃ a, t.symbol? D.symbol = some a ∧ a.name = D.name ∧
    a.declaration = some D.declaration.id

theorem IsClass.persist (h : IsClass t D) (hp : Persists t t') : IsClass t' D where
  scope  := hp.isClassScope h.scope
  symbol := by
    obtain ⟨a, ha, hn, hd⟩ := h.symbol
    obtain ⟨a', ha', hn', hd'⟩ := hp.symbol _ a ha
    exact ⟨a', ha', hn'.trans hn, hd'.trans hd⟩

namespace Builds

variable {R : ScopeKind → Option ScopeId → Prop}

theorem of_table (h : σ'.table = σ.table) : Builds R σ σ' :=
  fun _ => h ▸ .refl

theorem refl (σ : State) : Builds R σ σ :=
  of_table rfl

theorem trans (h : Builds R σ σ₁) (h' : Persists σ.table σ₁.table → Builds R σ₁ σ') :
    Builds R σ σ' := by
  intro ht
  obtain ⟨ht₁, hp⟩ := (h ht).keeps ht
  exact (h ht).trans (h' hp ht₁)

theorem note (hs : σ'.table.scopes = σ.table.scopes) (hx : σ'.table.symbols = σ.table.symbols) :
    Builds R σ σ' :=
  fun _ => .single ⟨.note hs hx, opening_of_size (congrArg Array.size hs)⟩

theorem annotate (h : Annotates ids σ σ') : Builds R σ σ' :=
  note h.scopes h.symbols

theorem define (s : ScopeId) (hτ : symbol.asType? = none) (σ : State) :
    Builds R σ (Resolve.define s symbol σ).2 := by
  by_cases h : σ.table.accepts s symbol = true
  case neg =>
    rw [define_of_not_accepts h]
    exact refl σ
  case pos =>
    rw [define_of_accepts h]
    exact fun _ => .addSymbol σ.table s fun τ hτ' => by cases hτ.symm.trans hτ'

theorem defineVariable (d : VariableDeclaration) (s : ScopeId) (slot : Option Nat) (σ : State) :
    Builds R σ (Resolve.defineVariable d s slot σ).2 := by
  have he := defineVariable_eq d s slot σ
  dsimp only at he
  rw [he]
  have hc : Annotates [] σ _ := .checkTypeName d.type.name d.position σ
  refine trans (annotate hc) fun _ => ?_
  generalize (checkTypeName d.type.name d.position σ).2 = σ₁
  let σ₂ : State := (modifyTable (·.bindScope d.id s) σ₁).2
  have hb : Builds R σ₁ σ₂ := note rfl rfl
  have hd : Builds R σ₂ (Resolve.define s (d.symbol slot) σ₂).2 := define s rfl σ₂
  split
  case isTrue  => exact trans hb fun _ => trans hd fun _ => of_table rfl
  case isFalse => exact trans hb fun _ => hd

theorem slotOf (number : Nat) (use : SlotUse) (p : Position) (σ : State) :
    Builds R σ (Resolve.slotOf number use p σ).2 := by
  unfold Resolve.slotOf
  split
  case isTrue  => exact refl σ
  case isFalse =>
    rw [run_bind, run_get]
    split
    case isTrue  => exact refl σ
    case isFalse => exact of_table rfl

theorem declareLocal (place : Place) (d : VariableDeclaration) (σ : State) :
    Builds R σ (Resolve.declareLocal place d σ).2 := by
  rw [declareLocal_eq]
  refine trans (slotOf σ.nextLocal .locals d.position σ) fun _ => ?_
  have hd := defineVariable (R := R) d place.scope
    (Resolve.slotOf σ.nextLocal .locals d.position σ).1
    (Resolve.slotOf σ.nextLocal .locals d.position σ).2
  split
  case isTrue  => exact trans hd fun _ => of_table rfl
  case isFalse => exact hd

end Builds

-- A block stands in the scope `q` of the body, or in a block of the body, which are numbered from
-- `n` on.
def Nested (n : Nat) (q : ScopeId) (kind : ScopeKind) (parent : Option ScopeId) : Prop :=
  kind = .ofBlock ∧ ∃ i, parent = some i ∧ (i = q ∨ n ≤ i)

namespace Builds

section

variable {n : Nat} {q : ScopeId}

mutual

theorem statement (place : Place) (s : Statement) (σ : State) (hp : InBody σ.table place.scope)
    (hi : place.scope = q ∨ n ≤ place.scope) (hn : n ≤ σ.table.scopes.size) :
    Builds (Nested n q) σ (Resolve.statement place s σ).2 := by
  have he (e : Expression) (σ : State) : Builds (Nested n q) σ (Resolve.expression place e σ).2 :=
    annotate (.expression place e σ)
  match s with
  | .declare d => exact declareLocal place d σ
  | .print i e p | .ret i e p | .assert i e p =>
    rw [Resolve.statement]
    exact he e σ
  | .block i body p =>
    rw [Resolve.statement]
    let σ₁ : State := (addScope .ofBlock place.scope none σ).2
    let σ₂ : State := (modifyTable (·.bindScope i σ.table.scopes.size) σ₁).2
    have h₁ : Builds (Nested n q) σ σ₁ := fun _ => by
      obtain ⟨b, hb, hk⟩ := hp
      exact .single ⟨.openBlock hb hk, opening_addScope ⟨rfl, _, rfl, hi⟩⟩
    have h₂ : Builds (Nested n q) σ₁ σ₂ := note rfl rfl
    have hb : InBody σ₂.table σ.table.scopes.size := by
      refine ⟨_, (SymbolTable.scope?_addScope ..).trans (if_pos rfl), .inr rfl⟩
    have hn₂ : n ≤ σ₂.table.scopes.size :=
      Nat.le_trans hn (Nat.le_trans (Nat.le_succ _) (Nat.le_of_eq (Array.size_push _).symm))
    exact trans h₁ fun _ => trans h₂ fun _ =>
      statements ⟨σ.table.scopes.size, place.inMain⟩ body σ₂ hb (.inr hn) hn₂
  | .assign i target value p =>
    rw [Resolve.statement]
    have hv (σ : State) : Builds (Nested n q) σ
        (Resolve.expression place value (Resolve.expression place target σ).2).2 :=
      trans (he target σ) fun _ => he value _
    split
    case isTrue  => exact hv σ
    case isFalse =>
      have hr : Builds (Nested n q) σ (report (.cannotAssign target.form) target.position σ).2 :=
        of_table rfl
      exact trans hr fun _ => hv _
  | .ifThen i e onTrue p =>
    rw [Resolve.statement]
    exact trans (he e σ) fun hps =>
      statement place onTrue _ (hp.persist hps) hi (Nat.le_trans hn (size_le_of_persists hps))
  | .ifThenElse i e onTrue onFalse p =>
    rw [Resolve.statement]
    refine trans (he e σ) fun hps => ?_
    have hp := hp.persist hps
    have hn := Nat.le_trans hn (size_le_of_persists hps)
    exact trans (statement place onTrue _ hp hi hn) fun hps =>
      statement place onFalse _ (hp.persist hps) hi (Nat.le_trans hn (size_le_of_persists hps))
  | .loop i e body p =>
    rw [Resolve.statement]
    exact trans (he e σ) fun hps =>
      statement place body _ (hp.persist hps) hi (Nat.le_trans hn (size_le_of_persists hps))
  | .call i receiver name arguments p =>
    rw [Resolve.statement]
    exact he (.call i receiver name arguments p) σ
  | .malformed _ => exact refl σ

theorem statements (place : Place) (ss : List Statement) (σ : State)
    (hp : InBody σ.table place.scope) (hi : place.scope = q ∨ n ≤ place.scope)
    (hn : n ≤ σ.table.scopes.size) :
    Builds (Nested n q) σ (Resolve.statements place ss σ).2 := by
  match ss with
  | []      => exact refl σ
  | s :: ss =>
    exact trans (statement place s σ hp hi hn) fun hps =>
      statements place ss _ (hp.persist hps) hi (Nat.le_trans hn (size_le_of_persists hps))

end

end

theorem parameters (s : ScopeId) (number : Nat) (ds : List VariableDeclaration) (σ : State) :
    Builds R σ (Resolve.parameters s number ds σ).2 := by
  induction ds generalizing number σ with
  | nil          => exact refl σ
  | cons d ds hi =>
    rw [Resolve.parameters]
    refine trans (slotOf number .parameters d.position σ) fun _ => ?_
    exact trans (defineVariable d s (Resolve.slotOf number .parameters d.position σ).1 _) fun _ =>
      hi _ _

theorem methodBody (b : MethodBody) (σ : State) (hb : InBody σ.table b.scope) :
    Builds (Nested σ.table.scopes.size b.scope) σ (Resolve.methodBody b σ).2 := by
  let σ₁ : State := { σ with nextLocal := 0, slotsReported := false }
  have h₁ : Builds (Nested σ.table.scopes.size b.scope) σ σ₁ := of_table rfl
  refine trans h₁ fun _ => trans (parameters b.scope 1 b.parameters σ₁) fun hps => ?_
  exact statements ⟨b.scope, b.isMain⟩ b.statements _ (hb.persist hps) (.inl rfl)
    (size_le_of_persists hps)

end Builds

end MiniJava.Resolve
