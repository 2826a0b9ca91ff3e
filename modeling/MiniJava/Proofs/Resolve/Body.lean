import MiniJava.Proofs.Resolve.Classes
import MiniJava.Proofs.Resolve.Statement

namespace MiniJava.Resolve

open Typing

-- Formals that can be declared after those in `F`.
structure Formals (p : Program) (F : Frame) (ds : List VariableDeclaration) : Prop where
  distinct : (ds.map (·.name)).Nodup
  free     : ∀ d ∈ ds, ∀ d' ∈ F, d'.name ≠ d.name
  known    : ∀ d ∈ ds, Known p d.type.name

theorem formals_cons :
    Formals p F (d :: ds) ↔
      (∀ d' ∈ F, d'.name ≠ d.name) ∧ Known p d.type.name ∧ Formals p (d :: F) ds := by
  constructor
  case mp =>
    intro ⟨hn, hf, hk⟩
    obtain ⟨hd, hn⟩ := List.nodup_cons.mp hn
    obtain ⟨hfd, hf⟩ := List.forall_mem_cons.mp hf
    obtain ⟨hkd, hk⟩ := List.forall_mem_cons.mp hk
    refine ⟨hfd, hkd, hn, fun d' hd' => List.forall_mem_cons.mpr ⟨fun he => ?_, hf d' hd'⟩, hk⟩
    exact hd (List.mem_map.mpr ⟨d', hd', he.symm⟩)
  case mpr =>
    intro ⟨hfd, hkd, hn, hf, hk⟩
    refine ⟨List.nodup_cons.mpr ⟨fun hm => ?fresh, hn⟩,
      List.forall_mem_cons.mpr ⟨hfd, fun d' hd' => ?free⟩,
      List.forall_mem_cons.mpr ⟨hkd, hk⟩⟩
    case fresh =>
      obtain ⟨d', hd', he⟩ := List.mem_map.mp hm
      exact hf d' hd' d List.mem_cons_self he.symm
    case free => exact (List.forall_mem_cons.mp (hf d' hd')).2

inductive FormalsVerdict (place : Place) (Γ : Context) (F : Frame) (ds : List VariableDeclaration)
    (number : Nat) (σ σ' : State) : Prop
  | passed :
    σ'.size = σ.size → Formals Γ.program F ds → Stands σ'.table place (Γ.push (ds.reverse ++ F)) →
      σ'.slotsReported = false → σ'.nextLocal = σ.nextLocal →
      (number ≤ maxSlot + 1 → number + ds.length ≤ maxSlot + 1) → Slots σ'.table ds number →
      FormalsVerdict place Γ F ds number σ σ'
  | failed :
    (Formals Γ.program F ds → ¬number + ds.length ≤ maxSlot + 1) → σ.size < σ'.size →
      FormalsVerdict place Γ F ds number σ σ'

theorem verdict_parameters (ds : List VariableDeclaration) (hs : Stands σ.table place (Γ.push F))
    (hr : σ.slotsReported = false) :
    FormalsVerdict place Γ F ds number σ (parameters place.scope number ds σ).2 := by
  induction ds generalizing number σ F with
  | nil          =>
    exact .passed rfl ⟨.nil, nofun, nofun⟩ hs hr rfl id (slots_nil _ _)
  | cons d ds hi =>
    obtain ⟨b, hb, hh⟩ := hs.scope
    rw [parameters]
    simp only [run_bind]
    by_cases hn : number ≤ maxSlot
    case neg =>
      have hlt := lt_size_slotOf hn .parameters d.position hr
      generalize slotOf number .parameters d.position σ = slot at hlt ⊢
      have hd := (Grows.defineVariable (s := place.scope) (List.mem_singleton_self d.id) slot.1
        slot.2).adds.size_le
      have hds := (Grows.parameters place.scope (number + 1) ds
        (defineVariable d place.scope slot.1 slot.2).2).adds.size_le
      apply FormalsVerdict.failed _ (Nat.lt_of_lt_of_le hlt (Nat.le_trans hd hds))
      intro _
      rw [List.length_cons]
      omega
    case pos =>
      rw [slotOf_of_le hn]
      have hg := Grows.defineVariable (s := place.scope) (List.mem_singleton_self d.id) number σ
      have hd := defined_defineVariable hb hh d number
      dsimp only
      generalize defineVariable d place.scope (some number) σ = out at hg hd ⊢
      have hds := Grows.parameters place.scope (number + 1) ds out.2
      cases hd with
      | reported hu hlt =>
        apply FormalsVerdict.failed _ (Nat.lt_of_lt_of_le hlt hds.adds.size_le)
        intro h
        obtain ⟨hf, hk, _⟩ := formals_cons.mp h
        exact absurd hf (hu ((hs.sees.known _).mpr hk))
      | added hk hf hq hl hr' hh' hx =>
        have hk := (hs.sees.known _).mp hk
        have hks := (List.forall_mem_cons.mp hs.sees.sound.declared).1
        have hs' := hs.grow hg (List.forall_mem_cons.mpr ⟨hk, hks⟩) hh'
        cases (hi hs' (hr'.trans hr) : FormalsVerdict _ _ _ ds (number + 1) _ _) with
        | failed hu hlt =>
          apply FormalsVerdict.failed _ (hq ▸ hlt)
          intro h
          have := hu (formals_cons.mp h).2.2
          rw [List.length_cons]
          omega
        | passed hq' ha hs'' hr'' hl' hm hx' =>
          rw [List.append_cons, ← List.reverse_cons] at hs''
          refine .passed (hq'.trans hq) (formals_cons.mpr ⟨hf, hk, ha⟩) hs'' hr'' (hl'.trans hl) ?_
            (slots_cons (hds.hasSlot hx) hx')
          intro _
          rw [List.length_cons]
          omega

inductive BodyVerdict (Γ : Context) (b : MethodBody) (σ σ' : State) : Prop
  | passed :
    σ'.size = σ.size → ChecksBody σ'.table.notes Γ b.toBody → Slots σ'.table b.parameters 1 →
      Slots σ'.table (Statement.localsOf b.statements) 0 → BodyVerdict Γ b σ σ'
  | failed : ¬ChecksBody .any Γ b.toBody → σ.size < σ'.size → BodyVerdict Γ b σ σ'

theorem verdict_methodBody (b : MethodBody) (hp : Statement.ProperAll b.statements)
    (hn : (Statement.nodeIdsOf b.statements).Nodup)
    (hs : Stands σ.table ⟨b.scope, b.isMain⟩ (Γ.push [])) :
    BodyVerdict Γ b σ (methodBody b σ).2 := by
  let place : Place := ⟨b.scope, b.isMain⟩
  let σ₁ : State := { σ with nextLocal := 0, slotsReported := false }
  let σ₂ := (parameters b.scope 1 b.parameters σ₁).2
  have hg := Grows.statements place b.statements σ₂
  show BodyVerdict Γ b σ (statements place b.statements σ₂).2
  cases (verdict_parameters b.parameters hs rfl : FormalsVerdict place Γ [] _ 1 σ₁ σ₂) with
  | failed hu hlt =>
    refine .failed (fun h => ?_) (Nat.lt_of_lt_of_le hlt hg.adds.size_le)
    apply hu ⟨h.distinct, nofun, h.known⟩
    have := h.formals
    show 1 + b.toBody.parameters.length ≤ _
    omega
  | passed hq hf hs₂ hr hl hm hx =>
    rw [List.append_nil] at hs₂
    have hl : σ₂.nextLocal = 0 := hl
    cases verdict_statements b.statements hp hn hs₂ hr with
    | failed hu hlt =>
      refine .failed (fun h => ?_) (hq ▸ hlt)
      obtain ⟨F, hF⟩ := h.statements
      have hu := hu F hF
      rw [hl, Nat.zero_add] at hu
      exact hu h.locals
    | passed hq' ha _ _ hn' hm' hx' =>
      have hm := hm (by decide)
      have hm' := hm' (hl ▸ Nat.zero_le _)
      rw [hn', hl, Nat.zero_add] at hm'
      have hc : ChecksBody _ Γ b.toBody := {
        distinct   := hf.distinct
        known      := hf.known
        formals    := by
          show b.parameters.length ≤ _
          omega
        locals     := hm'
        statements := ⟨_, ha⟩ }
      exact .passed (hq'.trans hq) hc (hg.slots hx) (hl ▸ hx')

-- The scope of a method. No other method is around it.
structure Outermost (t : SymbolTable) (i : ScopeId) : Prop where
  scope : ∃ s, t.scope? i = some s ∧ s.kind = .ofMethod
  outer : ∀ l, t.Chain i l → ∀ e ∈ l, e.1 ≠ i → e.2.kind ≠ .ofMethod

namespace Outermost

theorem ne_of_mem (h : Outermost t i) (hj : ∃ s, t.scope? j = some s ∧ s.kind = .ofMethod)
    (hij : i ≠ j) (hc : t.Chain i l) (he : e ∈ l) : e.1 ≠ j := by
  obtain ⟨s, hs, hk⟩ := hj
  intro hes
  have hv := hc.view_of_mem he
  rw [hes, hs] at hv
  exact h.outer l hc e he (hes ▸ hij.symm) (Option.some.inj hv ▸ hk)

theorem keep (h : Outermost σ.table i) (hg : Grows ids s σ σ') (hc : ∃ l, σ.table.Chain i l) :
    Outermost σ'.table i where
  scope := by
    obtain ⟨s, hs, hk⟩ := h.scope
    obtain ⟨_, hs', _⟩ := hg.scopes _ s hs
    exact ⟨_, hs', hk⟩
  outer := by
    obtain ⟨l, hc⟩ := hc
    obtain ⟨l', hc', hl⟩ := hg.chain hc
    intro l'' hc'' e he hes
    obtain rfl := hc'.unique hc''
    obtain ⟨e₀, he₀, names, hee⟩ := exists_of_forall₂ hl he
    subst hee
    exact h.outer l hc e₀ he₀ hes

end Outermost

-- A body that is still to be resolved. No other method is around its scope.
structure Ready (t : SymbolTable) (b : MethodBody) (Γ : Context) : Prop where
  stands : Stands t ⟨b.scope, b.isMain⟩ (Γ.push [])
  scope  : ∃ s, t.scope? b.scope = some s ∧ s.kind = .ofMethod
  outer  : ∀ l, t.Chain b.scope l → ∀ e ∈ l, e.1 ≠ b.scope → e.2.kind ≠ .ofMethod

theorem Ready.keep {b b' : MethodBody} (h : Ready σ.table b Γ) (hg : Grows ids b'.scope σ σ')
    (hb' : ∃ s, σ.table.scope? b'.scope = some s ∧ s.kind = .ofMethod) (hs : b.scope ≠ b'.scope) :
    Ready σ'.table b Γ := by
  have ho : Outermost σ.table b.scope := ⟨h.scope, h.outer⟩
  obtain ⟨l, hc, _⟩ := h.stands.frames
  obtain ⟨hscope, houter⟩ := ho.keep hg ⟨l, hc⟩
  exact ⟨h.stands.keep_of_chain hg fun _ hc _ he => ho.ne_of_mem hb' hs hc he, hscope, houter⟩

def MethodBody.nodeIds (b : MethodBody) : List NodeId :=
  b.parameters.map (·.id) ++ Statement.nodeIdsOf b.statements

-- A body that passes, with the slots that its formals and locals have.
structure Passes (t : SymbolTable) (Γ : Context) (b : Body) : Prop where
  checks  : ChecksBody t.notes Γ b
  formals : Slots t b.parameters 1
  locals  : Slots t (Statement.localsOf b.statements) 0

theorem Passes.keep (h : Passes σ.table Γ b) (hg : Grows ids s σ σ')
    (hd : (Statement.nodeIdsOf b.statements).Disjoint ids) : Passes σ'.table Γ b where
  checks  := h.checks.keep (hg.keeps hd)
  formals := hg.slots h.formals
  locals  := hg.slots h.locals

theorem Adds.methodBody (b : MethodBody) (σ : State) : Adds σ (Resolve.methodBody b σ).2 :=
  (Grows.methodBody b σ).adds

theorem passes_forM (bs : List MethodBody) (h : Passes σ.table Γ b)
    (hd : (Statement.nodeIdsOf b.statements).Disjoint (bs.flatMap (·.nodeIds))) :
    Passes (bs.forM methodBody σ).2.table Γ b := by
  induction bs generalizing σ with
  | nil           => exact h
  | cons b' bs hi =>
    obtain ⟨hd, hds⟩ := List.disjoint_append_right.mp hd
    rw [run_forM_cons]
    exact hi (h.keep (Grows.methodBody b' σ) hd) hds

inductive BodiesVerdict (f : ι → MethodBody) (Γ : ι → Context) (l : List ι) (σ σ' : State) : Prop
  | passed : (∀ i ∈ l, Passes σ'.table (Γ i) (f i).toBody) → σ'.size = σ.size → BodiesVerdict f Γ l σ σ'
  | failed : (∃ i ∈ l, ¬ChecksBody .any (Γ i) (f i).toBody) → σ.size < σ'.size → BodiesVerdict f Γ l σ σ'

theorem verdict_bodies {f : ι → MethodBody} {Γ : ι → Context} (l : List ι)
    (hp : ∀ i ∈ l, Statement.ProperAll (f i).statements)
    (hn : (l.flatMap fun i => (f i).nodeIds).Nodup) (hs : (l.map fun i => (f i).scope).Nodup)
    (hr : ∀ i ∈ l, Ready σ.table (f i) (Γ i)) :
    BodiesVerdict f Γ l σ ((l.map f).forM methodBody σ).2 := by
  induction l generalizing σ with
  | nil         => exact .passed nofun rfl
  | cons i l hi =>
    obtain ⟨hpi, hp⟩ := List.forall_mem_cons.mp hp
    obtain ⟨hni, hnl, hd⟩ := List.nodup_append'.mp hn
    obtain ⟨hsi, hsl⟩ := List.nodup_cons.mp hs
    obtain ⟨hri, hrl⟩ := List.forall_mem_cons.mp hr
    have hg := Grows.methodBody (f i) σ
    have hv := verdict_methodBody (f i) hpi (List.nodup_append'.mp hni).2.1 hri.stands
    rw [List.map_cons, run_forM_cons]
    have ha := Adds.forM Adds.methodBody (l.map f) (methodBody (f i) σ).2
    cases hv with
    | failed hu hlt => exact .failed ⟨i, List.mem_cons_self, hu⟩ (Nat.lt_of_lt_of_le hlt ha.size_le)
    | passed hq hc hf hl =>
      have hr (j) (hj : j ∈ l) : Ready (methodBody (f i) σ).2.table (f j) (Γ j) :=
        (hrl j hj).keep hg hri.scope fun he => hsi (List.mem_map.mpr ⟨j, hj, he⟩)
      cases hi hp hnl hsl hr with
      | failed hu hlt =>
        obtain ⟨j, hj, hu⟩ := hu
        exact .failed ⟨j, List.mem_cons_of_mem _ hj, hu⟩ (hq ▸ hlt)
      | passed hall hq' =>
        refine .passed (List.forall_mem_cons.mpr ⟨passes_forM _ ⟨hc, hf, hl⟩ ?_, hall⟩) (hq'.trans hq)
        rw [List.flatMap_map]
        exact (List.disjoint_append_left.mp hd).2

end MiniJava.Resolve
