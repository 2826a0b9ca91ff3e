import Mathlib.Data.List.Nodup
import MiniJava.Proofs.Emit.Layout

namespace MiniJava

theorem Statement.mem_nodeIds {s : Statement} (h : s.id? = some i) : i ∈ s.nodeIds := by
  cases s <;> simp_all [id?, nodeIds]

namespace Emit

namespace Draft

-- No label waits for a statement.
theorem reach_of_fresh {d : Draft} (h : ∀ i ∈ s.nodeIds, i ∉ d.pending) : d.reach s = d := by
  unfold reach
  split
  case h_1 i hi => rw [Std.ExtTreeMap.getElem?_eq_none (h i (Statement.mem_nodeIds hi))]
  case h_2      => rfl

theorem reach_insert (hi : s.id? = some i) (hw : i ∉ w) :
    (⟨c, w.insert i l⟩ : Draft).reach s = ⟨c.mark l, w⟩ := by
  have he : (w.insert i l).erase i = w := by
    ext j
    grind
  simp [reach, hi, mark, he]

end Draft

@[simp]
theorem reach_eq_ok {a : Unit} : reach s d = .ok (a, d') ↔ d.reach s = d' := by
  simp [reach]

@[simp]
theorem mark_eq_ok {a : Unit} : mark l d = .ok (a, d') ↔ d.mark l = d' := by
  simp [mark]

@[simp]
theorem defineLabel_eq_ok :
    defineLabel d = .ok (l, d') ↔ d.defineLabel.1 = l ∧ d.defineLabel.2 = d' := by
  show Except.ok d.defineLabel = _ ↔ _
  simp [Prod.ext_iff]

@[simp]
theorem labelFor_eq_ok : labelFor s d = .ok (l, d') ↔
    ∃ i, s.id? = some i ∧ d.defineLabel.1 = l ∧ d.defineLabel.2.await i d.defineLabel.1 = d' := by
  simp only [labelFor]
  simp [and_assoc]
  grind

theorem Code.exists_id (h : Code g s n l is ts) : ∃ i, s.id? = some i := by
  cases h <;> exact ⟨_, rfl⟩

section

variable {c : Chunk} {w : Std.ExtTreeMap NodeId Label}

@[simp]
theorem Draft.append_mk : (⟨c, w⟩ : Draft).append is = ⟨c.extend is [], w⟩ := rfl

@[simp]
theorem Draft.defineLabel_mk :
    (⟨c, w⟩ : Draft).defineLabel = (c.defineLabel.1, ⟨c.defineLabel.2, w⟩) := rfl

@[simp]
theorem Draft.mark_mk : (⟨c, w⟩ : Draft).mark l = ⟨c.mark l, w⟩ := rfl

@[simp]
theorem Draft.await_mk : (⟨c, w⟩ : Draft).await i l = ⟨c, w.insert i l⟩ := rfl

end

-- The generator gives the code of the statement, and no label that it defines waits any longer.
def Lays (g : Context) (s : Statement) (d : Draft) (c : Chunk) (w : Std.ExtTreeMap NodeId Label) :
    Prop :=
  ∀ (a : Unit) d', statement g s d = .ok (a, d') ↔
    ∃ is ts, Code g s c.instructions.size c.labels.size is ts ∧ ⟨c.extend is ts, w⟩ = d'

section

variable {d : Draft} {c : Chunk} {w : Std.ExtTreeMap NodeId Label} {condition : Expression}
  {body : Statement}

theorem lays_declare (hr : d.reach (.declare v) = ⟨c, w⟩) : Lays g (.declare v) d c w := by
  intro a d'
  simp only [statement]
  simp [hr]
  constructor
  case mp  => exact fun h => ⟨_, _, .declare, by simpa using h⟩
  case mpr =>
    rintro ⟨_, _, h, rfl⟩
    cases h with | declare => simp

-- The value of an expression, and an opcode that uses it up.
theorem lays_of_value (hr : d.reach s = ⟨c, w⟩)
    (hs : statement g s = do reach s; expression g e; emit o p)
    (hc : ∀ n l is ts, Code g s n l is ts ↔
      ∃ js, Value g e js ∧ is = js ++ [⟨o, some p⟩] ∧ ts = []) :
    Lays g s d c w := by
  intro a d'
  simp [hs, hc, hr, expression_eq_ok, and_assoc]

theorem lays_print (hr : d.reach (.print i e p) = ⟨c, w⟩) : Lays g (.print i e p) d c w := by
  refine lays_of_value (e := e) (o := .callPrintInt) (p := p) hr (by simp only [statement])
    fun n l is ts => ⟨fun h => ?layout, ?code⟩
  case layout => cases h with | print he => exact ⟨_, he, rfl, rfl⟩
  case code   => rintro ⟨_, he, rfl, rfl⟩; exact .print he

theorem lays_ret (hr : d.reach (.ret i e p) = ⟨c, w⟩) : Lays g (.ret i e p) d c w := by
  refine lays_of_value (e := e) (o := .ret) (p := p) hr (by simp only [statement])
    fun n l is ts => ⟨fun h => ?layout, ?code⟩
  case layout => cases h with | ret he => exact ⟨_, he, rfl, rfl⟩
  case code   => rintro ⟨_, he, rfl, rfl⟩; exact .ret he

theorem lays_assert (hr : d.reach (.assert i e p) = ⟨c, w⟩) : Lays g (.assert i e p) d c w := by
  refine lays_of_value (e := e) (o := .callAssert) (p := p) hr (by simp only [statement])
    fun n l is ts => ⟨fun h => ?layout, ?code⟩
  case layout => cases h with | assert he => exact ⟨_, he, rfl, rfl⟩
  case code   => rintro ⟨_, he, rfl, rfl⟩; exact .assert he

theorem lays_block (hr : d.reach (.block i ss p) = ⟨c, w⟩)
    (hss : ∀ (a : Unit) d', statements g ss ⟨c, w⟩ = .ok (a, d') ↔
      ∃ is ts, CodeAll g ss c.instructions.size c.labels.size is ts ∧ ⟨c.extend is ts, w⟩ = d') :
    Lays g (.block i ss p) d c w := by
  intro a d'
  simp only [statement]
  simp [hr, hss]
  constructor
  case mp =>
    rintro ⟨is, ts, h, hd⟩
    exact ⟨_, _, .block h, hd⟩
  case mpr =>
    rintro ⟨_, _, h, rfl⟩
    cases h with | block h => exact ⟨_, _, h, rfl⟩

theorem lays_assign (hr : d.reach (.assign i target value p) = ⟨c, w⟩) :
    Lays g (.assign i target value p) d c w := by
  intro a d'
  simp only [statement]
  simp [hr, expression_eq_ok, address_eq_ok, store_eq_ok]
  constructor
  case mp =>
    rintro ⟨is, ht, js, hv, o, hs, h⟩
    exact ⟨_, _, .assign ht hv hs, by simpa using h⟩
  case mpr =>
    rintro ⟨_, _, h, rfl⟩
    cases h with | assign ht hv hs => exact ⟨_, ht, _, hv, _, hs, by simp⟩

theorem lays_ifThen (hr : d.reach (.ifThen i condition onTrue p) = ⟨c, w⟩)
    (ht : ∀ c, Lays g onTrue ⟨c, w⟩ c w) : Lays g (.ifThen i condition onTrue p) d c w := by
  intro a d'
  simp only [statement]
  simp [hr, ht _ _ _, expression_eq_ok, and_assoc]
  constructor
  case mp =>
    rintro ⟨is, hc, js, ts, ht, rfl⟩
    exact ⟨_, _, .ifThen hc ht, by simp +arith⟩
  case mpr =>
    rintro ⟨_, _, h, rfl⟩
    cases h with | ifThen hc ht => exact ⟨_, hc, _, _, ht, by simp +arith⟩

-- The label of the second branch waits while the first one is laid out.
theorem lays_ifThenElse (hr : d.reach (.ifThenElse i condition onTrue onFalse p) = ⟨c, w⟩)
    (ht : ∀ c j l, onFalse.id? = some j → Lays g onTrue ⟨c, w.insert j l⟩ c (w.insert j l))
    (hf : ∀ c j l, onFalse.id? = some j → Lays g onFalse ⟨c, w.insert j l⟩ (c.mark l) w) :
    Lays g (.ifThenElse i condition onTrue onFalse p) d c w := by
  intro a d'
  simp only [statement]
  simp [hr, expression_eq_ok, and_assoc]
  constructor
  case mp =>
    rintro ⟨is, hc, j, hj, _, _, h, _, _, h', rfl⟩
    obtain ⟨js, ts, hjs, rfl⟩ := (ht _ _ _ hj _ _).mp h
    obtain ⟨ks, us, hks, rfl⟩ := (hf _ _ _ hj _ _).mp h'
    simp +arith at hjs hks
    exact ⟨_, _, .ifThenElse hc hjs hks, by simp +arith⟩
  case mpr =>
    rintro ⟨_, _, h, rfl⟩
    cases h with | ifThenElse hc hjs hks =>
    rename_i is js ts ks us
    obtain ⟨j, hj⟩ := hks.exists_id
    refine ⟨is, hc, j, hj, (), _, (ht _ _ _ hj _ _).mpr ⟨js, ts, ?onTrue, rfl⟩, (), _,
      (hf _ _ _ hj _ _).mpr ⟨ks, us, ?onFalse, rfl⟩, ?chunk⟩
    case onTrue  => simpa +arith using hjs
    case onFalse => simpa +arith using hks
    case chunk   => simp +arith

theorem lays_loop (hr : d.reach (.loop i condition body p) = ⟨c, w⟩)
    (hb : ∀ c j l, body.id? = some j → Lays g body ⟨c, w.insert j l⟩ (c.mark l) w) :
    Lays g (.loop i condition body p) d c w := by
  intro a d'
  simp only [statement]
  simp [hr, expression_eq_ok, and_assoc]
  constructor
  case mp =>
    rintro ⟨j, hj, _, _, h, js, hc, rfl⟩
    obtain ⟨is, ts, hs, rfl⟩ := (hb _ _ _ hj _ _).mp h
    simp at hs
    exact ⟨_, _, .loop hs hc, by simp +arith⟩
  case mpr =>
    rintro ⟨_, _, h, rfl⟩
    cases h with | loop hs hc =>
    rename_i is ts js
    obtain ⟨j, hj⟩ := hs.exists_id
    refine ⟨j, hj, (), _, (hb _ _ _ hj _ _).mpr ⟨is, ts, ?body, rfl⟩, js, hc, ?chunk⟩
    case body  => simpa using hs
    case chunk => simp +arith

-- What a call gives is dropped, if it gives anything.
theorem lays_call (hr : d.reach (.call i receiver name arguments p) = ⟨c, w⟩) :
    Lays g (.call i receiver name arguments p) d c w := by
  intro a d'
  simp only [statement]
  simp [hr, expression_eq_ok, and_assoc]
  constructor
  case mp =>
    rintro ⟨is, hc, τ, ht, h⟩
    by_cases hτ : τ = .void <;> simp [hτ] at h
    case pos => exact ⟨_, _, .call hc (hτ ▸ ht), h⟩
    case neg => exact ⟨_, _, .drop hc ht hτ, h⟩
  case mpr =>
    rintro ⟨_, _, h, rfl⟩
    cases h with
    | drop hc ht hτ => exact ⟨_, hc, _, ht, by simp [hτ]⟩
    | call hc ht    => exact ⟨_, hc, _, ht, by simp⟩

theorem lays_malformed : Lays g (.malformed p) d c w := by
  intro a d'
  rw [statement_malformed]
  constructor
  case mp  => exact nofun
  case mpr => exact nofun

end

mutual

-- The numbers inside of a statement are its own, so what waits is not touched by it.
theorem lays_statement (hn : s.nodeIds.Nodup) (hw : ∀ i ∈ s.nodeIds, i ∉ w)
    (hr : d.reach s = ⟨c, w⟩) : Lays g s d c w := by
  match s with
  | .declare _      => exact lays_declare hr
  | .print ..       => exact lays_print hr
  | .ret ..         => exact lays_ret hr
  | .assert ..      => exact lays_assert hr
  | .assign ..      => exact lays_assign hr
  | .call ..        => exact lays_call hr
  | .malformed _    => exact lays_malformed
  | .block i ss p   =>
    exact lays_block hr fun _ _ =>
      statements_eq_ok hn.of_append_left fun i hi => hw i (List.mem_append_left _ hi)
  | .ifThen i e onTrue p =>
    have hwt : ∀ j ∈ onTrue.nodeIds, j ∉ w := fun j hj => hw j (by simp [Statement.nodeIds, hj])
    exact lays_ifThen hr fun c =>
      lays_statement hn.of_append_left.of_append_right hwt (Draft.reach_of_fresh hwt)
  | .ifThenElse i e onTrue onFalse p =>
    have hn := hn.of_append_left
    have hd := (List.nodup_append'.mp hn).2.2
    have hwt : ∀ j ∈ onTrue.nodeIds, j ∉ w := fun j hj => hw j (by simp [Statement.nodeIds, hj])
    have hwf : ∀ j ∈ onFalse.nodeIds, j ∉ w := fun j hj => hw j (by simp [Statement.nodeIds, hj])
    have hwi {j l} (hj : onFalse.id? = some j) : ∀ k ∈ onTrue.nodeIds, k ∉ w.insert j l := by
      intro k hk
      have hjk : k ≠ j := fun he =>
        hd (List.mem_append_right _ hk) (he ▸ Statement.mem_nodeIds hj)
      grind
    refine lays_ifThenElse hr (fun c j l hj => ?onTrue) (fun c j l hj => ?onFalse)
    case onTrue  =>
      exact lays_statement hn.of_append_left.of_append_right (hwi hj)
        (Draft.reach_of_fresh (hwi hj))
    case onFalse =>
      exact lays_statement hn.of_append_right hwf
        (Draft.reach_insert hj (hwf j (Statement.mem_nodeIds hj)))
  | .loop i e body p =>
    have hwb : ∀ j ∈ body.nodeIds, j ∉ w := fun j hj => hw j (by simp [Statement.nodeIds, hj])
    exact lays_loop hr fun c j l hj =>
      lays_statement hn.of_append_left.of_append_right hwb
        (Draft.reach_insert hj (hwb j (Statement.mem_nodeIds hj)))

theorem statements_eq_ok {a : Unit} (hn : (Statement.nodeIdsOf ss).Nodup)
    (hw : ∀ i ∈ Statement.nodeIdsOf ss, i ∉ w) :
    statements g ss ⟨c, w⟩ = .ok (a, d') ↔
      ∃ is ts, CodeAll g ss c.instructions.size c.labels.size is ts ∧ ⟨c.extend is ts, w⟩ = d' := by
  match ss with
  | [] =>
    simp only [statements]
    simp
    constructor
    case mp  => exact fun h => ⟨_, _, .nil, by simpa using h⟩
    case mpr =>
      rintro ⟨_, _, h, rfl⟩
      cases h with | nil => simp
  | s :: ss =>
    have hws : ∀ i ∈ s.nodeIds, i ∉ w := fun i hi => hw i (List.mem_append_left _ hi)
    have hs : Lays g s ⟨c, w⟩ c w := lays_statement hn.of_append_left hws (Draft.reach_of_fresh hws)
    have hss {c : Chunk} {d' a} : statements g ss ⟨c, w⟩ = .ok (a, d') ↔ _ :=
      statements_eq_ok hn.of_append_right fun i hi => hw i (List.mem_append_right _ hi)
    simp only [statements]
    simp [hs _ _, hss]
    constructor
    case mp =>
      rintro ⟨is, ts, hs, js, us, hss, h⟩
      exact ⟨_, _, .cons hs hss, h⟩
    case mpr =>
      rintro ⟨_, _, h, rfl⟩
      cases h with | cons hs hss => exact ⟨_, _, hs, _, _, hss, rfl⟩

end

end Emit

end MiniJava
