import MiniJava.Proofs.Emit.Balance
import MiniJava.Proofs.Semantics.Agreement

namespace MiniJava

open Typing Machine MiniJava.Computation
open Emit (Value Values variableAt slotOf)
open Resolve (HasSlot)

variable {V W X : Type} {t : SymbolTable} {b : Body} {Γ : Typing.Context}

-- All variables around an expression are fields or belong to the body.
def Covers (b : Body) (Γ : Typing.Context) : Prop :=
  ∀ F ∈ Γ.frames, ∀ d ∈ F, d.storage = .field ∨ d ∈ b.variables

theorem Covers.push (h : Covers b Γ) (hF : ∀ d ∈ F, d ∈ b.variables) : Covers b (Γ.push F) :=
  List.forall_mem_cons.mpr ⟨fun d hd => .inr (hF d hd), h⟩

-- What is known of the variable that a node refers to.
structure Refers (t : SymbolTable) (b : Body) (i : NodeId) (s : SymbolId) (v : VariableSymbol)
    (d : VariableDeclaration) : Prop where
  referenced : t.referenced? i = some s
  symbol     : t.symbol? s = some (d.symbol v.slot)
  storage    : v.storage = d.storage
  declared   : d.storage = .field ∨ d ∈ b.variables

theorem refers (hc : Covers b Γ) (hd : Γ.lookup? name = some d) (hr : t.notes.refersTo i d)
    (hv : variableAt (.sequential t) i = .ok (s, v)) : Refers t b i s v d := by
  obtain ⟨s', hs', slot, hx⟩ := hr
  have hv' : variableAt (.sequential t) i =
      .ok (s', ⟨Resolve.staticType d.type, d.storage, slot⟩) := by
    simp [variableAt, Emit.Context.sequential, hs', hx, VariableDeclaration.symbol,
      Symbol.asVariable?]
  obtain ⟨rfl, rfl⟩ := Prod.mk.inj (Except.ok.inj (hv.symm.trans hv'))
  obtain ⟨_, F, hF, hdF⟩ := Context.mem_of_lookup? hd
  exact ⟨hs', hx, rfl, hc F hF d hdF⟩

namespace Refers

theorem place?_field (h : Refers t b i s v d) (hd : v.storage = .field)
    (hf : (Environment.sequential t).fieldHandle s = .ok f) :
    (Emit.Context.sequential t).place? i = some (.field f) := by
  rw [h.storage] at hd
  simp [Emit.Context.place?, Emit.Context.sequential, h.referenced, h.symbol,
    VariableDeclaration.symbol, Symbol.asVariable?, hd, hf, Except.toOption]

theorem place?_memory (h : Refers t b i s v d) (hd : v.storage ≠ .field) :
    (Emit.Context.sequential t).place? i = some (.memory d.id) := by
  rw [h.storage] at hd
  simp [Emit.Context.place?, Emit.Context.sequential, h.referenced, h.symbol,
    VariableDeclaration.symbol, Symbol.asVariable?]
  cases hs : d.storage <;> simp_all

theorem hasSlot (h : Refers t b i s v d) (hk : slotOf v = .ok k) : HasSlot t d (some k) :=
  ⟨s, by rw [h.symbol, Emit.orMissing_eq_ok.mp hk]⟩

theorem mem_parameters (h : Refers t b i s v d) (hs : Slotted t b) (hd : v.storage = .formal) :
    d ∈ b.parameters := by
  rw [h.storage] at hd
  exact hs.mem_parameters (h.declared.resolve_left (by simp [hd])) hd

theorem mem_locals (h : Refers t b i s v d) (hs : Slotted t b) (hd : v.storage = .localSlot) :
    d ∈ Statement.localsOf b.statements := by
  rw [h.storage] at hd
  exact hs.mem_locals (h.declared.resolve_left (by simp [hd])) hd

end Refers

-- The kind of the elements, by the type of the array and by the generator.
theorem Emit.Context.elementKind?_eq_some {g : Emit.Context} {e : Expression} :
    g.elementKind? e = some k ↔ Emit.elementKind g e = .ok k := by
  simp only [Emit.elementKind_eq_ok, elementKind?, Option.bind_eq_bind, Option.bind_eq_some_iff]
  constructor
  case mp =>
    rintro ⟨i, hi, τ, ht, hk⟩
    cases τ with
    | array τ => cases τ <;> exact ⟨i, _, hi, ht, Option.some.inj hk⟩
    | _       => cases hk
  case mpr =>
    rintro ⟨i, τ, hi, ht, rfl⟩
    exact ⟨i, hi, _, ht, by cases τ <;> rfl⟩

section

variable {r : Runtime (.sequential t) V W X} {object : V} {σ : Memory V} {f : Registers V}

-- There are as many values as expressions.
theorem evaluateAll_congr {k k' : List V → Computation W X β}
    (h : ∀ vs, vs.length = es.length → k vs = k' vs) :
    r.evaluateAll object σ es >>= k = r.evaluateAll object σ es >>= k' := by
  induction es generalizing k k' with
  | nil          => simpa [Runtime.evaluateAll] using h [] rfl
  | cons e es hi =>
    simp only [Runtime.evaluateAll, bind_assoc, pure_bind]
    congr 1
    funext v
    exact hi fun vs hvs => h (v :: vs) (congrArg (· + 1) hvs)

theorem send_eq (hs : t.referenced? i = some s)
    (hh : (Environment.sequential t).methodHandle s = .ok h) (x : V) (xs : List V) :
    r.send i x xs = perform (r.call h x xs) := by
  simp [Runtime.send, Emit.Context.sequential, hs, hh, required, Except.toOption]

-- The code of a call leaves what the method gives, if anything.
theorem execute_call (h : Emit.CallCode (.sequential t) Γ i receiver name arguments p τ is)
    (hr : ∀ {is τ}, Value (.sequential t) receiver is → HasType t.notes Γ receiver τ → ∀ st,
      execute r is (f, st) = r.evaluate object σ receiver >>= fun v => pure (f, v :: st))
    (ha : ∀ {is}, Values (.sequential t) arguments is → HaveTypes t.notes Γ arguments → ∀ st,
      execute r is (f, st) =
        r.evaluateAll object σ arguments >>= fun vs => pure (f, vs.reverse ++ st)) (st : List V) :
    execute r is (f, st) = (do
      let x ← r.evaluate object σ receiver
      if name = "length" then
        return (f, (← perform (r.arrayLength x)) :: st)
      else
        let xs ← r.evaluateAll object σ arguments
        return (f, (← r.send i x xs).toList ++ st)) := by
  cases h with
  | length hn hv hv' => simp [hr hv hv', hn, operate]
  | method hn hv hv' hvs hvs' hs hh hm hl =>
    have hcallee := Emit.Context.callee?_sequential hh hm
    simp only [execute_append, hr hv hv', ha hvs hvs', bind_assoc, pure_bind, hn, if_false]
    congr 1
    funext x
    refine evaluateAll_congr fun xs hxs => ?_
    simp [operate_call hcallee (hl.trans hxs.symm), send_eq (t := t) hs hh]

mutual

theorem execute_value (hs : Slotted t b) (hc : Covers b Γ) (ha : Agrees t b object σ f)
    (h : Value (.sequential t) e is) (ht : HasType t.notes Γ e τ) (hv : e.valued t)
    (st : List V) :
    execute r is (f, st) = r.evaluate object σ e >>= fun v => pure (f, v :: st) := by
  match e with
  | .call i receiver name arguments p =>
    simp only [Expression.valued, Bool.and_eq_true, Bool.not_eq_true'] at hv
    have hcall := Emit.callCode h ht
    rw [execute_call hcall (execute_value hs hc ha · · hv.1.2) (execute_values hs hc ha · · hv.2)]
    have hne := hcall.ne_void hv.1.1
    cases hcall with
    | length hn _ _ => simp [Runtime.evaluate, hn]
    | method hn _ _ _ _ hs hh hm _ =>
      have hcallee := Emit.Context.callee?_sequential hh hm
      simp only [Runtime.evaluate, hn, if_false, bind_assoc, send_eq (t := t) hs hh]
      congr 1
      funext x
      congr 1
      funext xs
      refine call_bind_congr r hcallee fun v hv => ?_
      obtain ⟨v, rfl⟩ := Option.isSome_iff_exists.mp (hv.mpr hne)
      rfl
  | .newObject i name p =>
    cases h with | newObject hn hk =>
    simp [operate, Runtime.evaluate, hn, hk, required, Except.toOption]
  | .newArray i name size p =>
    cases h with | newArray hn hz =>
    cases ht with | newArray hz' =>
    simp [operate, Runtime.evaluate, execute_value hs hc ha hz hz' hv, hn, required,
      Except.toOption]
  | .not i operand p =>
    cases h with | not he =>
    cases ht with | not he' =>
    simp [operate, operate.apply, Runtime.evaluate, execute_value hs hc ha he he' hv]
  | .binary i op left right p =>
    simp only [Expression.valued, Bool.and_eq_true] at hv
    cases h with | binary hl hr =>
    cases ht with
    | arithmetic hl' hr' | logical hl' hr' =>
      simp [operate.apply, Runtime.evaluate, execute_value hs hc ha hl hl' hv.1,
        execute_value hs hc ha hr hr' hv.2]
  | .boolean i value p =>
    cases h with | boolean => simp [operate, Runtime.evaluate]
  | .integer i value p =>
    cases h with | integer => simp [operate, Runtime.evaluate]
  | .self i p =>
    cases h with | self => simp [operate, Runtime.evaluate, ha.object]
  | .index i array subscript p =>
    simp only [Expression.valued, Bool.and_eq_true] at hv
    cases h with | index hx hk hn =>
    cases ht with | index hx' hk' =>
    simp [operate, Runtime.evaluate, execute_value hs hc ha hx hx' hv.1,
      execute_value hs hc ha hk hk' hv.2, Emit.Context.elementKind?_eq_some.mpr hn, required]
  | .reference i name p =>
    cases ht with | reference hd hr _ =>
    cases h with
    | field hv hf hh =>
      have hr := refers hc hd hr hv
      simp [operate, Runtime.evaluate, hr.place?_field hf hh, required, ha.object]
    | formal hv hf hk =>
      have hr := refers hc hd hr hv
      simp [operate, Runtime.evaluate, hr.place?_memory (by simp [hf]), required,
        ha.formals _ (hr.mem_parameters hs hf) _ (hr.hasSlot hk)]
    | localSlot hv hf hk =>
      have hr := refers hc hd hr hv
      simp [operate, Runtime.evaluate, hr.place?_memory (by simp [hf]), required,
        ha.locals _ (hr.mem_locals hs hf) _ (hr.hasSlot hk)]

theorem execute_values (hs : Slotted t b) (hc : Covers b Γ) (ha : Agrees t b object σ f)
    (h : Values (.sequential t) es is) (ht : HaveTypes t.notes Γ es)
    (hv : Expression.allValued t es) (st : List V) :
    execute r is (f, st) =
      r.evaluateAll object σ es >>= fun vs => pure (f, vs.reverse ++ st) := by
  match es with
  | []      =>
    cases h with | nil => simp [Runtime.evaluateAll]
  | e :: es =>
    simp only [Expression.allValued, Bool.and_eq_true] at hv
    cases h with | cons he hes =>
    cases ht with | cons he' hes' =>
    simp [Runtime.evaluateAll, execute_value hs hc ha he he' hv.1,
      execute_values hs hc ha hes hes' hv.2]

end

end

end MiniJava
