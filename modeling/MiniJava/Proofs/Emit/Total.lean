import MiniJava.Proofs.Emit.Method
import MiniJava.Proofs.Emit.Sequential
import MiniJava.Proofs.Resolve.Exact
import MiniJava.Proofs.Typing.Frames

namespace MiniJava.Emit

open Resolve Typing

def Context.sequential (t : SymbolTable) : Context :=
  ⟨t, .sequential t⟩

-- A variable that instructions can address.
def Addressable (t : SymbolTable) (d : VariableDeclaration) : Prop :=
  d.storage = .field ∨ ∃ k, HasSlot t d (some k)

-- What the context of a phrase has to provide so that there is code for the phrase.
structure Provides (t : SymbolTable) (Γ : Typing.Context) : Prop where
  tree     : t.Tree
  faithful : t.Faithful
  types    : ∀ name, Known Γ.program name → ∃ h, (Environment.sequential t).typeHandle name = .ok h
  frames   : ∀ F ∈ Γ.frames, ∀ d ∈ F, Addressable t d

variable {t : SymbolTable} {Γ : Typing.Context}

theorem Provides.push (h : Provides t Γ) (hF : ∀ d ∈ F, Addressable t d) : Provides t (Γ.push F) :=
  { h with frames := List.forall_mem_cons.mpr ⟨hF, h.frames⟩ }

theorem exists_typeOf? (h : HasType t.notes Γ e τ) : ∃ i, e.id? = some i ∧ t.typeOf? i = some τ := by
  cases h with
  | length _ _ ht | call _ _ _ _ _ _ ht | newObject _ ht | newArray _ _ ht | not _ ht
  | arithmetic _ _ _ ht | logical _ _ _ ht | boolean ht | integer ht | self _ ht | index _ _ ht
  | reference _ _ ht => exact ⟨_, rfl, ht⟩

theorem exists_elementKind (h : HasType t.notes Γ array (.array τ)) :
    ∃ k, elementKind (.sequential t) array = .ok k := by
  obtain ⟨i, hi, ht⟩ := exists_typeOf? h
  exact ⟨_, elementKind_eq_ok.mpr ⟨i, τ, hi, ht, rfl⟩⟩

-- Where the variable at a node is stored.
inductive Stored (g : Context) (i : NodeId) : Prop
  | field (hv : variableAt g i = .ok (s, v)) (hd : v.storage = .field)
      (hf : g.environment.fieldHandle s = .ok f)
  | formal (hv : variableAt g i = .ok (s, v)) (hd : v.storage = .formal) (hk : slotOf v = .ok slot)
  | localSlot (hv : variableAt g i = .ok (s, v)) (hd : v.storage = .localSlot)
      (hk : slotOf v = .ok slot)

theorem stored (h : Provides t Γ) (hd : Γ.lookup? name = some d) (hr : t.notes.refersTo i d) :
    Stored (.sequential t) i := by
  obtain ⟨s, hs, slot, hx⟩ := hr
  have hv : variableAt (.sequential t) i = .ok (s, ⟨Resolve.staticType d.type, d.storage, slot⟩) := by
    simp [variableAt, Context.sequential, hs, hx, VariableDeclaration.symbol, Symbol.asVariable?]
  obtain ⟨_, F, hF, hd⟩ := Context.mem_of_lookup? hd
  rcases h.frames F hF d hd with hf | ⟨k, x, hx'⟩
  case inl =>
    have hfield : (d.symbol slot).isField = true := by
      simp [Symbol.isField, VariableDeclaration.symbol, Symbol.asVariable?, hf]
    obtain ⟨f, hh⟩ := Environment.exists_fieldHandle hx hfield
    exact .field hv hf hh
  case inr =>
    -- The declaration has one symbol only, so that with the slot is the one referred to.
    have hdecl {s slot} (hx : t.symbol? s = some (d.symbol slot)) : t.declarationOf? s = some d.id := by
      rw [SymbolTable.declarationOf?, hx]
      rfl
    obtain rfl := h.faithful.unique (hdecl hx) (hdecl hx')
    obtain rfl : slot = some k := by
      have he := Option.some.inj (hx.symm.trans hx')
      simpa [VariableDeclaration.symbol] using he
    cases hst : d.storage with
    | field     =>
      have hfield : (d.symbol k).isField = true := by
        simp [Symbol.isField, VariableDeclaration.symbol, Symbol.asVariable?, hst]
      obtain ⟨f, hh⟩ := Environment.exists_fieldHandle hx hfield
      exact .field hv hst hh
    | formal    => exact .formal hv hst rfl
    | localSlot => exact .localSlot hv hst rfl

mutual

theorem exists_value (h : Provides t Γ) :
    HasType t.notes Γ e τ → e.Proper → ∃ is, Value (.sequential t) e is
  | .length hr ha ht, hp => by
    obtain ⟨is, his⟩ := exists_value h hr hp.1
    obtain ⟨j, hj, ht⟩ := exists_typeOf? hr
    exact ⟨_, .length his hj ht⟩
  | .call hr ha hn hm hl hc ht, hp => by
    obtain ⟨is, his⟩ := exists_value h hr hp.1
    obtain ⟨js, hjs⟩ := exists_values h ha hp.2.1
    obtain ⟨j, hj, ht⟩ := exists_typeOf? hr
    obtain ⟨s, hs, scope, owner, hx⟩ := hc
    obtain ⟨m, hm⟩ := Environment.exists_methodHandle hx rfl
    exact ⟨_, .call his hj ht nofun hjs hs hm⟩
  | .newObject hk ht, hp => by
    obtain ⟨handle, hh⟩ := h.types _ hk
    obtain ⟨c, hc⟩ := Environment.exists_constructor h.tree hh hp
    exact ⟨_, .newObject hh hc⟩
  | .newArray hs hk ht, hp => by
    obtain ⟨handle, hh⟩ := h.types _ hk
    obtain ⟨is, his⟩ := exists_value h hs hp
    exact ⟨_, .newArray hh his⟩
  | .not ho ht, hp => by
    obtain ⟨is, his⟩ := exists_value h ho hp
    exact ⟨_, .not his⟩
  | .arithmetic hl hr _ _, hp | .logical hl hr _ _, hp => by
    obtain ⟨is, his⟩ := exists_value h hl hp.1
    obtain ⟨js, hjs⟩ := exists_value h hr hp.2
    exact ⟨_, .binary his hjs⟩
  | .boolean _, _ => ⟨_, .boolean⟩
  | .integer _, _ => ⟨_, .integer⟩
  | .self _ _, _  => ⟨_, .self⟩
  | .index ha hs ht, hp => by
    obtain ⟨is, his⟩ := exists_value h ha hp.1
    obtain ⟨js, hjs⟩ := exists_value h hs hp.2
    obtain ⟨k, hk⟩ := exists_elementKind ha
    exact ⟨_, .index his hjs hk⟩
  | .reference hd hr _, _ => by
    cases stored h hd hr with
    | field hv hd hf     => exact ⟨_, .field hv hd hf⟩
    | formal hv hd hk    => exact ⟨_, .formal hv hd hk⟩
    | localSlot hv hd hk => exact ⟨_, .localSlot hv hd hk⟩

theorem exists_values (h : Provides t Γ) :
    HaveTypes t.notes Γ es → Expression.ProperAll es → ∃ is, Values (.sequential t) es is
  | .nil, _ => ⟨_, .nil⟩
  | .cons he hes, hp => by
    obtain ⟨is, his⟩ := exists_value h he hp.1
    obtain ⟨js, hjs⟩ := exists_values h hes hp.2
    exact ⟨_, .cons his hjs⟩

end

theorem exists_address (h : Provides t Γ) (ha : Assignable e) (he : HasType t.notes Γ e τ)
    (hp : e.Proper) :
    (∃ is, Address (.sequential t) e is) ∧ ∃ o, Store (.sequential t) e o := by
  cases he with
  | reference hd hr _ =>
    cases stored h hd hr with
    | field hv hd hf     => exact ⟨⟨_, .field hv hd⟩, _, .field hv hd hf⟩
    | formal hv hd hk    => exact ⟨⟨_, .slot hv (by simp [hd])⟩, _, .formal hv hd hk⟩
    | localSlot hv hd hk => exact ⟨⟨_, .slot hv (by simp [hd])⟩, _, .localSlot hv hd hk⟩
  | index hr hs _     =>
    obtain ⟨is, his⟩ := exists_value h hr hp.1
    obtain ⟨js, hjs⟩ := exists_value h hs hp.2
    obtain ⟨k, hk⟩ := exists_elementKind hr
    exact ⟨⟨_, .element his hjs⟩, _, .element hk⟩
  | length | call | newObject | newArray | not | arithmetic | logical | boolean | integer | self =>
    cases ha

mutual

theorem exists_code {Γ : Typing.Context} (h : Provides t Γ) (hF : ∀ d ∈ F, Addressable t d) (n l : Nat) :
    Checks t.notes Γ F s F' → s.Proper → (∀ d ∈ s.locals, Addressable t d) →
      ∃ is ts, Code (.sequential t) s n l is ts
  | .declare _ _, _, _ => ⟨_, _, .declare⟩
  | .print he, hp, _ => by
    obtain ⟨is, his⟩ := exists_value (h.push hF) he hp
    exact ⟨_, _, .print his⟩
  | .ret he, hp, _ => by
    obtain ⟨is, his⟩ := exists_value (h.push hF) he hp
    exact ⟨_, _, .ret his⟩
  | .assert he, hp, _ => by
    obtain ⟨is, his⟩ := exists_value (h.push hF) he hp
    exact ⟨_, _, .assert his⟩
  | .block hb, hp, hl => by
    obtain ⟨is, ts, hss⟩ := exists_codeAll (h.push hF) (F := []) nofun n l hb hp hl
    exact ⟨_, _, .block hss⟩
  | .assign ha ht hv, hp, _ => by
    obtain ⟨⟨is, his⟩, o, ho⟩ := exists_address (h.push hF) ha ht hp.1
    obtain ⟨js, hjs⟩ := exists_value (h.push hF) hv hp.2
    exact ⟨_, _, .assign his hjs ho⟩
  | .ifThen he hs, hp, hl => by
    obtain ⟨is, his⟩ := exists_value (h.push hF) he hp.1
    obtain ⟨js, ts, hs⟩ := exists_code h hF (n + is.length + 1) (l + 1) hs hp.2 hl
    exact ⟨_, _, .ifThen his hs⟩
  | .ifThenElse he ht hf, hp, hl => by
    obtain ⟨hlt, hlf⟩ := List.forall_mem_append.mp hl
    obtain ⟨is, his⟩ := exists_value (h.push hF) he hp.1
    obtain ⟨js, ts, hjs⟩ := exists_code h hF (n + is.length + 1) (l + 2) ht hp.2.1 hlt
    have hF' : ∀ d ∈ _, Addressable t d := fun d hd => (ht.mem hd).elim (hlt d) (hF d)
    obtain ⟨ks, us, hks⟩ := exists_code h hF' (n + is.length + js.length + 2)
      (l + ts.length + 2) hf hp.2.2 hlf
    exact ⟨_, _, .ifThenElse his hjs hks⟩
  | .loop he hb, hp, hl => by
    obtain ⟨is, ts, hs⟩ := exists_code h hF (n + 1) (l + 2) hb hp.2 hl
    obtain ⟨js, hjs⟩ := exists_value (h.push hF) he hp.1
    exact ⟨_, _, .loop hs hjs⟩
  | .call he, hp, _ => by
    obtain ⟨is, his⟩ := exists_value (h.push hF) he hp
    obtain ⟨i, hi, ht⟩ := exists_typeOf? he
    by_cases hv : t.typeOf? i = some .void <;> obtain rfl := Option.some.inj hi
    case pos => exact ⟨_, _, .call his hv⟩
    case neg => exact ⟨_, _, .drop his ht fun he => hv (he ▸ ht)⟩

theorem exists_codeAll {Γ : Typing.Context} (h : Provides t Γ) (hF : ∀ d ∈ F, Addressable t d) (n l : Nat) :
    ChecksAll t.notes Γ F ss F' → Statement.ProperAll ss →
      (∀ d ∈ Statement.localsOf ss, Addressable t d) →
      ∃ is ts, CodeAll (.sequential t) ss n l is ts
  | .nil, _, _ => ⟨_, _, .nil⟩
  | .cons hs hss, hp, hl => by
    obtain ⟨hls, hlss⟩ := List.forall_mem_append.mp hl
    obtain ⟨is, ts, his⟩ := exists_code h hF n l hs hp.1 hls
    have hF' : ∀ d ∈ _, Addressable t d := fun d hd => (hs.mem hd).elim (hls d) (hF d)
    obtain ⟨js, us, hjs⟩ := exists_codeAll h hF' (n + is.length) (l + ts.length) hss hp.2 hlss
    exact ⟨_, _, .cons his hjs⟩

end

end MiniJava.Emit
