import MiniJava.Proofs.Grammar.Proper
import MiniJava.Proofs.Typing.Frames

namespace MiniJava.Typing

def Denotes (p : Program) : StaticType → Prop
  | .object name           => name ∈ classNames p
  | .array element         => Denotes p element
  | .int | .boolean | .void => True

theorem denotes_ofName (h : Known p name) : Denotes p (.ofName name) := by
  cases hn : StaticType.ofName name with
  | int | boolean | void => trivial
  | object c =>
    obtain ⟨rfl, hi, hb, hv⟩ := StaticType.ofName_eq_object.mp hn
    exact h.resolve_left (by simp [builtinTypes, hi, hb, hv])
  | array τ => exact absurd hn StaticType.ofName_ne_array

theorem denotes_ofDeclared (h : Known p name) (isArray : Bool) : Denotes p (.ofDeclared name isArray) := by
  cases isArray with
  | true  => exact denotes_ofName h
  | false => exact denotes_ofName h

-- What is declared around an expression has been checked before.
structure Context.Sound (Γ : Context) : Prop where
  declared  : ∀ F ∈ Γ.frames, ∀ d ∈ F, Known Γ.program d.type.name
  methods   : ∀ c name m, HasMethod Γ.program c name m → Denotes Γ.program m.returns
  className : Γ.className ∈ classNames Γ.program

-- So the methods of a receiver can always be looked for.
theorem HasType.denotes (hs : Γ.Sound) : HasType N Γ e τ → e.Proper → Denotes Γ.program τ
  | .length .., _ | .not .., _ | .arithmetic .., _ | .logical .., _ | .boolean _, _
  | .integer _, _ => trivial
  | .call _ _ _ hm _ _ _, _  => hs.methods _ _ _ hm
  | .newObject hk _, hp      => hk.resolve_left hp
  | .newArray _ hk _, _      => denotes_ofDeclared hk true
  | .self _ _, _             => hs.className
  | .index ha _ _, hp        => (ha.denotes hs hp.1 : Denotes _ (.array _))
  | .reference hd _ _, _     =>
    have ⟨_, F, hF, hd⟩ := Context.mem_of_lookup? hd
    denotes_ofDeclared (hs.declared F hF _ hd) _

end MiniJava.Typing
