import MiniJava.Proofs.Emit.Balance
import MiniJava.Proofs.Renaming.Basic
import MiniJava.Proofs.Tree.Likeness

namespace MiniJava

-- Which handles of one program are for the same as which of another.
structure HandleMap where
  types        : TypeHandle → TypeHandle
  constructors : ConstructorHandle → ConstructorHandle
  methods      : MethodHandle → MethodHandle
  fields       : FieldHandle → FieldHandle

namespace HandleMap

def id : HandleMap :=
  ⟨fun t => t, fun c => c, fun m => m, fun f => f⟩

end HandleMap

namespace Opcode

def map (ρ : HandleMap) : Opcode → Opcode
  | loadField f  => .loadField (ρ.fields f)
  | storeField f => .storeField (ρ.fields f)
  | newArray t   => .newArray (ρ.types t)
  | newObject c  => .newObject (ρ.constructors c)
  | call m       => .call (ρ.methods m)
  | o            => o

@[simp]
theorem map_id (o : Opcode) : o.map .id = o := by
  cases o <;> rfl

end Opcode

-- The same instruction, where positions may differ.
structure Instruction.Like (positions : Position → Position → Prop) (ρ : HandleMap)
    (i i' : Instruction) : Prop where
  opcode   : i'.opcode = i.opcode.map ρ
  position : Option.Rel positions i.position i'.position

structure Chunk.Like (positions : Position → Position → Prop) (ρ : HandleMap) (c c' : Chunk) :
    Prop where
  instructions : List.Forall₂ (Instruction.Like positions ρ) c.instructions.toList c'.instructions.toList
  labels       : c'.labels = c.labels

namespace Emit

open Typing

-- What is known of the nodes of two trees agrees where the trees are alike.
structure Agreement (L : Likeness) (ρ : HandleMap) (g g' : Context) : Prop where
  types     : k ≠ .other → L.nodes k i i' → g.table.typeOf? i = some τ →
    g'.table.typeOf? i' = some (τ.rename L.name)
  refers    : L.nodes .reference i i' → variableAt g i = .ok (s, v) →
    ∃ s' v', variableAt g' i' = .ok (s', v') ∧ v'.storage = v.storage ∧
      (v.storage ≠ .field → v'.slot = v.slot) ∧
      ∀ f, v.storage = .field → g.environment.fieldHandle s = .ok f →
        g'.environment.fieldHandle s' = .ok (ρ.fields f)
  calls     : L.nodes .call i i' → g.table.referenced? i = some s →
    g.environment.methodHandle s = .ok m →
    ∃ s', g'.table.referenced? i' = some s' ∧ g'.environment.methodHandle s' = .ok (ρ.methods m)
  objects   : g.environment.typeHandle name = .ok t → g.environment.constructor t = .ok c →
    ∃ t', g'.environment.typeHandle (L.name name) = .ok t' ∧
      g'.environment.constructor t' = .ok (ρ.constructors c)
  arrays    : g.environment.typeHandle name = .ok t →
    g'.environment.typeHandle (L.name name) = .ok (ρ.types t)

-- The same code but for handles and positions.
abbrev Likewise (L : Likeness) (ρ : HandleMap) (is is' : List Instruction) : Prop :=
  List.Forall₂ (Instruction.Like L.positions ρ) is is'

section

variable {g g' : Context} {L : Likeness} {ρ : HandleMap}

theorem Likewise.single (h : L.positions p p') (ho : o' = o.map ρ) :
    Likewise L ρ [⟨o, some p⟩] [⟨o', some p'⟩] :=
  .cons ⟨ho, .some h⟩ .nil

theorem Likewise.append (h : Likewise L ρ is is') (h' : Likewise L ρ js js') :
    Likewise L ρ (is ++ js) (is' ++ js') :=
  List.rel_append h h'

theorem map_binaryOpcode (op : BinaryOperator) : (binaryOpcode op).map ρ = binaryOpcode op := by
  cases op <;> rfl

theorem Agreement.typeOf? {e e' : Expression} (ha : Agreement L ρ g g') (hl : e.Like L e') (hi : e.id? = some i)
    (ht : g.table.typeOf? i = some τ) :
    ∃ i', e'.id? = some i' ∧ g'.table.typeOf? i' = some (τ.rename L.name) := by
  obtain ⟨k, i', hk, hi', hn⟩ := hl.id? hi
  exact ⟨i', hi', ha.types hk hn ht⟩

theorem Agreement.elementKind {e e' : Expression} (ha : Agreement L ρ g g') (hl : e.Like L e')
    (hk : Emit.elementKind g e = .ok k) : Emit.elementKind g' e' = .ok k := by
  obtain ⟨i, τ, hi, ht, rfl⟩ := elementKind_eq_ok.mp hk
  obtain ⟨i', hi', ht'⟩ := ha.typeOf? hl hi ht
  exact elementKind_eq_ok.mpr ⟨i', _, hi', ht', by rw [StaticType.isIntegral_rename]⟩

theorem Agreement.slotOf (ha : Agreement L ρ g g') (hn : L.nodes .reference i i')
    (hv : variableAt g i = .ok (s, v)) (hd : v.storage ≠ .field) (hk : slotOf v = .ok k) :
    ∃ s' v', variableAt g' i' = .ok (s', v') ∧ v'.storage = v.storage ∧ Emit.slotOf v' = .ok k := by
  obtain ⟨s', v', hv', hs, hk', _⟩ := ha.refers hn hv
  exact ⟨s', v', hv', hs, by rwa [Emit.slotOf, hk' hd]⟩

mutual

theorem Value.like {e e' : Expression} (ha : Agreement L ρ g g') (hv : Value g e is)
    (ht : HasType g.table.notes Γ e τ) (hl : e.Like L e') :
    ∃ is', Value g' e' is' ∧ Likewise L ρ is is' := by
  match e with
  | .call i receiver name arguments p =>
    cases hl with | call hn hlr hla hp =>
    cases hv with
    | length hr hi hj =>
      obtain ⟨i', hi', hj'⟩ := ha.typeOf? hlr hi hj
      have hr' : ∃ τ, HasType g.table.notes Γ receiver τ := by
        cases ht with | length h | call h => exact ⟨_, h⟩
      obtain ⟨_, hr'⟩ := hr'
      obtain ⟨is', hr, his⟩ := hr.like ha hr' hlr
      exact ⟨_, .length hr hi' hj', his.append (.single hp rfl)⟩
    | call hr hi hj hτ hargs hs hm =>
      cases ht with
      | length hr' => exact absurd (Option.some.inj (hj.symm.trans (typeOf?_eq hr' hi))) (hτ _)
      | call hr' hargs' hname =>
        obtain ⟨i', hi', hj'⟩ := ha.typeOf? hlr hi hj
        obtain ⟨is', hr, his⟩ := hr.like ha hr' hlr
        obtain ⟨js', hargs, hjs⟩ := hargs.like ha hargs' hla
        rw [NodeRole.ofCall, if_neg hname] at hn
        obtain ⟨s', hs', hm'⟩ := ha.calls hn hs hm
        have hτ' {υ} (he : StaticType.rename L.name _ = .array υ) : False :=
          have ⟨υ', hυ⟩ := StaticType.exists_of_rename_eq_array he
          hτ υ' hυ
        exact ⟨_, .call hr hi' hj' (fun _ he => hτ' he) hargs hs' hm',
          (his.append hjs).append (.single hp rfl)⟩
  | .newObject i name p =>
    cases hl with | newObject hn hp =>
    cases hv with | newObject ht hc =>
    obtain ⟨t', ht', hc'⟩ := ha.objects ht hc
    exact ⟨_, .newObject ht' hc', .single hp rfl⟩
  | .newArray i name size p =>
    cases hl with | newArray hn hls hp =>
    cases hv with | newArray hh hs =>
    cases ht with | newArray hs' =>
    obtain ⟨is', hs, his⟩ := hs.like ha hs' hls
    exact ⟨_, .newArray (ha.arrays hh) hs, his.append (.single hp rfl)⟩
  | .not i operand p =>
    cases hl with | not hn hlo hp =>
    cases hv with | not ho =>
    cases ht with | not ho' =>
    obtain ⟨is', ho, his⟩ := ho.like ha ho' hlo
    exact ⟨_, .not ho, his.append (.cons ⟨rfl, .some hp⟩ (Likewise.single hp rfl))⟩
  | .binary i op left right p =>
    cases hl with | binary hn hll hlr hp =>
    cases hv with | binary hleft hright =>
    cases ht with
    | arithmetic hleft' hright' | logical hleft' hright' =>
      obtain ⟨is', hleft, his⟩ := hleft.like ha hleft' hll
      obtain ⟨js', hright, hjs⟩ := hright.like ha hright' hlr
      exact ⟨_, .binary hleft hright,
        (his.append hjs).append (.single hp (map_binaryOpcode op).symm)⟩
  | .boolean i value p =>
    cases hl with | boolean hn hp =>
    cases hv with | boolean => exact ⟨_, .boolean, .single hp rfl⟩
  | .integer i value p =>
    cases hl with | integer hn hp =>
    cases hv with | integer => exact ⟨_, .integer, .single hp rfl⟩
  | .self i p =>
    cases hl with | self hn hp =>
    cases hv with | self => exact ⟨_, .self, .single hp rfl⟩
  | .index i array subscript p =>
    cases hl with | index hn hla hls hp =>
    cases hv with | index harr hsub hk =>
    cases ht with | index harr' hsub' =>
    obtain ⟨is', harr, his⟩ := harr.like ha harr' hla
    obtain ⟨js', hsub, hjs⟩ := hsub.like ha hsub' hls
    exact ⟨_, .index harr hsub (ha.elementKind hla hk), (his.append hjs).append (.single hp rfl)⟩
  | .reference i name p =>
    cases hl with | reference hn hp =>
    cases hv with
    | field hv hd hf =>
      obtain ⟨s', v', hv', hd', _, hf'⟩ := ha.refers hn hv
      exact ⟨_, .field hv' (hd'.trans hd) (hf' _ hd hf), .cons ⟨rfl, .some hp⟩ (Likewise.single hp rfl)⟩
    | formal hv hd hk =>
      obtain ⟨s', v', hv', hd', hk'⟩ := ha.slotOf hn hv (hd ▸ nofun) hk
      exact ⟨_, .formal hv' (hd'.trans hd) hk', .single hp rfl⟩
    | localSlot hv hd hk =>
      obtain ⟨s', v', hv', hd', hk'⟩ := ha.slotOf hn hv (hd ▸ nofun) hk
      exact ⟨_, .localSlot hv' (hd'.trans hd) hk', .single hp rfl⟩

theorem Values.like {es es' : List Expression} (ha : Agreement L ρ g g') (hv : Values g es is)
    (ht : HaveTypes g.table.notes Γ es) (hl : Expression.LikeAll L es es') :
    ∃ is', Values g' es' is' ∧ Likewise L ρ is is' := by
  match es with
  | []      =>
    cases hl with | nil =>
    cases hv with | nil => exact ⟨_, .nil, .nil⟩
  | e :: es =>
    cases hl with | cons hle hles =>
    cases hv with | cons he hes =>
    cases ht with | cons he' hes' =>
    obtain ⟨is', he, his⟩ := he.like ha he' hle
    obtain ⟨js', hes, hjs⟩ := hes.like ha hes' hles
    exact ⟨_, .cons he hes, his.append hjs⟩

end

theorem Address.like {e e' : Expression} (ha : Agreement L ρ g g') (hd : Address g e is)
    (ht : HasType g.table.notes Γ e τ) (hl : e.Like L e') :
    ∃ is', Address g' e' is' ∧ Likewise L ρ is is' := by
  cases hd with
  | field hv hd =>
    cases hl with | reference hn hp =>
    obtain ⟨s', v', hv', hd', _⟩ := ha.refers hn hv
    exact ⟨_, .field hv' (hd'.trans hd), .single hp rfl⟩
  | slot hv hd =>
    cases hl with | reference hn hp =>
    obtain ⟨s', v', hv', hd', _⟩ := ha.refers hn hv
    exact ⟨_, .slot hv' (hd' ▸ hd), .nil⟩
  | element harr hsub =>
    cases hl with | index hn hla hls hp =>
    cases ht with | index harr' hsub' =>
    obtain ⟨is', harr, his⟩ := harr.like ha harr' hla
    obtain ⟨js', hsub, hjs⟩ := hsub.like ha hsub' hls
    exact ⟨_, .element harr hsub, his.append hjs⟩

theorem Store.like {e e' : Expression} (ha : Agreement L ρ g g') (hs : Store g e o) (hl : e.Like L e') :
    Store g' e' (o.map ρ) := by
  cases hs with
  | field hv hd hf =>
    cases hl with | reference hn hp =>
    obtain ⟨s', v', hv', hd', _, hf'⟩ := ha.refers hn hv
    exact .field hv' (hd'.trans hd) (hf' _ hd hf)
  | formal hv hd hk =>
    cases hl with | reference hn hp =>
    obtain ⟨s', v', hv', hd', hk'⟩ := ha.slotOf hn hv (hd ▸ nofun) hk
    exact .formal hv' (hd'.trans hd) hk'
  | localSlot hv hd hk =>
    cases hl with | reference hn hp =>
    obtain ⟨s', v', hv', hd', hk'⟩ := ha.slotOf hn hv (hd ▸ nofun) hk
    exact .localSlot hv' (hd'.trans hd) hk'
  | element hk =>
    cases hl with | index hn hla hls hp => exact .element (ha.elementKind hla hk)

mutual

theorem Code.like {s s' : Statement} (ha : Agreement L ρ g g') (hc : Code g s n l is ts)
    (ht : Checks g.table.notes Γ F s F') (hl : s.Like L s') :
    ∃ is', Code g' s' n l is' ts ∧ Likewise L ρ is is' := by
  match s with
  | .declare d =>
    cases hl with | declare hd =>
    cases hc with | declare => exact ⟨_, .declare, .nil⟩
  | .print i e p =>
    cases hl with | print hn hle hp =>
    cases hc with | print he =>
    cases ht with | print he' =>
    obtain ⟨is', he, his⟩ := he.like ha he' hle
    exact ⟨_, .print he, his.append (.single hp rfl)⟩
  | .ret i e p =>
    cases hl with | ret hn hle hp =>
    cases hc with | ret he =>
    cases ht with | ret he' =>
    obtain ⟨is', he, his⟩ := he.like ha he' hle
    exact ⟨_, .ret he, his.append (.single hp rfl)⟩
  | .assert i e p =>
    cases hl with | assert hn hle hp =>
    cases hc with | assert he =>
    cases ht with | assert he' =>
    obtain ⟨is', he, his⟩ := he.like ha he' hle
    exact ⟨_, .assert he, his.append (.single hp rfl)⟩
  | .block i ss p =>
    cases hl with | block hn hls hp =>
    cases hc with | block hss =>
    cases ht with | block hss' =>
    obtain ⟨is', hss, his⟩ := hss.like ha hss' hls
    exact ⟨_, .block hss, his⟩
  | .assign i target value p =>
    cases hl with | assign hn hlt hlv hp =>
    cases hc with | assign hd hv hs =>
    cases ht with | assign _ ht' hv' =>
    obtain ⟨is', hd, his⟩ := hd.like ha ht' hlt
    obtain ⟨js', hv, hjs⟩ := hv.like ha hv' hlv
    exact ⟨_, .assign hd hv (hs.like ha hlt), (his.append hjs).append (.single hp rfl)⟩
  | .ifThen i e s p =>
    cases hl with | ifThen hn hle hls hp =>
    cases hc with | ifThen he hs =>
    cases ht with | ifThen he' hs' =>
    obtain ⟨is', he, his⟩ := he.like ha he' hle
    obtain ⟨js', hs, hjs⟩ := hs.like ha hs' hls
    rw [his.length_eq] at hs ⊢
    rw [hjs.length_eq]
    exact ⟨_, .ifThen he hs,
      ((his.append (.single hp rfl)).append hjs).append (.single hp rfl)⟩
  | .ifThenElse i e onTrue onFalse p =>
    cases hl with | ifThenElse hn hle hlt hlf hp =>
    cases hc with | ifThenElse he hs hf =>
    cases ht with | ifThenElse he' hs' hf' =>
    obtain ⟨is', he, his⟩ := he.like ha he' hle
    obtain ⟨js', hs, hjs⟩ := hs.like ha hs' hlt
    obtain ⟨ks', hf, hks⟩ := hf.like ha hf' hlf
    rw [his.length_eq] at hs hf ⊢
    rw [hjs.length_eq] at hf ⊢
    rw [hks.length_eq]
    exact ⟨_, .ifThenElse he hs hf,
      (((his.append (.single hp rfl)).append hjs).append (.single hp rfl)).append hks⟩
  | .loop i e s p =>
    cases hl with | loop hn hle hls hp =>
    cases hc with | loop hs he =>
    cases ht with | loop he' hs' =>
    obtain ⟨is', hs, his⟩ := hs.like ha hs' hls
    obtain ⟨js', he, hjs⟩ := he.like ha he' hle
    rw [his.length_eq]
    exact ⟨_, .loop hs he,
      ((Likewise.append (.single hp rfl) his).append hjs).append (.single hp rfl)⟩
  | .call i receiver name arguments p =>
    cases hl with | call hle =>
    cases ht with | call he' =>
    cases hc with
    | drop he hi hτ =>
      obtain ⟨is', he, his⟩ := he.like ha he' hle
      cases hle with | call hn hlr hla hp =>
      exact ⟨_, .drop he (ha.types (NodeRole.ofCall_ne name) hn hi)
        (mt StaticType.rename_eq_void.mp hτ), his.append (.single hp rfl)⟩
    | call he hi =>
      obtain ⟨is', he, his⟩ := he.like ha he' hle
      cases hle with | call hn hlr hla hp =>
      exact ⟨_, .call he (ha.types (NodeRole.ofCall_ne name) hn hi), his⟩
  | .malformed p => cases hc

theorem CodeAll.like {ss ss' : List Statement} (ha : Agreement L ρ g g')
    (hc : CodeAll g ss n l is ts) (ht : ChecksAll g.table.notes Γ F ss F')
    (hl : Statement.LikeAll L ss ss') : ∃ is', CodeAll g' ss' n l is' ts ∧ Likewise L ρ is is' := by
  match ss with
  | []      =>
    cases hl with | nil =>
    cases hc with | nil => exact ⟨_, .nil, .nil⟩
  | s :: ss =>
    cases hl with | cons hls hlss =>
    cases hc with | cons hs hss =>
    cases ht with | cons hs' hss' =>
    obtain ⟨is', hs, his⟩ := hs.like ha hs' hls
    obtain ⟨js', hss, hjs⟩ := hss.like ha hss' hlss
    rw [his.length_eq] at hss
    exact ⟨_, .cons hs hss, his.append hjs⟩

end

theorem likewise_trailing {ss ss' : List Statement} (h : Statement.LikeAll L ss ss') :
    Likewise L ρ (trailing ss) (trailing ss') := by
  rw [trailing, trailing, endsInReturn, endsInReturn, h.endsInReturn]
  split
  case isTrue  => exact .nil
  case isFalse => exact .cons ⟨rfl, .none⟩ .nil

-- Methods with bodies that are alike have chunks that are alike.
theorem chunk_like {ss ss' : List Statement} (ha : Agreement L ρ g g') (hc : chunk g ss = .ok c)
    (ht : ChecksAll g.table.notes Γ F ss F') (hl : Statement.LikeAll L ss ss')
    (hn : (Statement.nodeIdsOf ss).Nodup) (hn' : (Statement.nodeIdsOf ss').Nodup) :
    ∃ c', chunk g' ss' = .ok c' ∧ c.Like L.positions ρ c' := by
  obtain ⟨is, ts, his, rfl⟩ := (chunk_eq_ok hn).mp hc
  obtain ⟨is', his', hlike⟩ := his.like ha ht hl
  refine ⟨_, (chunk_eq_ok hn').mpr ⟨is', ts, his', rfl⟩, ?_, rfl⟩
  simpa [Chunk.extend, Chunk.empty] using hlike.append (likewise_trailing hl)

end

end Emit

end MiniJava
