import MiniJava.Proofs.Emit.Operands
import MiniJava.Proofs.Emit.Referents

namespace MiniJava

open Typing
open Resolve (AnyClass allClasses)

-- What the bodies of a program refer to.
def Program.referents (t : SymbolTable) (p : Program) : List Referent :=
  (allClasses p).flatMap fun c => c.bodies.flatMap fun b => Statement.referentsAll t b.statements

-- The handles that the code of a program mentions, and those that its methods go under.
structure Environment.Covers (e : Environment) (t : SymbolTable) (p : Program) : Prop where
  methods      : ∀ c ∈ allClasses p, ∀ m ∈ c.signatures, ∃ s h,
    t.HasMethod s m ∧ e.methodHandle s = .ok h
  fields       : ∀ s, .field s ∈ p.referents t → ∃ h, e.fieldHandle s = .ok h
  types        : ∀ name, .element name ∈ p.referents t ∨ .object name ∈ p.referents t →
    ∃ h, e.typeHandle name = .ok h
  constructors : ∀ name h, .object name ∈ p.referents t → e.typeHandle name = .ok h →
    ∃ c, e.constructor h = .ok c

namespace Emit

-- What is known of an environment where a phrase of a program is compiled.
structure Supplies (e : Environment) (t : SymbolTable) (p : Program) (Γ : Typing.Context) : Prop where
  program : Γ.program = p
  covers  : e.Covers t p
  unique  : ∀ s s' m, t.HasMethod s m → t.HasMethod s' m → s = s'

section

variable {e : Environment} {t : SymbolTable} {p : Program} {Γ : Typing.Context}

theorem Supplies.push (h : Supplies e t p Γ) (F : Frame) : Supplies e t p (Γ.push F) :=
  { h with program := h.program }

theorem Supplies.method (h : Supplies e t p Γ) (hm : HasMethod Γ.program className name m)
    (hs : t.HasMethod s m) : ∃ handle, e.methodHandle s = .ok handle := by
  rw [h.program] at hm
  cases hm with | intro hl hm =>
  obtain ⟨c, hc, hm⟩ := List.exists_of_findSome?_eq_some hm
  obtain ⟨s', handle, hs', hh⟩ :=
    h.covers.methods c (hl.subset c hc) m (List.mem_of_find?_eq_some hm)
  exact ⟨handle, h.unique s s' m hs hs' ▸ hh⟩

end

section

variable {e : Environment} {t : SymbolTable} {p : Program}

mutual

-- Where the environment that numbers the symbols gives code, any environment with the handles
-- gives as many instructions.
theorem Value.supply {Γ : Typing.Context} (h : Supplies e t p Γ) :
    HasType t.notes Γ x τ → x.Proper → x.referents t ⊆ p.referents t → Value (.sequential t) x is →
      ∃ js, js.length = is.length ∧ Value ⟨t, e⟩ x js
  | .length hr _ _, hp, hx, .length hv hi hj => by
    obtain ⟨js, hl, hv⟩ := hv.supply h hr hp.1 fun n hn => hx (by simp [Expression.referents, hn])
    exact ⟨_, by simp [hl], .length hv hi hj⟩
  | .length hr _ _, _, _, .call _ hi hj hτ _ _ _ =>
    absurd (Option.some.inj (hj.symm.trans (typeOf?_eq hr hi))) (hτ _)
  | .call hr _ _ _ _ _ _, _, _, .length _ hi hj => by
    cases hj.symm.trans (typeOf?_eq hr hi)
  | .call hr ha hn hm _ hc _, hp, hx, .call hv hi hj hτ hvs hs _ => by
    obtain ⟨js, hl, hv⟩ := hv.supply h hr hp.1 fun n hn => hx (by simp [Expression.referents, hn])
    obtain ⟨ks, hk, hvs⟩ := hvs.supply h ha hp.2.1 fun n hn => hx (by simp [Expression.referents, hn])
    obtain ⟨s', hs', hsig⟩ := hc
    obtain rfl := Option.some.inj (hs.symm.trans hs')
    obtain ⟨m, hm⟩ := h.method hm hsig
    exact ⟨_, by simp [hl, hk], .call hv hi hj hτ hvs hs hm⟩
  | .newObject _ _, _, hx, .newObject _ _ => by
    have hn := hx (List.mem_singleton_self _)
    obtain ⟨handle, hh⟩ := h.covers.types _ (.inr hn)
    obtain ⟨c, hc⟩ := h.covers.constructors _ _ hn hh
    exact ⟨_, by simp, .newObject hh hc⟩
  | .newArray hs _ _, hp, hx, .newArray _ hv => by
    obtain ⟨hx, hn⟩ := List.append_subset.mp hx
    obtain ⟨handle, hh⟩ := h.covers.types _ (.inl (hn (List.mem_singleton_self _)))
    obtain ⟨js, hl, hv⟩ := hv.supply h hs hp hx
    exact ⟨_, by simp [hl], .newArray hh hv⟩
  | .not ho _, hp, hx, .not hv => by
    obtain ⟨js, hl, hv⟩ := hv.supply h ho hp hx
    exact ⟨_, by simp [hl], .not hv⟩
  | .arithmetic hl hr _ _, hp, hx, .binary hv hw | .logical hl hr _ _, hp, hx, .binary hv hw => by
    obtain ⟨hxl, hxr⟩ := List.append_subset.mp hx
    obtain ⟨js, hjs, hv⟩ := hv.supply h hl hp.1 hxl
    obtain ⟨ks, hks, hw⟩ := hw.supply h hr hp.2 hxr
    exact ⟨_, by simp [hjs, hks], .binary hv hw⟩
  | .boolean _, _, _, .boolean => ⟨_, rfl, .boolean⟩
  | .integer _, _, _, .integer => ⟨_, rfl, .integer⟩
  | .self _ _, _, _, .self     => ⟨_, rfl, .self⟩
  | .index ha hs _, hp, hx, .index hv hw hk => by
    obtain ⟨hxa, hxs⟩ := List.append_subset.mp hx
    obtain ⟨js, hjs, hv⟩ := hv.supply h ha hp.1 hxa
    obtain ⟨ks, hks, hw⟩ := hw.supply h hs hp.2 hxs
    exact ⟨_, by simp [hjs, hks], .index hv hw hk⟩
  | .reference _ _ _, _, hx, .field hv hd _ => by
    rw [referents_field (e := .sequential t) hv hd] at hx
    obtain ⟨f, hf⟩ := h.covers.fields _ (hx (List.mem_singleton_self _))
    exact ⟨_, by simp, .field hv hd hf⟩
  | .reference _ _ _, _, _, .formal hv hd hk    => ⟨_, rfl, .formal hv hd hk⟩
  | .reference _ _ _, _, _, .localSlot hv hd hk => ⟨_, rfl, .localSlot hv hd hk⟩

theorem Values.supply {Γ : Typing.Context} (h : Supplies e t p Γ) :
    HaveTypes t.notes Γ xs → Expression.ProperAll xs →
      Expression.referentsAll t xs ⊆ p.referents t → Values (.sequential t) xs is →
      ∃ js, js.length = is.length ∧ Values ⟨t, e⟩ xs js
  | .nil, _, _, .nil => ⟨_, rfl, .nil⟩
  | .cons hx hxs, hp, hsub, .cons hv hvs => by
    obtain ⟨hn, hns⟩ := List.append_subset.mp hsub
    obtain ⟨js, hjs, hv⟩ := hv.supply h hx hp.1 hn
    obtain ⟨ks, hks, hvs⟩ := hvs.supply h hxs hp.2 hns
    exact ⟨_, by simp [hjs, hks], .cons hv hvs⟩

end

theorem Address.supply {Γ : Typing.Context} (h : Supplies e t p Γ) (ha : Address (.sequential t) x is)
    (ht : HasType t.notes Γ x τ) (hp : x.Proper) (hx : x.referents t ⊆ p.referents t) :
    ∃ js, js.length = is.length ∧ Address ⟨t, e⟩ x js := by
  cases ha with
  | field hv hd      => exact ⟨[_], rfl, .field hv hd⟩
  | slot hv hd       => exact ⟨[], rfl, .slot hv hd⟩
  | element hva hvs  =>
    cases ht with | index ha hs _ =>
    obtain ⟨hxa, hxs⟩ := List.append_subset.mp hx
    obtain ⟨js, hjs, hva⟩ := hva.supply h ha hp.1 hxa
    obtain ⟨ks, hks, hvs⟩ := hvs.supply h hs hp.2 hxs
    exact ⟨_, by simp [hjs, hks], .element hva hvs⟩

theorem Store.supply (h : e.Covers t p) (hs : Store (.sequential t) x o)
    (hx : x.referents t ⊆ p.referents t) : ∃ o', Store ⟨t, e⟩ x o' := by
  cases hs with
  | field hv hd _      =>
    rw [referents_field (e := .sequential t) hv hd] at hx
    obtain ⟨f, hf⟩ := h.fields _ (hx (List.mem_singleton_self _))
    exact ⟨_, .field hv hd hf⟩
  | formal hv hd hk    => exact ⟨_, .formal hv hd hk⟩
  | localSlot hv hd hk => exact ⟨_, .localSlot hv hd hk⟩
  | element hk         => exact ⟨_, .element hk⟩

-- What an assignment refers to, its target and its value refer to.
theorem referents_assign (ha : Assignable target) {ns : List Referent}
    (h : (Statement.assign i target value q).referents t ⊆ ns) :
    target.referents t ⊆ ns ∧ value.referents t ⊆ ns := by
  cases target with
  | reference => exact (List.append_subset.mp h).symm
  | index     => exact List.append_subset.mp h
  | _         => cases ha

mutual

theorem Code.supply {Γ : Typing.Context} (h : Supplies e t p Γ) :
    Checks t.notes Γ F s F' → s.Proper → s.referents t ⊆ p.referents t →
      Code (.sequential t) s n l is ts → ∃ js, js.length = is.length ∧ Code ⟨t, e⟩ s n l js ts
  | .declare _ _, _, _, .declare => ⟨_, rfl, .declare⟩
  | .print hx, hp, hs, .print hv => by
    obtain ⟨js, hl, hv⟩ := hv.supply (h.push _) hx hp hs
    exact ⟨_, by simp [hl], .print hv⟩
  | .ret hx, hp, hs, .ret hv => by
    obtain ⟨js, hl, hv⟩ := hv.supply (h.push _) hx hp hs
    exact ⟨_, by simp [hl], .ret hv⟩
  | .assert hx, hp, hs, .assert hv => by
    obtain ⟨js, hl, hv⟩ := hv.supply (h.push _) hx hp hs
    exact ⟨_, by simp [hl], .assert hv⟩
  | .block hb, hp, hs, .block hc => by
    obtain ⟨js, hl, hc⟩ := hc.supply (h.push _) hb hp hs
    exact ⟨_, hl, .block hc⟩
  | .assign ha ht hx, hp, hs, .assign hat hv hst => by
    obtain ⟨hst', hsv⟩ := referents_assign ha hs
    obtain ⟨js, hjs, hat⟩ := hat.supply (h.push _) ht hp.1 hst'
    obtain ⟨ks, hks, hv⟩ := hv.supply (h.push _) hx hp.2 hsv
    obtain ⟨o, ho⟩ := hst.supply h.covers hst'
    exact ⟨_, by simp [hjs, hks], .assign hat hv ho⟩
  | .ifThen hx ht, hp, hs, .ifThen hv hc => by
    obtain ⟨hsx, hst⟩ := List.append_subset.mp hs
    obtain ⟨js, hjs, hv⟩ := hv.supply (h.push _) hx hp.1 hsx
    obtain ⟨ks, hks, hc⟩ := hc.supply h ht hp.2 hst
    rw [← hjs] at hc ⊢
    rw [← hks]
    exact ⟨_, by simp [hjs, hks], .ifThen hv hc⟩
  | .ifThenElse hx ht hf, hp, hs, .ifThenElse hv hc hc' => by
    obtain ⟨hs, hsf⟩ := List.append_subset.mp hs
    obtain ⟨hsx, hst⟩ := List.append_subset.mp hs
    obtain ⟨js, hjs, hv⟩ := hv.supply (h.push _) hx hp.1 hsx
    obtain ⟨ks, hks, hc⟩ := hc.supply h ht hp.2.1 hst
    obtain ⟨us, hus, hc'⟩ := hc'.supply h hf hp.2.2 hsf
    rw [← hjs] at hc hc' ⊢
    rw [← hks] at hc' ⊢
    rw [← hus]
    exact ⟨_, by simp [hjs, hks, hus], .ifThenElse hv hc hc'⟩
  | .loop hx hb, hp, hs, .loop hc hv => by
    obtain ⟨hsb, hsx⟩ := List.append_subset.mp hs
    obtain ⟨js, hjs, hc⟩ := hc.supply h hb hp.2 hsb
    obtain ⟨ks, hks, hv⟩ := hv.supply (h.push _) hx hp.1 hsx
    rw [← hjs]
    exact ⟨_, by simp [hjs, hks], .loop hc hv⟩
  | .call hx, hp, hs, .drop hv hi hτ => by
    obtain ⟨js, hl, hv⟩ := hv.supply (h.push _) hx hp hs
    exact ⟨_, by simp [hl], .drop hv hi hτ⟩
  | .call hx, hp, hs, .call hv hi => by
    obtain ⟨js, hl, hv⟩ := hv.supply (h.push _) hx hp hs
    exact ⟨_, hl, .call hv hi⟩

theorem CodeAll.supply {Γ : Typing.Context} (h : Supplies e t p Γ) :
    ChecksAll t.notes Γ F ss F' → Statement.ProperAll ss →
      Statement.referentsAll t ss ⊆ p.referents t → CodeAll (.sequential t) ss n l is ts →
      ∃ js, js.length = is.length ∧ CodeAll ⟨t, e⟩ ss n l js ts
  | .nil, _, _, .nil => ⟨_, rfl, .nil⟩
  | .cons hs hss, hp, hsub, .cons hc hcs => by
    obtain ⟨hn, hns⟩ := List.append_subset.mp hsub
    obtain ⟨js, hjs, hc⟩ := hc.supply h hs hp.1 hn
    obtain ⟨ks, hks, hcs⟩ := hcs.supply h hss hp.2 hns
    exact ⟨_, by simp [hjs, hks], .cons hc (hjs ▸ hcs)⟩

end

end

-- What the methods of a program are does not depend on the environment.
theorem IsTask.move {e e' : Environment} (h : IsTask ⟨t, e⟩ p task) : IsTask ⟨t, e'⟩ p task := by
  cases h with
  | main hc hs      => exact .main hc hs
  | method hc hm hs => exact .method hc hm hs

-- A body that passes the typing rules, as part of a program.
structure Typed (t : SymbolTable) (p : Program) (Γ : Typing.Context) (F F' : Frame)
    (ss : List Statement) : Prop where
  program   : Γ.program = p
  checks    : ChecksAll t.notes Γ F ss F'
  proper    : Statement.ProperAll ss
  referents : Statement.referentsAll t ss ⊆ p.referents t

theorem Typed.held {e : Environment} (h : Typed t p Γ F F' ss) (hn : (Statement.nodeIdsOf ss).Nodup)
    (hc : chunk ⟨t, e⟩ ss = .ok c) :
    (c.opcodes.filterMap Opcode.handle?).map .ok = (Statement.referentsAll t ss).map e.handle := by
  obtain ⟨is, ts, his, rfl⟩ := (chunk_eq_ok hn).mp hc
  have hret : Held e [] (trailing ss) := by
    unfold trailing
    split
    case isTrue  => exact .nil
    case isFalse => exact .cons rfl .nil
  have hheld := (his.held h.checks h.proper).append hret
  rw [List.append_nil, Held] at hheld
  rw [← hheld, Chunk.opcodes, List.filterMap_map, Chunk.instructions_extend_empty]
  rfl

end Emit

namespace Accepted

variable {p : Program} {t : SymbolTable} {e : Environment}

theorem typed (h : Accepted p t) (hc : c ∈ allClasses p) (hb : b ∈ c.bodies) :
    ∃ Γ F F', Emit.Typed t p Γ F F' b.statements := by
  obtain ⟨l, hl⟩ := h.exists_lineage hc
  obtain ⟨F', hF'⟩ := (h.resolved.passes c l hl b hb).checks.statements
  exact ⟨_, _, _, rfl, hF', (Resolve.body_of_proper (Resolve.proper_of_mem h.proper hc) hb).2,
    fun n hn => List.mem_flatMap.mpr ⟨c, hc, List.mem_flatMap.mpr ⟨b, hb, hn⟩⟩⟩

theorem typed_task (h : Accepted p t) (ht : Emit.IsTask ⟨t, e⟩ p task) :
    ∃ Γ F F', Emit.Typed t p Γ F F' task.statements := by
  obtain ⟨c, m, b, hm⟩ := h.exists_methodOf ht.move
  exact hm.statements ▸ h.typed hm.declared hm.body

-- There is code to generate for every body of a class.
theorem exists_task_of_body (h : Accepted p t) (hc : c ∈ allClasses p) (hb : b ∈ c.bodies) :
    ∃ task, Emit.IsTask ⟨t, e⟩ p task ∧ task.statements = b.statements := by
  rcases mem_allClasses.mp hc with ⟨c, hmain, rfl⟩ | ⟨c, hclass, rfl⟩
  case inl =>
    obtain rfl := List.mem_singleton.mp hb
    obtain ⟨s, hs, _⟩ := h.exists_mainSymbol hmain
    exact ⟨_, .main hmain hs, rfl⟩
  case inr =>
    obtain ⟨d, hd, rfl⟩ := List.mem_map.mp hb
    obtain ⟨member, hmem, hd⟩ := List.mem_filterMap.mp hd
    cases member with
    | method d'             =>
      obtain rfl := Option.some.inj hd
      obtain ⟨s, hs, _⟩ := h.exists_methodSymbol hclass hmem
      exact ⟨_, .method hclass hmem hs, rfl⟩
    | field _ | malformed _ => cases hd

-- An environment that covers the program has what each of the methods needs.
theorem exists_code_of_covers (h : Accepted p t)
    (ho : t.outlines = p.outerOutlines ++ p.innerOutlines) (hc : e.Covers t p) :
    ∃ code, ProgramCode.generate t e p = .ok code := by
  have hunique (s s' m) (hs : t.HasMethod s m) (hs' : t.HasMethod s' m) : s = s' :=
    h.eq_of_hasMethod ho hs hs'
  refine h.exists_code_of_methods fun task ht code => ?_
  obtain ⟨c, m, b, hm⟩ := h.exists_methodOf ht.move
  obtain ⟨s, handle, hs, hh⟩ := hc.methods c hm.declared m hm.signature
  obtain rfl := hunique _ _ _ hs hm.symbol
  obtain ⟨k, hk⟩ := h.exists_chunk ht.move
  have hn := ht.nodup h.nodup
  obtain ⟨is, ts, his, _⟩ := (Emit.chunk_eq_ok hn).mp hk
  obtain ⟨Γ, F, F', hty⟩ := h.typed_task ht
  obtain ⟨js, _, hjs⟩ := his.supply ⟨hty.program, hc, hunique⟩ hty.checks hty.proper hty.referents
  exact ⟨_, Emit.method_eq_ok.mpr ⟨handle, _, hh, (Emit.chunk_eq_ok hn).mpr ⟨js, ts, hjs, rfl⟩, rfl⟩⟩

theorem covers_of_code (h : Accepted p t) (hcode : ProgramCode.generate t e p = .ok code) :
    e.Covers t p := by
  have hprogram := ProgramCode.generate_eq_ok.mp hcode
  have hhandle (n) (hn : n ∈ p.referents t) : ∃ handle, e.handle n = .ok handle := by
    obtain ⟨c, hc, hn⟩ := List.mem_flatMap.mp hn
    obtain ⟨b, hb, hn⟩ := List.mem_flatMap.mp hn
    obtain ⟨task, htask, hss⟩ := h.exists_task_of_body (e := e) hc hb
    obtain ⟨_, k, _, hk⟩ := Emit.exists_chunk_of_program htask hprogram
    obtain ⟨is, ts, his, _⟩ := (Emit.chunk_eq_ok (htask.nodup h.nodup)).mp hk
    obtain ⟨Γ, F, F', hty⟩ := h.typed_task htask
    exact (his.held hty.checks hty.proper).exists_handle (hss ▸ hn)
  constructor
  case methods =>
    intro c hc m hm
    obtain ⟨task, htask, hs⟩ := h.exists_task hc hm
    obtain ⟨handle, _, hh, _⟩ := Emit.exists_chunk_of_program htask.move hprogram
    exact ⟨_, handle, hs, hh⟩
  case fields =>
    intro s hs
    obtain ⟨_, hs⟩ := hhandle _ hs
    obtain ⟨f, hf, _⟩ := Environment.handle_field.mp hs
    exact ⟨f, hf⟩
  case types =>
    rintro name (hn | hn) <;> obtain ⟨_, hn⟩ := hhandle _ hn
    case inl =>
      obtain ⟨τ, hτ, _⟩ := Environment.handle_element.mp hn
      exact ⟨τ, hτ⟩
    case inr =>
      obtain ⟨τ, hτ, _⟩ := Environment.handle_object.mp hn
      exact ⟨τ, hτ⟩
  case constructors =>
    intro name τ hn hτ
    obtain ⟨_, hn⟩ := hhandle _ hn
    obtain ⟨τ', hτ', c, hc, _⟩ := Environment.handle_object.mp hn
    obtain rfl := Except.ok.inj (hτ.symm.trans hτ')
    exact ⟨c, hc⟩

end Accepted

namespace ProgramCode

-- An accepted program has code against an environment if and only if this has handles for what the
-- program declares and its bodies refer to; these are the handles in the code.
theorem generate_covered (hp : Program.ofStream (.ofText text) = .ok p)
    (ht : SymbolTable.ofProgram p = .ok t) (e : Environment) :
    ((∃ code, generate t e p = .ok code) ↔ e.Covers t p) ∧
      (¬e.Covers t p → ∃ error, generate t e p = .error (.internal error)) ∧
      ∀ code, generate t e p = .ok code → ∀ (k : Nat) entry, code[k]? = some entry →
        ∃ task, Emit.CodeOf ⟨t, e⟩ p k entry task ∧
          (entry.chunk.opcodes.filterMap Opcode.handle?).map .ok =
            (Statement.referentsAll t task.statements).map e.handle := by
  have h := accepted_of_ofText hp ht
  have ho := outlines_ofProgram h.proper h.nodup ht
  have hiff : (∃ code, generate t e p = .ok code) ↔ e.Covers t p :=
    ⟨fun ⟨_, hcode⟩ => h.covers_of_code hcode, h.exists_code_of_covers ho⟩
  refine ⟨hiff, fun hc => ?fails, fun code hcode k entry hk => ?held⟩
  case fails =>
    cases hg : Emit.program ⟨t, e⟩ p with
    | ok code     => exact absurd (hiff.mp ⟨code, generate_eq_ok.mpr hg⟩) hc
    | error error => exact ⟨error, generate_eq_internal.mpr hg⟩
  case held =>
    obtain ⟨task, hof⟩ := Emit.Sourced.program (generate_eq_ok.mp hcode) k entry hk
    obtain ⟨Γ, F, F', hty⟩ := h.typed_task hof.task
    exact ⟨task, hof, hty.held (hof.task.nodup h.nodup) hof.chunk⟩

-- With a handle for each method, field and type the constructor of `C` is still missing.
theorem generate_covered_furnishing :
    let p := (ParsedProgram.ofStream (.ofText furnishing)).program
    let t := (ResolvedProgram.ofProgram p).table
    let named := ((Environment.empty.insertMethod 5 ⟨4⟩).insertMethod 7 ⟨9⟩).insertField 6 ⟨3⟩
    let typed := (named.insertType "int" ⟨0⟩).insertType "C" ⟨1⟩
    let e := typed.insertConstructor ⟨1⟩ ⟨2⟩
    ¬named.Covers t p ∧ ¬typed.Covers t p ∧ e.Covers t p ∧
      ∃ code entry task, generate t e p = .ok code ∧ code[9]? = some entry ∧
        Emit.CodeOf ⟨t, e⟩ p 9 entry task ∧
        entry.chunk.opcodes.filterMap Opcode.handle? =
          [.constructor ⟨2⟩, .field ⟨3⟩, .type ⟨0⟩, .field ⟨3⟩, .method ⟨9⟩] ∧
        (entry.chunk.opcodes.filterMap Opcode.handle?).map .ok =
          (Statement.referentsAll t task.statements).map e.handle := by
  intro p t named typed e
  obtain ⟨hread, hresolved, hnamed, htyped, hhandles⟩ :
      (ParsedProgram.ofStream (.ofText furnishing)).diagnostics = [] ∧
      (ResolvedProgram.ofProgram p).diagnostics = [] ∧
      (generate t named p).toOption.isSome = false ∧ (generate t typed p).toOption.isSome = false ∧
      ((generate t e p).toOption.bind (·[9]?)).map
          (fun entry => entry.chunk.opcodes.filterMap Opcode.handle?) =
        some [.constructor ⟨2⟩, .field ⟨3⟩, .type ⟨0⟩, .field ⟨3⟩, .method ⟨9⟩] := by
    decide +kernel
  have hp : Program.ofStream (.ofText furnishing) = .ok p :=
    Program.ofStream_eq_ok.mpr ⟨hread, rfl⟩
  have ht : SymbolTable.ofProgram p = .ok t := acceptUnless_eq_ok.mpr ⟨hresolved, rfl⟩
  have hfails {e : Environment} (hf : (generate t e p).toOption.isSome = false) :
      ¬e.Covers t p := by
    intro hc
    obtain ⟨code, hcode⟩ := (generate_covered hp ht e).1.mpr hc
    simp [hcode, Except.toOption] at hf
  obtain ⟨entry, hentry, hhandles⟩ := Option.map_eq_some_iff.mp hhandles
  obtain ⟨code, hcode, hentry⟩ := Option.bind_eq_some_iff.mp hentry
  have hcode : generate t e p = .ok code := Emit.Context.toOption_eq_some.mp hcode
  obtain ⟨hcovers, _, hheld⟩ := generate_covered hp ht e
  obtain ⟨task, hof, hh⟩ := hheld code hcode 9 entry hentry
  exact ⟨hfails hnamed, hfails htyped, hcovers.mp ⟨code, hcode⟩, code, entry, task, hcode, hentry,
    hof, hhandles, hh⟩

end ProgramCode

end MiniJava
