import MiniJava.Proofs.Emit.Program
import MiniJava.Proofs.Emit.Total
import MiniJava.Proofs.Resolve.Scoping

namespace MiniJava

open Resolve Typing

-- What is known of a program that the reading and the resolution accept.
structure Accepted (p : Program) (t : SymbolTable) : Prop where
  proper   : p.Proper
  nodup    : p.nodeIds.Nodup
  resolved : Resolved p t
  tree     : t.Tree

theorem tree_of_ofProgram (h : SymbolTable.ofProgram p = .ok t) : t.Tree := by
  obtain ⟨_, rfl⟩ := acceptUnless_eq_ok.mp h
  exact tree_final p

theorem accepted_of_proper (hp : p.Proper) (hn : p.nodeIds.Nodup)
    (ht : SymbolTable.ofProgram p = .ok t) : Accepted p t := by
  refine ⟨hp, hn, ?_, tree_of_ofProgram ht⟩
  have hv := verdict_ofProgram hp hn
  rw [ht] at hv
  cases hv with | accepted hr => exact hr

theorem accepted_of_ofText (h : Program.ofStream (.ofText text) = .ok p)
    (ht : SymbolTable.ofProgram p = .ok t) : Accepted p t :=
  accepted_of_proper (Program.proper_of_ofText h) (Program.nodup_of_ofText h) ht

theorem Resolve.HasSlot.of_slots {ds : List VariableDeclaration} (h : Slots t ds next)
    (hd : d ∈ ds) : ∃ k, HasSlot t d (some k) := by
  obtain ⟨k, hk⟩ := List.mem_iff_getElem?.mp hd
  exact ⟨_, h k d hk⟩

namespace Emit

-- What is known of the method that a task is for.
structure MethodOf (p : Program) (t : SymbolTable) (task : MethodTask) (c : AnyClass)
    (m : Signature) (b : Body) : Prop where
  declared   : c ∈ allClasses p
  body       : b ∈ c.bodies
  statements : b.statements = task.statements
  signature  : m ∈ c.signatures
  parameters : m.parameters = b.parameters.map fun d => Resolve.staticType d.type
  symbol     : t.HasMethod task.symbol m

end Emit

namespace Accepted

variable {p : Program} {t : SymbolTable}

theorem exists_lineage (h : Accepted p t) (hc : c ∈ allClasses p) : ∃ l, Lineage p c l := by
  obtain ⟨ds, hds⟩ := h.resolved.declared
  obtain ⟨D, hD, rfl⟩ := hds.exists_of_mem hc
  exact hds.lineage D hD

theorem exists_typeHandle (h : Accepted p t) (hk : Known p name) :
    ∃ handle, (Environment.sequential t).typeHandle name = .ok handle := by
  obtain ⟨ds, hds⟩ := h.resolved.declared
  cases hk with
  | inl hb =>
    obtain ⟨x, _, hx⟩ := hds.progress.types.builtin name hb
    exact Environment.exists_typeHandle hx rfl
  | inr hc =>
    obtain ⟨D, hD, rfl⟩ := List.mem_map.mp (hds.names ▸ hc)
    exact Environment.exists_typeHandle (hds.members hD).symbol rfl

theorem storage_of_field (h : Accepted p t) (hc : c ∈ allClasses p) (hd : d ∈ c.fields) :
    d.storage = .field := by
  have hp := proper_of_mem h.proper hc
  cases c with
  | main c    => cases hd
  | regular c =>
    obtain ⟨m, hm, hd⟩ := List.mem_filterMap.mp hd
    have hmp := hp.members m hm
    cases m with
    | field d'              => exact Option.some.inj hd ▸ hmp
    | method _ | malformed _ => cases hd

theorem provides (h : Accepted p t) (hl : Lineage p c l) (b : Body) :
    Emit.Provides t (bodyContext p c l b) where
  tree     := h.tree
  faithful := h.resolved.faithful
  types _  := h.exists_typeHandle
  frames F hF d hd := by
    obtain ⟨c', hc', rfl⟩ := List.mem_map.mp hF
    exact .inl (h.storage_of_field (hl.subset c' hc') hd)

theorem exists_codeAll (h : Accepted p t) (hl : Lineage p c l) (hb : b ∈ c.bodies) :
    ∃ is ts, Emit.CodeAll (.sequential t) b.statements 0 0 is ts := by
  have hpass := h.resolved.passes c l hl b hb
  obtain ⟨F, hF⟩ := hpass.checks.statements
  refine Emit.exists_codeAll (h.provides hl b) (fun d hd => ?formals) 0 0 hF
    (body_of_proper (proper_of_mem h.proper hl.mem) hb).2 fun d hd => ?locals
  case formals => exact .inr (HasSlot.of_slots hpass.formals (List.mem_reverse.mp hd))
  case locals => exact .inr (HasSlot.of_slots hpass.locals hd)

-- The symbol of a method is the one that its class has for its name.
theorem exists_symbol (h : Accepted p t) (hc : c ∈ allClasses p) (hm : m ∈ c.signatures) :
    ∃ b s, (t.scopeOf? c.id).bind t.scope? = some b ∧ b.lookup .methodNames m.name = some s ∧
      t.HasMethod s m := by
  obtain ⟨ds, hds⟩ := h.resolved.declared
  obtain ⟨D, hD, rfl⟩ := hds.exists_of_mem hc
  have hmem := hds.members hD
  obtain ⟨b, hb, _, _, _, _, hS⟩ := hmem.scope
  have hS := hS m.name
  have hfind : D.declaration.signatures.find? (·.name = m.name) = some m :=
    (find?_eq_some_iff_of_nodup (hds.classOk hc).methods).mpr ⟨hm, rfl⟩
  rw [hfind] at hS
  generalize hs : b.lookup .methodNames m.name = s at hS
  cases hS with
  | some hm => exact ⟨b, _, by rw [hmem.node, Option.bind_some, hb], hs, hm⟩

theorem exists_fieldSymbol (h : Accepted p t) (hc : c ∈ allClasses p) (hd : d ∈ c.fields) :
    ∃ s, t.HasVariable s d := by
  obtain ⟨ds, hds⟩ := h.resolved.declared
  obtain ⟨D, hD, rfl⟩ := hds.exists_of_mem hc
  obtain ⟨b, _, _, _, _, hF, _⟩ := (hds.members hD).scope
  have hF := hF d.name
  have hfind : D.declaration.fields.find? (·.name = d.name) = some d :=
    (find?_eq_some_iff_of_nodup (hds.classOk hc).fields).mpr ⟨hd, rfl⟩
  rw [hfind] at hF
  generalize b.lookup .variableNames d.name = s at hF
  cases hF with
  | some hd => exact ⟨_, hd⟩

theorem exists_mainSymbol (h : Accepted p t) (hc : p.mainClass = some c) :
    ∃ s, Emit.mainSymbol (.sequential t) c = .ok s ∧ t.HasMethod s ⟨"main", .void, [], none⟩ := by
  have hmem : AnyClass.main c ∈ allClasses p := mem_allClasses.mpr (.inl ⟨c, hc, rfl⟩)
  obtain ⟨b, s, hb, hs, hm⟩ := h.exists_symbol hmem (List.mem_singleton_self _)
  refine ⟨s, ?_, hm⟩
  obtain ⟨i, hi, hb⟩ := Option.bind_eq_some_iff.mp hb
  have hi : t.scopeOf? c.id = some i := hi
  simp [Emit.mainSymbol, Emit.Context.sequential, hi, hb, hs]

theorem exists_methodSymbol (h : Accepted p t) (hc : c ∈ p.classes) (hm : .method m ∈ c.members) :
    ∃ s, t.declaredBy? m.id = some s ∧ t.HasMethod s m.signature := by
  have hmem : AnyClass.regular c ∈ allClasses p := mem_allClasses.mpr (.inr ⟨c, hc, rfl⟩)
  have hsig : m.signature ∈ (AnyClass.regular c).signatures :=
    List.mem_map_of_mem (List.mem_filterMap.mpr ⟨_, hm, rfl⟩)
  obtain ⟨_, s, _, _, hs⟩ := h.exists_symbol hmem hsig
  refine ⟨s, h.resolved.faithful s m.id ?_, hs⟩
  obtain ⟨scope, owner, hx⟩ := hs
  rw [SymbolTable.declarationOf?, hx]
  rfl

theorem methodOf_main (h : Accepted p t) (hc : p.mainClass = some c)
    (hs : Emit.mainSymbol (.sequential t) c = .ok s) :
    Emit.MethodOf p t ⟨c.name, s, c.body⟩ (.main c) ⟨"main", .void, [], none⟩
      ⟨[], c.body, true⟩ := by
  obtain ⟨s', hs', hm⟩ := h.exists_mainSymbol hc
  obtain rfl := Except.ok.inj (hs.symm.trans hs')
  exact ⟨mem_allClasses.mpr (.inl ⟨c, hc, rfl⟩), List.mem_singleton_self _, rfl,
    List.mem_singleton_self _, rfl, hm⟩

theorem methodOf_method (h : Accepted p t) (hc : c ∈ p.classes) (hm : .method m ∈ c.members)
    (hs : t.declaredBy? m.id = some s) :
    Emit.MethodOf p t ⟨c.name, s, m.body⟩ (.regular c) m.signature m.toBody := by
  obtain ⟨s', hs', hsig⟩ := h.exists_methodSymbol hc hm
  obtain rfl := Option.some.inj (hs.symm.trans hs')
  have hmem : m ∈ c.methods := List.mem_filterMap.mpr ⟨_, hm, rfl⟩
  exact ⟨mem_allClasses.mpr (.inr ⟨c, hc, rfl⟩), List.mem_map_of_mem (f := (·.toBody)) hmem, rfl,
    List.mem_map_of_mem hmem, rfl, hsig⟩

theorem exists_methodOf (h : Accepted p t) (ht : Emit.IsTask (.sequential t) p task) :
    ∃ c m b, Emit.MethodOf p t task c m b := by
  cases ht with
  | main hc hs      => exact ⟨_, _, _, h.methodOf_main hc hs⟩
  | method hc hm hs => exact ⟨_, _, _, h.methodOf_method hc hm hs⟩

theorem exists_methodHandle (h : Accepted p t) (ht : Emit.IsTask (.sequential t) p task) :
    ∃ m, (Environment.sequential t).methodHandle task.symbol = .ok m := by
  obtain ⟨_, _, _, hm⟩ := h.exists_methodOf ht
  obtain ⟨scope, owner, hx⟩ := hm.symbol
  exact Environment.exists_methodHandle hx rfl

theorem exists_chunk (h : Accepted p t) (ht : Emit.IsTask (.sequential t) p task) :
    ∃ c, Emit.chunk (.sequential t) task.statements = .ok c := by
  obtain ⟨c, m, b, hm⟩ := h.exists_methodOf ht
  obtain ⟨l, hl⟩ := h.exists_lineage hm.declared
  obtain ⟨is, ts, hcode⟩ := h.exists_codeAll hl hm.body
  rw [hm.statements] at hcode
  exact ⟨_, (Emit.chunk_eq_ok (ht.nodup h.nodup)).mpr ⟨is, ts, hcode, rfl⟩⟩

theorem exists_method (h : Accepted p t) (ht : Emit.IsTask (.sequential t) p task)
    (code : ProgramCode) : ∃ code', Emit.method (.sequential t) code task = .ok code' := by
  obtain ⟨m, hm⟩ := h.exists_methodHandle ht
  obtain ⟨c, hc⟩ := h.exists_chunk ht
  exact ⟨_, Emit.method_eq_ok.mpr ⟨m, c, hm, hc, rfl⟩⟩

end Accepted

namespace Emit

-- A run whose steps end well ends well.
theorem exists_foldlM {as : List α} {f : β → α → Except ε β}
    (hf : ∀ a ∈ as, ∀ b, ∃ b', f b a = .ok b') (b : β) : ∃ b', as.foldlM f b = .ok b' := by
  induction as generalizing b with
  | nil          => exact ⟨b, rfl⟩
  | cons a as hi =>
    obtain ⟨b₁, hb₁⟩ := hf a List.mem_cons_self b
    obtain ⟨b', hb'⟩ := hi (fun a ha => hf a (List.mem_cons_of_mem _ ha)) b₁
    rw [List.foldlM_cons]
    exact ⟨b', bind_eq_ok.mpr ⟨b₁, hb₁, hb'⟩⟩

end Emit

namespace Accepted

variable {p : Program} {t : SymbolTable}

-- A program has code against an environment if each of its methods has.
theorem exists_code_of_methods (h : Accepted p t) {e : Environment}
    (hmethods : ∀ task, Emit.IsTask ⟨t, e⟩ p task →
      ∀ code, ∃ code', Emit.method ⟨t, e⟩ code task = .ok code') :
    ∃ code, ProgramCode.generate t e p = .ok code := by
  have hmember {c : ClassDeclaration} (hc : c ∈ p.classes) {m} (hm : m ∈ c.members)
      (code : ProgramCode) : ∃ code', Emit.member ⟨t, e⟩ c.name code m = .ok code' := by
    cases m with
    | field d     => exact ⟨code, rfl⟩
    | malformed _ => exact ((h.proper.classes c hc).members _ hm).elim
    | method m    =>
      obtain ⟨s, hs, _⟩ := h.exists_methodSymbol hc hm
      obtain ⟨code', hcode⟩ := hmethods _ (.method hc hm hs) code
      exact ⟨code', Emit.bind_eq_ok.mpr ⟨s, Emit.orMissing_eq_ok.mpr hs, hcode⟩⟩
  obtain ⟨c, hc, _⟩ := h.proper.mainClass
  obtain ⟨s, hs, _⟩ := h.exists_mainSymbol hc
  obtain ⟨code₁, h₁⟩ := hmethods _ (.main hc hs) ∅
  have hclasses (code : ProgramCode) :
      ∃ code', p.classes.foldlM (Emit.classCode ⟨t, e⟩) code = .ok code' :=
    Emit.exists_foldlM (fun c hc _ => Emit.exists_foldlM (fun _ hm => hmember hc hm) _) code
  obtain ⟨code, hcode⟩ := hclasses code₁
  refine ⟨code, ProgramCode.generate_eq_ok.mpr ?_⟩
  simp only [Emit.program, Emit.bind_eq_ok, Emit.orMissing_eq_ok]
  exact ⟨c, hc, s, hs, code₁, h₁, hcode⟩

theorem exists_code (h : Accepted p t) :
    ∃ code, ProgramCode.generate t (.sequential t) p = .ok code :=
  h.exists_code_of_methods fun _ ht => h.exists_method ht

end Accepted

namespace Compilation

-- A text is compiled, or rejected for what the reading has found, or, if that is nothing, for what
-- the resolution has found. Code is always generated for what has not been rejected.
theorem ofText_cases (text : String) :
    ((∃ c, ofText text = .ok c) ∨
      ∃ ds, ofText text = .error (.rejected ds) ∧ ds ≠ [] ∧
        (((ParsedProgram.ofStream (.ofText text)).diagnostics = ds ∧
            ∀ d ∈ ds, d.kind = .lexical ∨ d.kind = .grammatical) ∨
          (ParsedProgram.ofStream (.ofText text)).diagnostics = [] ∧
            ∀ d ∈ ds, d.kind = .semantic)) ∧
    ∀ p t, Program.ofStream (.ofText text) = .ok p → SymbolTable.ofProgram p = .ok t →
      ∃ code, ProgramCode.generate t (.sequential t) p = .ok code := by
  have hgenerate (p t) (hp : Program.ofStream (.ofText text) = .ok p)
      (ht : SymbolTable.ofProgram p = .ok t) :
      ∃ code, ProgramCode.generate t (.sequential t) p = .ok code :=
    (accepted_of_ofText hp ht).exists_code
  refine ⟨?_, hgenerate⟩
  by_cases hd : (ParsedProgram.ofStream (.ofText text)).diagnostics = []
  case neg =>
    refine .inr ⟨_, ?_, hd, .inl ⟨rfl, fun d => ParsedProgram.kind_of_mem_diagnostics⟩⟩
    have hp : Program.ofStream (.ofText text) =
        .error (.rejected (ParsedProgram.ofStream (.ofText text)).diagnostics) :=
      if_neg (mt List.isEmpty_iff.mp hd)
    rw [ofText, hp]
    rfl
  case pos =>
    obtain ⟨p, hp⟩ : ∃ p, Program.ofStream (.ofText text) = .ok p :=
      ⟨_, Program.ofStream_eq_ok.mpr ⟨hd, rfl⟩⟩
    have hv := verdict_ofProgram (Program.proper_of_ofText hp) (Program.nodup_of_ofText hp)
    generalize ht : SymbolTable.ofProgram p = out at hv
    cases hv with
    | rejected _ hne hs =>
      refine .inr ⟨_, ?_, hne, .inr ⟨hd, hs⟩⟩
      rw [ofText, hp]
      show (SymbolTable.ofProgram p >>= _) = _
      rw [ht]
      rfl
    | @accepted t hr =>
      obtain ⟨code, hcode⟩ := hgenerate p t hp ht
      refine .inl ⟨⟨p, code⟩, ?_⟩
      rw [ofText, hp]
      show (SymbolTable.ofProgram p >>= _) = _
      rw [ht]
      show (ProgramCode.generate t (.sequential t) p >>= _) = _
      rw [hcode]
      rfl

theorem ofText_cases_measuring :
    ∃ p t code, Program.ofStream (.ofText measuring) = .ok p ∧ SymbolTable.ofProgram p = .ok t ∧
      ProgramCode.generate t (.sequential t) p = .ok code := by
  obtain ⟨p, t, hp, ht⟩ := exists_table_measuring
  obtain ⟨code, hcode⟩ := (ofText_cases measuring).2 p t hp ht
  exact ⟨p, t, code, hp, ht, hcode⟩

end Compilation

end MiniJava
