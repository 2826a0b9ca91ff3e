import MiniJava.Proofs.Emit.Numbering
import MiniJava.Proofs.Semantics.Expression

namespace MiniJava

open Typing
open Resolve (AnyClass allClasses HasSlot)

-- The operand of an instruction in the code of a body, whose class has that lineage.
def Opcode.Grounded (p : Program) (t : SymbolTable) (code : ProgramCode) (lineage : List AnyClass)
    (b : Body) : Opcode → Prop
  | loadLocal k | storeLocal k => k < (Statement.localsOf b.statements).length
  | loadArg k => b.inMain = false ∧ k ≤ b.parameters.length
  | storeArg k => b.inMain = false ∧ 1 ≤ k ∧ k ≤ b.parameters.length
  | loadField f | storeField f =>
    b.inMain = false ∧ ∃ c ∈ lineage, ∃ d ∈ c.fields, ∃ s,
      t.declaredBy? d.id = some s ∧ (Environment.sequential t).fieldHandle s = .ok f
  | call m => ∃ entry, code[m.number]? = some entry
  | newObject k => ∃ c ∈ allClasses p, ∃ h,
    (Environment.sequential t).typeHandle c.name = .ok h ∧
      (Environment.sequential t).constructor h = .ok k
  | newArray h => ∃ name, Known p name ∧ (Environment.sequential t).typeHandle name = .ok h
  | _ => True

namespace Emit

-- What the context of a phrase has to provide so that the code of the phrase is grounded.
structure Grounds (p : Program) (t : SymbolTable) (code : ProgramCode) (lineage : List AnyClass) (b : Body)
    (Γ : Typing.Context) : Prop where
  program  : Γ.program = p
  slotted  : Slotted t b
  inMain   : Γ.inMain = b.inMain
  main     : b.inMain = true → b.parameters = [] ∧ ∀ c ∈ lineage, c.fields = []
  fields   : ∀ c ∈ lineage, ∀ d ∈ c.fields, d.storage = .field
  frames   : ∀ F ∈ Γ.frames, ∀ d ∈ F, (∃ c ∈ lineage, d ∈ c.fields) ∨ d ∈ b.variables
  methods  : ∀ className name m s h, HasMethod p className name m → t.HasMethod s m →
    (Environment.sequential t).methodHandle s = .ok h → ∃ entry, code[h.number]? = some entry

section

variable {p : Program} {t : SymbolTable} {code : ProgramCode} {l : List AnyClass} {b : Body} {Γ : Typing.Context}

namespace Grounds

theorem push (h : Grounds p t code l b Γ) (hF : ∀ d ∈ F, d ∈ b.variables) :
    Grounds p t code l b (Γ.push F) :=
  { h with frames := List.forall_mem_cons.mpr ⟨fun d hd => .inr (hF d hd), h.frames⟩ }

theorem covers (h : Grounds p t code l b Γ) : Covers b Γ := fun F hF d hd =>
  (h.frames F hF d hd).imp_left fun ⟨c, hc, hd⟩ => h.fields c hc d hd

-- The code of the main method has no formals and no fields to mention.
theorem inMain_of_field (h : Grounds p t code l b Γ) (hc : c ∈ l) (hd : d ∈ c.fields) :
    b.inMain = false := by
  rw [← Bool.not_eq_true]
  intro hm
  cases (h.main hm).2 c hc ▸ hd

theorem inMain_of_formal (h : Grounds p t code l b Γ) (hd : d ∈ b.parameters) : b.inMain = false := by
  rw [← Bool.not_eq_true]
  intro hm
  cases (h.main hm).1 ▸ hd

theorem field (h : Grounds p t code l b Γ) (hd : Γ.lookup? name = some d)
    (hr : t.notes.refersTo i d) (hv : variableAt (.sequential t) i = .ok (s, v))
    (hs : v.storage = .field) :
    b.inMain = false ∧ ∃ c ∈ l, ∃ d ∈ c.fields, t.declaredBy? d.id = some s := by
  have href := refers h.covers hd hr hv
  obtain ⟨_, F, hF, hdF⟩ := Context.mem_of_lookup? hd
  rcases h.frames F hF d hdF with ⟨c, hc, hd⟩ | hd
  case inl =>
    refine ⟨h.inMain_of_field hc hd, c, hc, d, hd, h.slotted.faithful s d.id ?_⟩
    rw [SymbolTable.declarationOf?, href.symbol]
    rfl
  case inr =>
    rw [href.storage] at hs
    rcases Body.mem_variables.mp hd with hd | hd
    case inl => cases hs.symm.trans (h.slotted.formal d hd)
    case inr => cases hs.symm.trans (h.slotted.localSlot d hd)

theorem formal (h : Grounds p t code l b Γ) (hd : Γ.lookup? name = some d)
    (hr : t.notes.refersTo i d) (hv : variableAt (.sequential t) i = .ok (s, v))
    (hs : v.storage = .formal) (hk : slotOf v = .ok k) :
    b.inMain = false ∧ 1 ≤ k ∧ k ≤ b.parameters.length := by
  have href := refers h.covers hd hr hv
  have hmem := href.mem_parameters h.slotted hs
  obtain ⟨j, rfl, hj⟩ :=
    getElem?_of_slot h.slotted.faithful h.slotted.formals hmem (href.hasSlot hk)
  have hlt := (List.getElem?_eq_some_iff.mp hj).1
  exact ⟨h.inMain_of_formal hmem, by omega, by omega⟩

theorem localSlot (h : Grounds p t code l b Γ) (hd : Γ.lookup? name = some d)
    (hr : t.notes.refersTo i d) (hv : variableAt (.sequential t) i = .ok (s, v))
    (hs : v.storage = .localSlot) (hk : slotOf v = .ok k) :
    k < (Statement.localsOf b.statements).length := by
  have href := refers h.covers hd hr hv
  obtain ⟨j, rfl, hj⟩ := getElem?_of_slot h.slotted.faithful h.slotted.locals
    (href.mem_locals h.slotted hs) (href.hasSlot hk)
  have hlt := (List.getElem?_eq_some_iff.mp hj).1
  omega

end Grounds

-- The operands of all instructions.
abbrev AllGrounded (p : Program) (t : SymbolTable) (code : ProgramCode) (l : List AnyClass)
    (b : Body) (is : List Instruction) : Prop :=
  ∀ i ∈ is, i.opcode.Grounded p t code l b

namespace AllGrounded

theorem append (h : AllGrounded p t code l b is) (h' : AllGrounded p t code l b js) :
    AllGrounded p t code l b (is ++ js) :=
  List.forall_mem_append.mpr ⟨h, h'⟩

theorem single (h : o.Grounded p t code l b) : AllGrounded p t code l b [⟨o, q⟩] :=
  List.forall_mem_singleton.mpr h

theorem concat (h : AllGrounded p t code l b is) (ho : o.Grounded p t code l b) :
    AllGrounded p t code l b (is ++ [⟨o, q⟩]) :=
  h.append (single ho)

end AllGrounded

theorem grounded_binaryOpcode (op : BinaryOperator) : (binaryOpcode op).Grounded p t code l b := by
  cases op <;> trivial

mutual

theorem Value.grounded (h : Grounds p t code l b Γ) (hval : Value (.sequential t) e is)
    (ht : HasType t.notes Γ e τ) (hp : e.Proper) : AllGrounded p t code l b is := by
  match e with
  | .call i receiver name arguments q =>
    cases hval with
    | length hr _ _ =>
      cases ht with
      | length hr' _ _ | call hr' _ _ _ _ _ _ => exact (hr.grounded h hr' hp.1).concat trivial
    | call hr hi hj hτ ha hs hm =>
      cases ht with
      | length hr' _ _ =>
        exact absurd (Option.some.inj (hj.symm.trans (typeOf?_eq hr' hi))) (hτ _)
      | call hr' ha' _ hmethod _ hc _ =>
        obtain ⟨s, hs', hsig⟩ := hc
        obtain rfl := Option.some.inj (hs.symm.trans hs')
        have hvalues := (hr.grounded h hr' hp.1).append (ha.grounded h ha' hp.2.1)
        exact hvalues.concat (h.methods _ _ _ _ _ (h.program ▸ hmethod) hsig hm)
  | .newObject i name q =>
    cases hval with | newObject hh hk =>
    cases ht with | newObject hn _ =>
    rw [h.program] at hn
    obtain ⟨c, hc, rfl⟩ := List.mem_map.mp (hn.resolve_left hp)
    exact .single ⟨c, hc, _, hh, hk⟩
  | .newArray i name size q =>
    cases hval with | newArray hh hs =>
    cases ht with | newArray hs' hn _ => exact (hs.grounded h hs' hp).concat ⟨name, h.program ▸ hn, hh⟩
  | .not i operand q =>
    cases hval with | not he =>
    cases ht with | not he' _ =>
    exact (he.grounded h he' hp).append (List.forall_mem_cons.mpr ⟨trivial, AllGrounded.single trivial⟩)
  | .binary i op left right q =>
    cases hval with | binary hl hr =>
    cases ht with
    | arithmetic hl' hr' | logical hl' hr' =>
      have hvalues := (hl.grounded h hl' hp.1).append (hr.grounded h hr' hp.2)
      exact hvalues.concat (grounded_binaryOpcode op)
  | .boolean .. => cases hval with | boolean => exact .single trivial
  | .integer .. => cases hval with | integer => exact .single trivial
  | .self .. =>
    cases hval with | self =>
    cases ht with | self hm _ => exact .single ⟨h.inMain ▸ hm, Nat.zero_le _⟩
  | .index i array subscript q =>
    cases hval with | index ha hs _ =>
    cases ht with | index ha' hs' _ =>
    exact ((ha.grounded h ha' hp.1).append (hs.grounded h hs' hp.2)).concat trivial
  | .reference i name q =>
    cases ht with | reference hd hr _ =>
    cases hval with
    | field hv hs hf =>
      obtain ⟨hm, c, hc, d, hd, hs⟩ := h.field hd hr hv hs
      have hload : AllGrounded p t code l b [⟨.loadArg 0, q⟩] := .single ⟨hm, Nat.zero_le _⟩
      exact hload.concat ⟨hm, c, hc, d, hd, _, hs, hf⟩
    | formal hv hs hk =>
      obtain ⟨hm, _, hle⟩ := h.formal hd hr hv hs hk
      exact .single ⟨hm, hle⟩
    | localSlot hv hs hk => exact .single (h.localSlot hd hr hv hs hk)

theorem Values.grounded (h : Grounds p t code l b Γ) (hval : Values (.sequential t) es is)
    (ht : HaveTypes t.notes Γ es) (hp : Expression.ProperAll es) :
    AllGrounded p t code l b is := by
  match es with
  | []      =>
    cases hval with | nil => exact nofun
  | e :: es =>
    cases hval with | cons he hes =>
    cases ht with | cons he' hes' =>
    exact (he.grounded h he' hp.1).append (hes.grounded h hes' hp.2)

end

theorem Address.grounded (h : Grounds p t code l b Γ) (ha : Address (.sequential t) e is)
    (ht : HasType t.notes Γ e τ) (hp : e.Proper) : AllGrounded p t code l b is := by
  cases ha with
  | field hv hs =>
    cases ht with | reference hd hr _ =>
    exact .single ⟨(h.field hd hr hv hs).1, Nat.zero_le _⟩
  | slot        => exact nofun
  | element ha hs =>
    cases ht with | index ha' hs' _ =>
    exact (ha.grounded h ha' hp.1).append (hs.grounded h hs' hp.2)

theorem Store.grounded (h : Grounds p t code l b Γ) (hs : Store (.sequential t) e o)
    (ht : HasType t.notes Γ e τ) : o.Grounded p t code l b := by
  cases hs with
  | field hv hs hf =>
    cases ht with | reference hd hr _ =>
    obtain ⟨hm, c, hc, d, hd, hs⟩ := h.field hd hr hv hs
    exact ⟨hm, c, hc, d, hd, _, hs, hf⟩
  | formal hv hs hk =>
    cases ht with | reference hd hr _ => exact h.formal hd hr hv hs hk
  | localSlot hv hs hk =>
    cases ht with | reference hd hr _ => exact h.localSlot hd hr hv hs hk
  | element => trivial

mutual

theorem Code.grounded {Γ : Typing.Context} (h : Grounds p t code l b Γ)
    (hF : ∀ d ∈ F, d ∈ b.variables) : Code (.sequential t) s n k is ts →
      Checks t.notes Γ F s F' → s.Proper → (∀ d ∈ s.locals, d ∈ b.variables) →
        AllGrounded p t code l b is
  | .declare, _, _, _ => nofun
  | .print he, .print he', hp, _ | .ret he, .ret he', hp, _ | .assert he, .assert he', hp, _
  | .drop he _ _, .call he', hp, _ => (he.grounded (h.push hF) he' hp).concat trivial
  | .call he _, .call he', hp, _ => he.grounded (h.push hF) he' hp
  | .block hss, .block hss', hp, hl => hss.grounded (F := []) (h.push hF) nofun hss' hp hl
  | .assign ht hval hs, .assign _ ht' hval', hp, _ =>
    have h := h.push hF
    ((ht.grounded h ht' hp.1).append (hval.grounded h hval' hp.2)).concat (hs.grounded h ht')
  | .ifThen he ht, .ifThen he' ht', hp, hl =>
    .concat (.append (.concat (he.grounded (h.push hF) he' hp.1) trivial)
      (ht.grounded h hF ht' hp.2 hl)) trivial
  | .ifThenElse he ht hf, .ifThenElse he' ht' hf', hp, hl => by
    obtain ⟨hlt, hlf⟩ := List.forall_mem_append.mp hl
    have hF' : ∀ d ∈ _, d ∈ b.variables := fun d hd => (ht'.mem hd).elim (hlt d) (hF d)
    refine .append (.concat (.append (.concat ?condition trivial) ?onTrue) trivial) ?onFalse
    case condition => exact he.grounded (h.push hF) he' hp.1
    case onTrue => exact ht.grounded h hF ht' hp.2.1 hlt
    case onFalse => exact hf.grounded h hF' hf' hp.2.2 hlf
  | .loop hb he, .loop he' hb', hp, hl =>
    .concat (.append (.append (.single trivial) (hb.grounded h hF hb' hp.2 hl))
      (he.grounded (h.push hF) he' hp.1)) trivial

theorem CodeAll.grounded {Γ : Typing.Context} (h : Grounds p t code l b Γ)
    (hF : ∀ d ∈ F, d ∈ b.variables) : CodeAll (.sequential t) ss n k is ts →
      ChecksAll t.notes Γ F ss F' → Statement.ProperAll ss →
        (∀ d ∈ Statement.localsOf ss, d ∈ b.variables) → AllGrounded p t code l b is
  | .nil, _, _, _ => nofun
  | .cons hs hss, .cons hs' hss', hp, hl => by
    obtain ⟨hls, hlss⟩ := List.forall_mem_append.mp hl
    have hF' : ∀ d ∈ _, d ∈ b.variables := fun d hd => (hs'.mem hd).elim (hls d) (hF d)
    exact (hs.grounded h hF hs' hp.1 hls).append (hss.grounded h hF' hss' hp.2 hlss)

end

end

end Emit

namespace Accepted

variable {p : Program} {t : SymbolTable}

theorem eq_of_hasMethod (h : Accepted p t) (ho : t.outlines = p.outerOutlines ++ p.innerOutlines)
    (hm : t.HasMethod s m) (hm' : t.HasMethod s' m) : s = s' := by
  obtain ⟨scope, owner, hx⟩ := hm
  obtain ⟨scope', owner', hx'⟩ := hm'
  exact h.eq_of_declaration ho hx hx' rfl rfl rfl

-- There is code to generate for every method of a class.
theorem exists_task (h : Accepted p t) (hc : c ∈ allClasses p) (hm : m ∈ c.signatures) :
    ∃ task, Emit.IsTask (.sequential t) p task ∧ t.HasMethod task.symbol m := by
  rcases mem_allClasses.mp hc with ⟨c, hmain, rfl⟩ | ⟨c, hclass, rfl⟩
  case inl =>
    obtain rfl := List.mem_singleton.mp hm
    obtain ⟨s, hs, hx⟩ := h.exists_mainSymbol hmain
    exact ⟨_, .main hmain hs, hx⟩
  case inr =>
    obtain ⟨d, hd, rfl⟩ := List.mem_map.mp hm
    obtain ⟨member, hmem, hd⟩ := List.mem_filterMap.mp hd
    cases member with
    | method d'             =>
      obtain rfl := Option.some.inj hd
      obtain ⟨s, hs, hx⟩ := h.exists_methodSymbol hclass hmem
      exact ⟨_, .method hclass hmem hs, hx⟩
    | field _ | malformed _ => cases hd

theorem exists_entry_of_hasMethod (h : Accepted p t)
    (ho : t.outlines = p.outerOutlines ++ p.innerOutlines)
    (hcode : ProgramCode.generate t (.sequential t) p = .ok code) (hm : HasMethod p className name m)
    (hs : t.HasMethod s m) (hh : (Environment.sequential t).methodHandle s = .ok handle) :
    ∃ entry, code[handle.number]? = some entry := by
  cases hm with
  | intro hl hm =>
    obtain ⟨c, hc, hm⟩ := List.exists_of_findSome?_eq_some hm
    obtain ⟨task, htask, hs'⟩ := h.exists_task (hl.subset c hc) (List.mem_of_find?_eq_some hm)
    obtain ⟨handle', entry, hh', he, _⟩ := h.exists_entry hcode htask
    rw [h.eq_of_hasMethod ho hs hs'] at hh
    obtain rfl := Except.ok.inj (hh.symm.trans hh')
    exact ⟨entry, he⟩

-- The main class has no formals, no fields and no superclass.
theorem main_of_inMain {c : AnyClass} (hl : Lineage p c l) (hb : b ∈ c.bodies)
    (hm : b.inMain = true) : b.parameters = [] ∧ ∀ c ∈ l, c.fields = [] := by
  cases c with
  | main c    =>
    obtain rfl := List.mem_singleton.mp hb
    cases hl with
    | root        => exact ⟨rfl, List.forall_mem_singleton.mpr rfl⟩
    | extend _ hs => cases hs
  | regular c =>
    obtain ⟨m, _, rfl⟩ := List.mem_map.mp hb
    cases hm

theorem grounds (h : Accepted p t) (ho : t.outlines = p.outerOutlines ++ p.innerOutlines)
    (hcode : ProgramCode.generate t (.sequential t) p = .ok code) (hl : Lineage p c l)
    (hb : b ∈ c.bodies) : Emit.Grounds p t code l b (bodyContext p c l b) where
  program := rfl
  slotted := h.slotted hl.mem hb
  inMain  := rfl
  main    := main_of_inMain hl hb
  fields c' hc' d hd := h.storage_of_field (hl.subset c' hc') hd
  frames F hF d hd := by
    obtain ⟨c', hc', rfl⟩ := List.mem_map.mp hF
    exact .inl ⟨c', hc', hd⟩
  methods _ _ _ _ _ hm hs hh := h.exists_entry_of_hasMethod ho hcode hm hs hh

end Accepted

namespace ProgramCode

-- The chunk of a method mentions the locals and formals of the method, fields of its class and of
-- the classes that this extends, methods that have code, and types of the program, and nothing else.
-- There are no formals and no fields in the chunk of the main method.
theorem generate_grounded (hp : Program.ofStream (.ofText text) = .ok p)
    (ht : SymbolTable.ofProgram p = .ok t) (hcode : generate t (.sequential t) p = .ok code)
    (htask : Emit.IsTask (.sequential t) p task) :
    ∃ c m b l handle entry, Emit.MethodOf p t task c m b ∧ Lineage p c l ∧
      (Environment.sequential t).methodHandle task.symbol = .ok handle ∧
      code[handle.number]? = some entry ∧
      ∀ i ∈ entry.chunk.instructions, i.opcode.Grounded p t code l b := by
  have ha := accepted_of_ofText hp ht
  have ho := outlines_ofProgram ha.proper ha.nodup ht
  obtain ⟨handle, entry, hh, he, hof⟩ := ha.exists_entry hcode htask
  obtain ⟨c, m, b, hm⟩ := ha.exists_methodOf htask
  obtain ⟨l, hl⟩ := ha.exists_lineage hm.declared
  obtain ⟨is, ts, his, hchunk⟩ := (Emit.chunk_eq_ok (htask.nodup ha.nodup)).mp hof.chunk
  obtain ⟨F, hF⟩ := (ha.resolved.passes c l hl b hm.body).checks.statements
  have hp := (Resolve.body_of_proper (Resolve.proper_of_mem ha.proper hm.declared) hm.body).2
  rw [← hm.statements] at his
  have his : Emit.AllGrounded p t code l b is :=
    his.grounded (ha.grounds ho hcode hl hm.body)
      (fun d hd => Body.mem_variables.mpr (.inl (List.mem_reverse.mp hd))) hF hp
      fun d hd => Body.mem_variables.mpr (.inr hd)
  have hret : Emit.AllGrounded p t code l b (Emit.trailing task.statements) := by
    unfold Emit.trailing
    split
    case isTrue  => exact nofun
    case isFalse => exact .single trivial
  refine ⟨c, m, b, l, handle, entry, hm, hl, hh, he, fun i hi => his.append hret i ?_⟩
  rw [← hchunk] at hi
  simpa using hi

def furnishing : String :=
  "class M { public static void main() { } } class C { C next; public int f(int n) { int[] a; next = new C(); a = new int[n]; return next.f(n); } }"

theorem generate_grounded_furnishing :
    let p := (ParsedProgram.ofStream (.ofText furnishing)).program
    let t := (ResolvedProgram.ofProgram p).table
    ∃ code task c m b l, ∃ (handle : MethodHandle) (entry : MethodCode),
      generate t (.sequential t) p = .ok code ∧ Emit.MethodOf p t task c m b ∧ Lineage p c l ∧
      task.symbol = 7 ∧ code[handle.number]? = some entry ∧
      ∀ i ∈ entry.chunk.instructions, i.opcode.Grounded p t code l b := by
  intro p t
  obtain ⟨hread, hresolved, c, hc, m, hm, hs⟩ :
      (ParsedProgram.ofStream (.ofText furnishing)).diagnostics = [] ∧
      (ResolvedProgram.ofProgram p).diagnostics = [] ∧
      ∃ c ∈ p.classes, ∃ m ∈ c.methods, t.declaredBy? m.id = some 7 := by
    decide +kernel
  have hp : Program.ofStream (.ofText furnishing) = .ok p :=
    Program.ofStream_eq_ok.mpr ⟨hread, rfl⟩
  have ht : SymbolTable.ofProgram p = .ok t := acceptUnless_eq_ok.mpr ⟨hresolved, rfl⟩
  obtain ⟨code, hcode⟩ := (accepted_of_ofText hp ht).exists_code
  obtain ⟨member, hmem, hm⟩ := List.mem_filterMap.mp hm
  cases member with
  | field _ | malformed _ => cases hm
  | method m'             =>
    obtain rfl := Option.some.inj hm
    have htask : Emit.IsTask (.sequential t) p ⟨c.name, 7, m'.body⟩ := .method hc hmem hs
    obtain ⟨c, m, b, l, handle, entry, hof, hl, _, he, hi⟩ := generate_grounded hp ht hcode htask
    exact ⟨code, _, c, m, b, l, handle, entry, hcode, hof, hl, rfl, he, hi⟩

end ProgramCode

end MiniJava
