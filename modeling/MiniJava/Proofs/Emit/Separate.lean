import MiniJava.Proofs.Emit.Counterparts

namespace MiniJava

open Resolve Typing

section

variable {P : Position → Position → Prop} {e : String → String → Prop} {p p' : Program}

theorem flatMap_eq_of_forall₂ {R : α → β → Prop} {f : α → List γ} {g : β → List γ}
    (hR : ∀ a b, R a b → g b = f a) (h : List.Forall₂ R l l') : l'.flatMap g = l.flatMap f := by
  induction h with
  | nil         => rfl
  | cons h _ hi => rw [List.flatMap_cons, List.flatMap_cons, hR _ _ h, hi]

-- The names in a class.
structure SameNames (c c' : AnyClass) : Prop where
  name       : c'.name = c.name
  fields     : c'.fields.map (·.name) = c.fields.map (·.name)
  signatures : c'.signatures.map (·.name) = c.signatures.map (·.name)

theorem sameNames (hl : p.Like (.upTo P) e p') :
    List.Forall₂ SameNames (allClasses p) (allClasses p') := by
  refine List.rel_append ?mainClass ?classes
  case mainClass =>
    have h := hl.mainClass
    revert h
    generalize p.mainClass = o
    generalize p'.mainClass = o'
    intro h
    cases h with
    | none   => exact .nil
    | some h => exact .cons ⟨h.name, rfl, rfl⟩ .nil
  case classes =>
    refine List.forall₂_map_left_iff.mpr (List.forall₂_map_right_iff.mpr (hl.classes.imp fun c c' h => ?_))
    exact ⟨h.name, map_eq_of_forall₂ (fun _ _ hd => hd.name) (fields_like h.members),
      map_eq_of_forall₂ (fun _ _ hm => hm.name) (signatures_like h.members)⟩

theorem keys_eq {f : AnyClass → List β} {name : β → String}
    (hR : ∀ c c', SameNames c c' → (f c').map name = (f c).map name)
    (h : List.Forall₂ SameNames cs cs') :
    (cs'.flatMap fun c => (f c).map fun b => (c.name, name b)) =
      cs.flatMap fun c => (f c).map fun b => (c.name, name b) := by
  refine flatMap_eq_of_forall₂ (fun c c' h => ?_) h
  have he := congrArg (List.map (Prod.mk c.name)) (hR c c' h)
  rw [List.map_map, List.map_map] at he
  rw [h.name]
  exact he

theorem links_id (hl : p.Like (.upTo P) e p') : HandleMap.id.Links p p' := by
  have h := sameNames hl
  have htypes : p'.typeNames = p.typeNames :=
    congrArg (builtinTypes ++ ·) (map_eq_of_forall₂ (fun _ _ h => h.name) h)
  have hfields : p'.fieldKeys = p.fieldKeys := keys_eq (fun _ _ h => h.fields) h
  have hmethods : p'.methodKeys = p.methodKeys := keys_eq (fun _ _ h => h.signatures) h
  exact ⟨fun hk => ⟨_, htypes ▸ hk, rfl, rfl⟩, fun hk => ⟨_, hfields ▸ hk, rfl⟩,
    fun hk => ⟨_, hmethods ▸ hk, rfl⟩⟩

end

theorem Chunk.Like.opcodes {P : Position → Position → Prop} (h : Chunk.Like P .id c c') :
    c'.opcodes = c.opcodes :=
  map_eq_of_forall₂ (fun i _ hi => hi.opcode.trans (i.opcode.map_id)) h.instructions

-- The programs differ in numbers, in positions and in the statements of one method at most.
def Program.EqualBut (className method : String) (p p' : Program) : Prop :=
  p.Like (.upTo fun _ _ => True) (fun c m => c = className ∧ m = method) p'

namespace ProgramCode

-- Other methods keep their handles, their instructions and the targets of their branches.
theorem generate_separate (hp : Program.ofStream (.ofText text) = .ok p)
    (ht : SymbolTable.ofProgram p = .ok t) (hcode : generate t (.sequential t) p = .ok code)
    (hp' : Program.ofStream (.ofText text') = .ok p') (ht' : SymbolTable.ofProgram p' = .ok t')
    (hcode' : generate t' (.sequential t') p' = .ok code') (hd : p.EqualBut className method p')
    (htask : Emit.IsTask (.sequential t) p task) (hx : t.symbol? task.symbol = some x)
    (hne : (task.className, x.name) ≠ (className, method)) :
    ∃ task' x' handle entry entry', Emit.IsTask (.sequential t') p' task' ∧
      task'.className = task.className ∧ t'.symbol? task'.symbol = some x' ∧ x'.name = x.name ∧
      (Environment.sequential t).methodHandle task.symbol = .ok handle ∧
      (Environment.sequential t').methodHandle task'.symbol = .ok handle ∧
      code[handle.number]? = some entry ∧ code'[handle.number]? = some entry' ∧
      entry'.name = entry.name ∧ entry'.chunk.opcodes = entry.chunk.opcodes ∧
      entry'.chunk.labels = entry.chunk.labels := by
  have hpair : Pair p p' t t' .id :=
    .of_accepted (accepted_of_ofText hp ht) ht (accepted_of_ofText hp' ht') ht' (links_id hd)
  obtain ⟨task', x', htask', hclass, hx', hname, hentries⟩ :=
    hpair.exists_entries hd.permuted hcode hcode' htask hx fun he => hne (Prod.ext he.1 he.2)
  cases hentries with | intro hh hh' he he' hn hlike =>
  exact ⟨task', x', _, _, _, htask', hclass, hx', hname, hh, hh', he, he', hn, hlike.opcodes,
    hlike.labels⟩

def clamping : String :=
  "class M { public static void main() { } } class C { public int f(int y) { int z; if (y < 1) z = 1; else z = y; return z; } }"

def asking : String :=
  "class M { public static void main() { int x; x = new C().f(0); } } class C { public int f(int y) { int z; if (y < 1) z = 1; else z = y; return z; } }"

-- The class `C` of both texts, wherever it stands.
inductive Clamps : ClassDeclaration → Prop
  | intro :
    Clamps ⟨i₁, "C", none, [.method ⟨i₂, "f", ⟨"int", false⟩,
      [⟨i₃, "y", ⟨"int", false⟩, .formal, p₁⟩],
      [.declare ⟨i₄, "z", ⟨"int", false⟩, .localSlot, p₂⟩,
        .ifThenElse i₅ (.binary i₆ .less (.reference i₇ "y" p₃) (.integer i₈ 1 p₄) p₅)
          (.assign i₉ (.reference i₁₀ "z" p₆) (.integer i₁₁ 1 p₇) p₈)
          (.assign i₁₂ (.reference i₁₃ "z" p₉) (.reference i₁₄ "y" p₁₀) p₁₁) p₁₂,
        .ret i₁₅ (.reference i₁₆ "z" p₁₃) p₁₄], p₁₅⟩], p₁₆⟩

def clamps : ClassDeclaration → Bool
  | ⟨_, "C", none, [.method ⟨_, "f", ⟨"int", false⟩, [⟨_, "y", ⟨"int", false⟩, .formal, _⟩],
      [.declare ⟨_, "z", ⟨"int", false⟩, .localSlot, _⟩,
        .ifThenElse _ (.binary _ .less (.reference _ "y" _) (.integer _ 1 _) _)
          (.assign _ (.reference _ "z" _) (.integer _ 1 _) _)
          (.assign _ (.reference _ "z" _) (.reference _ "y" _) _) _,
        .ret _ (.reference _ "z" _) _], _⟩], _⟩ => true
  | _ => false

theorem Clamps.of_map {cs : List ClassDeclaration} (h : cs.map clamps = [true]) :
    ∃ c, cs = [c] ∧ Clamps c := by
  obtain ⟨c, rfl, hc⟩ := List.map_eq_singleton_iff.mp h
  refine ⟨c, rfl, ?clamps⟩
  unfold clamps at hc
  split at hc
  case h_1 => exact .intro
  case h_2 => cases hc

theorem Clamps.like (hc : Clamps c) (hc' : Clamps c') (e : String → Prop) :
    c.Like (.upTo fun _ _ => True) e c' := by
  cases hc with | intro =>
  cases hc' with | intro =>
  refine ⟨trivial, rfl, rfl, .cons (.method ?method) .nil, trivial⟩
  refine ⟨trivial, rfl, rfl, .cons ?formal .nil, fun _ => ?body, trivial⟩
  case formal => exact ⟨trivial, rfl, rfl, rfl, trivial⟩
  case body   =>
    refine .cons (.declare ⟨trivial, rfl, rfl, rfl, trivial⟩) (.cons ?branches (.cons ?ret .nil))
    case branches =>
      exact .ifThenElse trivial
        (.binary trivial (.reference trivial trivial) (.integer trivial trivial) trivial)
        (.assign trivial (.reference trivial trivial) (.integer trivial trivial) trivial)
        (.assign trivial (.reference trivial trivial) (.reference trivial trivial) trivial) trivial
    case ret      => exact .ret trivial (.reference trivial trivial) trivial

theorem generate_separate_asking :
    let p := (ParsedProgram.ofStream (.ofText clamping)).program
    let t := (ResolvedProgram.ofProgram p).table
    let p' := (ParsedProgram.ofStream (.ofText asking)).program
    let t' := (ResolvedProgram.ofProgram p').table
    p.EqualBut "M" "main" p' ∧ ∃ code code', generate t (.sequential t) p = .ok code ∧
      generate t' (.sequential t') p' = .ok code' ∧
      ∃ (handle : MethodHandle) (entry entry' : MethodCode), code[handle.number]? = some entry ∧
        code'[handle.number]? = some entry' ∧ entry.name = "C.f" ∧ entry'.name = entry.name ∧
        entry'.chunk.opcodes = entry.chunk.opcodes ∧ entry'.chunk.labels = entry.chunk.labels := by
  intro p t p' t'
  obtain ⟨hread, hresolved, hmain, hclasses⟩ :
      (ParsedProgram.ofStream (.ofText clamping)).diagnostics = [] ∧
      (ResolvedProgram.ofProgram p).diagnostics = [] ∧
      p.mainClass.map (·.name) = some "M" ∧ p.classes.map clamps = [true] := by
    decide +kernel
  obtain ⟨hread', hresolved', hmain', hclasses'⟩ :
      (ParsedProgram.ofStream (.ofText asking)).diagnostics = [] ∧
      (ResolvedProgram.ofProgram p').diagnostics = [] ∧
      p'.mainClass.map (·.name) = some "M" ∧ p'.classes.map clamps = [true] := by
    decide +kernel
  have hp : Program.ofStream (.ofText clamping) = .ok p := Program.ofStream_eq_ok.mpr ⟨hread, rfl⟩
  have ht : SymbolTable.ofProgram p = .ok t := acceptUnless_eq_ok.mpr ⟨hresolved, rfl⟩
  have hp' : Program.ofStream (.ofText asking) = .ok p' := Program.ofStream_eq_ok.mpr ⟨hread', rfl⟩
  have ht' : SymbolTable.ofProgram p' = .ok t' := acceptUnless_eq_ok.mpr ⟨hresolved', rfl⟩
  have ha := accepted_of_ofText hp ht
  obtain ⟨code, hcode⟩ := ha.exists_code
  obtain ⟨code', hcode'⟩ := (accepted_of_ofText hp' ht').exists_code
  obtain ⟨main, hmain, hn⟩ := Option.map_eq_some_iff.mp hmain
  obtain ⟨main', hmain', hn'⟩ := Option.map_eq_some_iff.mp hmain'
  obtain ⟨c, hc, hclamps⟩ := Clamps.of_map hclasses
  obtain ⟨c', hc', hclamps'⟩ := Clamps.of_map hclasses'
  have hd : p.EqualBut "M" "main" p' := by
    constructor
    case mainClass =>
      rw [hmain, hmain']
      exact .some ⟨trivial, hn'.trans hn.symm, fun he => absurd ⟨hn, rfl⟩ he, trivial⟩
    case classes   =>
      rw [hc, hc']
      exact .cons (hclamps.like hclamps' _) .nil
  have hmem : c ∈ p.classes := hc ▸ List.mem_singleton_self c
  cases hclamps with | intro =>
  obtain ⟨s, hs, _, _, hx⟩ := ha.exists_methodSymbol hmem (List.mem_singleton_self _)
  have htask : Emit.IsTask (.sequential t) p ⟨"C", s, _⟩ :=
    .method hmem (List.mem_singleton_self _) hs
  obtain ⟨_, _, handle, entry, entry', _, _, _, _, hh, _, he, he', hname, hos, hls⟩ :=
    generate_separate hp ht hcode hp' ht' hcode' hd htask hx
      fun he => (show "C" ≠ "M" by decide) (Prod.mk.inj he).1
  have htitle := ha.name_of_entry hcode htask hh he
  rw [Emit.MethodTask.title, show (Emit.Context.sequential t).table.symbol? s = _ from hx] at htitle
  exact ⟨hd, code, code', hcode, hcode', handle, entry, entry', he, he', htitle, hname, hos, hls⟩

end ProgramCode

end MiniJava
