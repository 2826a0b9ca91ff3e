import MiniJava.Proofs.Emit.Entries
import MiniJava.Proofs.Semantics.Placement
import MiniJava.Proofs.Semantics.Progress

namespace MiniJava

open Machine Resolve
open Emit (endsInReturn trailing)

variable {V W X : Type} {t : SymbolTable} {r : Runtime (.sequential t) V W X} {object : V}

theorem Executes.isReturn_eq_false (h : Executes r object s σ w (.falls σ' w')) :
    s.isReturn = false := by
  cases s with
  | ret i e p => cases h with | done hd => cases hd
  | _         => rfl

-- Control does not fall to the end of a body that ends in a return.
theorem ExecutesAll.endsInReturn_eq_false (h : ExecutesAll r object ss σ w (.falls σ' w')) :
    endsInReturn ss = false := by
  match h with
  | .nil                   => rfl
  | .leave _ hn            => exact absurd rfl (hn _ _)
  | .cons hs .nil          => exact hs.isReturn_eq_false
  | .cons _ (.leave _ hn)  => exact absurd rfl (hn _ _)
  | .cons _ (.cons hs hss) =>
    have hi := (ExecutesAll.cons hs hss).endsInReturn_eq_false
    simpa [endsInReturn] using hi

section

variable {c : Chunk} {A : Memory V → Registers V → Prop} {σ : Memory V} {f : Registers V} {w : W}

-- What a body that stands at the start of a chunk, with a return behind it, ends in, the machine
-- ends in as well.
theorem Evaluates.runs (hs : StandsAll r object A c ss 0 n)
    (hr : endsInReturn ss = false → OpcodeAt c n .ret) (ha : A σ f)
    (he : Evaluates r object τ ss σ w o) : Runs r τ c ⟨0, [], f, w⟩ o := by
  obtain ⟨out, he, rfl⟩ := he
  have harr := he.arrives (τ := τ) hs ha
  cases out with
  | falls σ' w'            =>
    obtain ⟨f', _, hreach⟩ := harr
    have hret : Runs r τ c ⟨n, [], f', w'⟩ (.returned (if τ = .void then none else none) w') :=
      (hr he.endsInReturn_eq_false).runs_ret
    rw [ite_self] at hret
    exact hreach.runs hret
  | returns v w' | fails x => exact harr

theorem runs_iff_evaluates (hs : StandsAll r object A c ss 0 n)
    (hr : endsInReturn ss = false → OpcodeAt c n .ret) (ha : A σ f) (o : Ending V W X) :
    Runs r τ c ⟨0, [], f, w⟩ o ↔ Evaluates r object τ ss σ w o := by
  constructor
  case mp =>
    rintro ⟨k, hk⟩
    obtain ⟨out, he⟩ := exists_executesAll ss hs ha hk
    have he : Evaluates r object τ ss σ w (out.ending τ) := ⟨out, he, rfl⟩
    exact (he.runs hs hr ha).unique ⟨k, hk⟩ ▸ he
  case mpr => exact fun h => h.runs hs hr ha

end

namespace Accepted

variable {p : Program}

theorem covers (h : Accepted p t) (hl : Typing.Lineage p c l) (b : Body) :
    Covers b (Typing.bodyContext p c l b) := by
  intro F hF d hd
  obtain ⟨c', hc', rfl⟩ := List.mem_map.mp hF
  exact .inl (h.storage_of_field (hl.subset c' hc') hd)

-- The body of a method stands at the start of the chunk of the method.
theorem standsAll (h : Accepted p t) (ht : Emit.IsTask (.sequential t) p task)
    (hm : Emit.MethodOf p t task d m b) (hv : Statement.allValued t task.statements)
    (hc : Emit.chunk (.sequential t) task.statements = .ok c) (r : Runtime (.sequential t) V W X)
    (object : V) :
    ∃ n, StandsAll r object (Agrees t b object) c task.statements 0 n ∧
      (endsInReturn task.statements = false → OpcodeAt c n .ret) := by
  obtain ⟨is, ts, hcode, rfl⟩ := (Emit.chunk_eq_ok (ht.nodup h.nodup)).mp hc
  obtain ⟨l, hl⟩ := h.exists_lineage hm.declared
  obtain ⟨F, hF⟩ := (h.resolved.passes d l hl b hm.body).checks.statements
  have hslots := h.slotted hm.declared hm.body
  have hhas : Has (Chunk.empty.extend (is ++ trailing task.statements) ts) 0 _ := has_extend
  obtain ⟨hhas, hret⟩ := Each.append.mp hhas
  rw [hm.statements] at hF
  refine ⟨_, standsAll_of_code hslots hcode hF hv (h.covers hl b) (fun d hd => ?formals)
    (fun d hd => ?locals) Chunk.bound_extend hhas, fun he => ?stop⟩
  case formals => exact Body.mem_variables.mpr (.inl (List.mem_reverse.mp hd))
  case locals => exact Body.mem_variables.mpr (.inr (hm.statements ▸ hd))
  case stop =>
    have htr : trailing task.statements = [⟨.ret, none⟩] := by simp [trailing, he]
    simp only [htr] at hret ⊢
    exact ⟨_, hret.1⟩

end Accepted

-- Integers for all values. Objects have no state, arrays have no elements, what is printed is kept.
def Runtime.printing (g : Emit.Context) : Runtime g Int (List Int) Unit where
  integer n             := n
  isZero n              := n = 0
  binary
    | .add, m, n => return m + n
    | .sub, m, n => return m - n
    | .less, m, n => return if m < n then 1 else 0
    | .equal, m, n => return if m = n then 1 else 0
    | _, _, _ => throw ()
  loadField _ _         := return 0
  storeField _ _ _      := return ()
  loadElement _ _ _     := throw ()
  storeElement _ _ _ _  := throw ()
  arrayLength _         := return 0
  newArray _ _          := return 0
  newObject _           := return 0
  call h _ _            := return if (g.callee? h).any (·.returns ≠ .void) then some 0 else none
  print n               := modify (n :: ·)
  assert n              := if n = 0 then throw () else return ()
  isSome_call hm h      := by
    cases h
    simp [hm]

namespace ProgramCode

-- The code of a method that needs no value of a method that gives none, whatever the primitives do
-- and whatever the formals and the locals hold. The machine does not get stuck on its way.
theorem generate_correct (hp : Program.ofStream (.ofText text) = .ok p)
    (ht : SymbolTable.ofProgram p = .ok t) (hcode : generate t (.sequential t) p = .ok code)
    (htask : Emit.IsTask (.sequential t) p task) (hv : Statement.allValued t task.statements)
    (r : Runtime (.sequential t) V W X) :
    ∃ c m b handle entry, Emit.MethodOf p t task c m b ∧
      (Environment.sequential t).methodHandle task.symbol = .ok handle ∧
      code[handle.number]? = some entry ∧
      (∀ (object : V) (σ : Memory V), ∃ f, Agrees t b object σ f) ∧
      (∀ f : Registers V, ∃ σ, Agrees t b (f.arguments 0) σ f) ∧
      ∀ object σ f w, Agrees t b object σ f →
        (∀ o, Runs r m.returns entry.chunk ⟨0, [], f, w⟩ o ↔
          Evaluates r object m.returns task.statements σ w o) ∧
        ∀ s, Reaches r m.returns entry.chunk ⟨0, [], f, w⟩ s →
          (step r m.returns entry.chunk s).isSome := by
  have ha := accepted_of_ofText hp ht
  obtain ⟨handle, entry, hh, he, hof⟩ := ha.exists_entry hcode htask
  obtain ⟨c, m, b, hm⟩ := ha.exists_methodOf htask
  have hslots := ha.slotted hm.declared hm.body
  obtain ⟨hs, heights, effects, hb⟩ := ha.balanced htask hv hof.chunk
  refine ⟨c, m, b, handle, entry, hm, hh, he, exists_agrees hslots,
    fun f => ⟨_, agrees_memory hslots f⟩,
    fun object σ f w hf => ⟨fun o => ?outcome, fun s hr => ?progress⟩⟩
  case outcome =>
    obtain ⟨n, hstands, hret⟩ := ha.standsAll htask hm hv hof.chunk r object
    exact runs_iff_evaluates hstands hret hf o
  case progress => exact isSome_step_of_reaches hs hb hr

def counting : String :=
  "class M { public static void main() { int n; while (n < 3) { System.out.println(n); n = n + 1; } } }"

theorem generate_correct_counting :
    let p := (ParsedProgram.ofStream (.ofText counting)).program
    let t := (ResolvedProgram.ofProgram p).table
    let r := Runtime.printing (.sequential t)
    ∃ code task c m b, ∃ (handle : Nat) (entry : MethodCode),
      generate t (.sequential t) p = .ok code ∧ Emit.MethodOf p t task c m b ∧
      code[handle]? = some entry ∧
      ∀ σ, ∃ f, Agrees t b 0 σ f ∧ ∀ o, Runs r m.returns entry.chunk ⟨0, [], f, []⟩ o ↔
        Evaluates r 0 m.returns task.statements σ [] o := by
  intro p t r
  have hp : Program.ofStream (.ofText counting) = .ok p :=
    Program.ofStream_eq_ok.mpr ⟨by decide +kernel, rfl⟩
  have ht : SymbolTable.ofProgram p = .ok t := acceptUnless_eq_ok.mpr ⟨by decide +kernel, rfl⟩
  have hv : p.valued t = true := by decide +kernel
  have ha := accepted_of_ofText hp ht
  obtain ⟨code, hcode⟩ := ha.exists_code
  obtain ⟨main, hmain, _⟩ := ha.proper.mainClass
  obtain ⟨s, hs, _⟩ := ha.exists_mainSymbol hmain
  have htask : Emit.IsTask (.sequential t) p ⟨main.name, s, main.body⟩ := .main hmain hs
  obtain ⟨c, m, b, handle, entry, hm, _, he, hf, _, h⟩ :=
    generate_correct hp ht hcode htask (ha.allValued hv htask) r
  refine ⟨code, _, c, m, b, handle.number, entry, hcode, hm, he, fun σ => ?_⟩
  obtain ⟨f, hf⟩ := hf 0 σ
  exact ⟨f, hf, (h 0 σ f [] hf).1⟩

end ProgramCode

end MiniJava
