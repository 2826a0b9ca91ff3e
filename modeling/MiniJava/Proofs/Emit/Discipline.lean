import MiniJava.Proofs.Emit.Accepted
import MiniJava.Proofs.Emit.Balance

namespace MiniJava

open Emit (HasEffect endsInReturn)

namespace Chunk

variable {c : Chunk}

theorem Sound.size_pos (h : c.Sound ss) : 0 < c.instructions.size := by
  have hl := h.last?
  rw [Chunk.last?, Array.back?_eq_getElem?] at hl
  grind

-- What is no return has an instruction behind it.
theorem Sound.lt_of_ne_ret (h : c.Sound ss) (hi : c.instructions[n]? = some i)
    (hr : i.opcode ≠ .ret) : n + 1 < c.instructions.size := by
  have hl := h.last?
  have hn := (Array.getElem?_eq_some_iff.mp hi).1
  rw [Chunk.last?, Array.back?_eq_getElem?] at hl
  refine Nat.lt_of_le_of_ne hn fun he => hr ?_
  rw [← he, Nat.add_sub_cancel, hi] at hl
  exact Option.some.inj hl

theorem Sound.position_eq_none (h : c.Sound ss) (hi : c.instructions[n]? = some i) :
    i.position = none ↔ n + 1 = c.instructions.size ∧ endsInReturn ss = false := by
  rw [h.positions n i hi, ← Emit.endsInReturn_iff, Bool.not_eq_true]

-- The indices that control goes to from an index.
inductive Follows (c : Chunk) (n : Nat) : Nat → Prop
  | next   : c.instructions[n]? = some i → i.opcode ≠ .ret → (∀ l, i.opcode ≠ .branch l) →
    Follows c n (n + 1)
  | branch : c.instructions[n]? = some i → i.opcode.target? = some l → c.target? l = some t →
    Follows c n t

-- The heights of the stack at the instructions of a body, with the effects of the instructions.
structure Balanced (g : Emit.Context) (body : List Statement) (c : Chunk) (heights : Nat → Nat)
    (effects : Nat → Effect) : Prop where
  start    : heights 0 = 0
  effect   : ∀ (n : Nat) i, c.instructions[n]? = some i → HasEffect g i.opcode (effects n)
  operands : ∀ (n : Nat) i, c.instructions[n]? = some i → (effects n).pops ≤ heights n
  follows  : ∀ n n', c.Follows n n' → n' < c.instructions.size ∧
    heights n' = heights n - (effects n).pops + (effects n).pushes
  targets  : ∀ (n : Nat) i l t, c.instructions[n]? = some i → i.opcode.target? = some l →
    c.target? l = some t → heights t = 0
  -- A return has its value on the stack, unless it has been put behind the body.
  returns  : ∀ (n : Nat) i, c.instructions[n]? = some i → i.opcode = .ret →
    heights n = if n + 1 = c.instructions.size ∧ endsInReturn body = false then 0 else 1

-- The indices that runs come to, with the heights that the stack then has.
inductive Reaches (c : Chunk) (effects : Nat → Effect) : (n height : Nat) → Prop
  | start : Reaches c effects 0 0
  | step  : Reaches c effects n h → (effects n).pops ≤ h → c.Follows n n' →
    Reaches c effects n' (h - (effects n).pops + (effects n).pushes)

-- A run comes to an instruction only with the height that it has, and finds its operands.
theorem Balanced.reaches (h : Balanced g body c heights effects) (hc : 0 < c.instructions.size)
    (hr : c.Reaches effects n height) :
    n < c.instructions.size ∧ height = heights n ∧ (effects n).pops ≤ height := by
  suffices hs : n < c.instructions.size ∧ height = heights n by
    obtain ⟨hn, rfl⟩ := hs
    exact ⟨hn, rfl, h.operands n _ (Array.getElem?_eq_getElem hn)⟩
  induction hr with
  | start          => exact ⟨hc, h.start.symm⟩
  | step _ _ hf hi =>
    obtain ⟨_, rfl⟩ := hi
    obtain ⟨hn, he⟩ := h.follows _ _ hf
    exact ⟨hn, he.symm⟩

end Chunk

namespace Emit

variable {g : Context}

theorem Neutral.trailing (ss : List Statement) : ∃ xs, Neutral g n (trailing ss) [] xs := by
  cases he : endsInReturn ss with
  | true  => exact ⟨_, by simpa [Emit.trailing, he] using .nil⟩
  | false =>
    have h := (Pushes.nil (g := g)).use (n := n) (o := .ret) (p := none) (ε := ⟨0, 0⟩)
      ⟨.plain rfl, le_rfl, fun h => absurd h Bool.false_ne_true, fun _ => rfl⟩ rfl
    exact ⟨_, by simpa [Emit.trailing, he] using h⟩

-- The heights are those of a scan that takes no notice of branches: where a branch goes to, the
-- scan has an empty stack too.
theorem Neutral.balanced (h : Neutral g 0 is ts xs) (hs : (Chunk.empty.extend is ts).Sound ss) :
    ∃ heights effects, (Chunk.empty.extend is ts).Balanced g ss heights effects := by
  let heights (n : Nat) : Nat := Emit.level 0 (xs.take n)
  let effects (n : Nat) : Effect := (xs[n]?.map (·.effect)).getD ⟨0, 0⟩
  have hget {n : Nat} {i} (hi : (Chunk.empty.extend is ts).instructions[n]? = some i) :
      ∃ x, x.instruction = i ∧ effects n = x.effect ∧ Fit g (heights n) x ∧
        heights (n + 1) = x.after (heights n) := by
    rw [Chunk.instructions_extend_empty, List.getElem?_toArray, ← h.instructions,
      List.getElem?_map, Option.map_eq_some_iff] at hi
    obtain ⟨x, hx, hi⟩ := hi
    refine ⟨x, hi, by simp [effects, hx], h.fits.getElem? hx, ?_⟩
    simp [heights, List.take_add_one, hx]
  have htarget {l t} (ht : (Chunk.empty.extend is ts).target? l = some t) : heights t = 0 := by
    obtain ⟨k, _, hk, hl⟩ := h.targets t (mem_of_target? ht)
    rw [Nat.zero_add] at hk
    exact hk ▸ hl
  refine ⟨heights, effects, ?_⟩
  constructor
  case start => rfl
  case effect =>
    intro n i hi
    obtain ⟨x, rfl, he, hf, _⟩ := hget hi
    exact he ▸ hf.effect
  case operands =>
    intro n i hi
    obtain ⟨x, _, he, hf, _⟩ := hget hi
    exact he ▸ hf.operands
  case follows =>
    intro n n' hf
    cases hf with
    | @next i hi hr _ =>
      obtain ⟨x, rfl, he, _, hn⟩ := hget hi
      rw [Annotated.after, if_neg hr] at hn
      exact ⟨hs.lt_of_ne_ret hi hr, by rw [hn, he]⟩
    | @branch i l _ hi hl ht =>
      obtain ⟨t, ht', hlt, _⟩ := hs.branches n i l hi hl
      obtain rfl := Option.some.inj (ht.symm.trans ht')
      obtain ⟨x, rfl, he, hf, _⟩ := hget hi
      have h0 := hf.branch (by simp [hl])
      have hr : x.instruction.opcode ≠ .ret := fun hr => by simp [hr, Opcode.target?] at hl
      rw [Annotated.after, if_neg hr] at h0
      exact ⟨hlt, by rw [htarget ht, he, h0]⟩
  case targets => exact fun n i l t _ _ ht => htarget ht
  case returns =>
    intro n i hi hr
    obtain ⟨x, rfl, _, hf, _⟩ := hget hi
    rw [hf.ret hr]
    simp only [← hs.position_eq_none hi]
    cases x.instruction.position <;> rfl

theorem IsTask.sequential (h : IsTask g p task) : IsTask (.sequential g.table) p task := by
  cases h with
  | main hc hs      => exact .main hc hs
  | method hc hm hs => exact .method hc hm hs

end Emit

namespace Accepted

variable {p : Program} {t : SymbolTable}

theorem allValued (h : Accepted p t) (hv : p.valued t) (ht : Emit.IsTask (.sequential t) p task) :
    Statement.allValued t task.statements := by
  obtain ⟨c, m, b, hm⟩ := h.exists_methodOf ht
  exact hm.statements ▸ List.all_eq_true.mp (List.all_eq_true.mp hv c hm.declared) b hm.body

-- The chunk of a method that needs no value of a method that gives none.
theorem balanced (h : Accepted p t) (ht : Emit.IsTask ⟨t, e⟩ p task)
    (hv : Statement.allValued t task.statements) (hc : Emit.chunk ⟨t, e⟩ task.statements = .ok c) :
    c.Sound task.statements ∧
      ∃ heights effects, c.Balanced ⟨t, e⟩ task.statements heights effects := by
  obtain ⟨is, ts, hcode, rfl⟩ := (Emit.chunk_eq_ok (ht.nodup h.nodup)).mp hc
  obtain ⟨d, m, b, hm⟩ := h.exists_methodOf ht.sequential
  obtain ⟨l, hl⟩ := h.exists_lineage hm.declared
  obtain ⟨F, hF⟩ := (h.resolved.passes d l hl b hm.body).checks.statements
  rw [hm.statements] at hF
  obtain ⟨xs, hx⟩ := hcode.neutral hF hv
  obtain ⟨ys, hy⟩ := Emit.Neutral.trailing (g := ⟨t, e⟩) (n := is.length) task.statements
  have hn := hx.append hy (Nat.zero_add _).symm
  rw [List.append_nil] at hn
  exact ⟨hcode.sound, hn.balanced hcode.sound⟩

end Accepted

namespace ProgramCode

-- Whatever handles the code of an accepted program is laid out with: the heights of the stack do
-- not depend on how a run comes to an instruction, and no run finds too little on the stack.
theorem generate_balanced (hp : Program.ofStream (.ofText text) = .ok p)
    (ht : SymbolTable.ofProgram p = .ok t) (hv : p.valued t)
    (hcode : generate t e p = .ok code) (hm : code[handle]? = some m) :
    ∃ task, Emit.CodeOf ⟨t, e⟩ p handle m task ∧ ∃ heights effects,
      m.chunk.Balanced ⟨t, e⟩ task.statements heights effects ∧
      ∀ n height, m.chunk.Reaches effects n height →
        n < m.chunk.instructions.size ∧ height = heights n ∧ (effects n).pops ≤ height := by
  obtain ⟨task, hof⟩ := Emit.Sourced.program (generate_eq_ok.mp hcode) handle m hm
  have ha := accepted_of_ofText hp ht
  obtain ⟨hs, heights, effects, hb⟩ :=
    ha.balanced hof.task (ha.allValued hv hof.task.sequential) hof.chunk
  exact ⟨task, hof, heights, effects, hb, fun n height hr => hb.reaches hs.size_pos hr⟩

def waiting : String :=
  "class M { public static void main() { } } class C { public void f(C c) { while (true) c.f(c); } }"

theorem generate_balanced_waiting :
    let p := (ParsedProgram.ofStream (.ofText waiting)).program
    let t := (ResolvedProgram.ofProgram p).table
    ∃ code m task heights effects, generate t (.sequential t) p = .ok code ∧ code[1]? = some m ∧
      Emit.CodeOf ⟨t, .sequential t⟩ p 1 m task ∧
      m.chunk.Balanced ⟨t, .sequential t⟩ task.statements heights effects := by
  intro p t
  have hp : Program.ofStream (.ofText waiting) = .ok p :=
    Program.ofStream_eq_ok.mpr ⟨by decide +kernel, rfl⟩
  have ht : SymbolTable.ofProgram p = .ok t := acceptUnless_eq_ok.mpr ⟨by decide +kernel, rfl⟩
  have hv : p.valued t = true := by decide +kernel
  have h : ((generate t (.sequential t) p).toOption.bind (·[1]?)).isSome := by decide +kernel
  obtain ⟨m, hm⟩ := Option.isSome_iff_exists.mp h
  obtain ⟨code, hcode, hm⟩ := Option.bind_eq_some_iff.mp hm
  have hcode : generate t (.sequential t) p = .ok code := by
    cases hg : generate t (.sequential t) p <;> simp_all [Except.toOption]
  obtain ⟨task, hof, heights, effects, hb, _⟩ := generate_balanced hp ht hv hcode hm
  exact ⟨code, m, task, heights, effects, hcode, hm, hof, hb⟩

end ProgramCode

end MiniJava
