import MiniJava.Code.Program
import MiniJava.Proofs.Emit.Failure
import MiniJava.Proofs.Emit.Sound
import MiniJava.Proofs.Reading.Program

namespace MiniJava

namespace Emit

-- The methods of a program, with the symbols that they have in a table.
inductive IsTask (g : Context) (p : Program) : MethodTask → Prop
  | main (hc : p.mainClass = some c) (hs : mainSymbol g c = .ok s) : IsTask g p ⟨c.name, s, c.body⟩
  | method (hc : c ∈ p.classes) (hm : .method m ∈ c.members)
      (hs : g.table.declaredBy? m.id = some s) : IsTask g p ⟨c.name, s, m.body⟩

theorem IsTask.nodup (h : IsTask g p t) (hn : p.nodeIds.Nodup) :
    (Statement.nodeIdsOf t.statements).Nodup := by
  cases h with
  | main hc _ =>
    have hn := hn.of_append_left
    rw [hc] at hn
    exact hn.of_append_left
  | method hc hm _ =>
    have hn := (List.nodup_flatMap.mp hn.of_append_right).1 _ hc
    have hn := (List.nodup_flatMap.mp hn.of_append_left).1 _ hm
    exact hn.of_append_left.of_append_right

-- What an entry of the code comes from.
structure CodeOf (g : Context) (p : Program) (handle : Nat) (m : MethodCode) (t : MethodTask) :
    Prop where
  task   : IsTask g p t
  handle : g.environment.methodHandle t.symbol = .ok ⟨handle⟩
  chunk  : chunk g t.statements = .ok m.chunk

section

variable {f : β → α → Except ε β} {as : List α}

-- What every step of a run keeps, the run keeps.
theorem foldlM_ok {Q : β → Prop} (hf : ∀ a ∈ as, ∀ b b', Q b → f b a = .ok b' → Q b') (hb : Q b)
    (h : as.foldlM f b = .ok b') : Q b' := by
  induction as generalizing b with
  | nil          => exact Except.ok.inj h ▸ hb
  | cons a as hi =>
    rw [List.foldlM_cons] at h
    obtain ⟨b₁, hb₁, h⟩ := bind_eq_ok.mp h
    refine hi (fun a ha => hf a (List.mem_cons_of_mem _ ha)) ?_ h
    exact hf a List.mem_cons_self b b₁ hb hb₁

-- A failure of a run is a failure of a step.
theorem foldlM_ne_error (hf : ∀ a ∈ as, ∀ b, f b a ≠ .error e) : as.foldlM f b ≠ .error e := by
  induction as generalizing b with
  | nil          => exact nofun
  | cons a as hi =>
    rw [List.foldlM_cons]
    intro h
    rcases bind_eq_error.mp h with h | ⟨b₁, -, h⟩
    case inl => exact hf a List.mem_cons_self b h
    case inr => exact hi (fun a ha => hf a (List.mem_cons_of_mem _ ha)) h

end

theorem method_eq_ok : method g code t = .ok code' ↔
    ∃ h c, g.environment.methodHandle t.symbol = .ok h ∧ chunk g t.statements = .ok c ∧
      code.insert h.number
        ⟨t.className ++ "." ++ ((g.table.symbol? t.symbol).map (·.name)).getD "", c⟩ = code' := by
  simp only [method, bind_eq_ok]
  simp [pure, Except.pure]

section

variable {g : Context} {p : Program}

-- Every entry so far is the code of a method.
def Sourced (g : Context) (p : Program) (code : ProgramCode) : Prop :=
  ∀ handle m, code[handle]? = some m → ∃ t, CodeOf g p handle m t

theorem Sourced.method (hs : Sourced g p code) (ht : IsTask g p t)
    (h : Emit.method g code t = .ok code') : Sourced g p code' := by
  obtain ⟨handle, c, hh, hc, rfl⟩ := method_eq_ok.mp h
  intro k m hk
  rw [Std.TreeMap.getElem?_insert] at hk
  split at hk
  case isTrue he  =>
    obtain rfl := Option.some.inj hk
    exact ⟨t, ht, Std.LawfulEqCmp.eq_of_compare he ▸ hh, hc⟩
  case isFalse => exact hs k m hk

theorem Sourced.member (hs : Sourced g p code) (hc : c ∈ p.classes) (hm : m ∈ c.members)
    (h : member g c.name code m = .ok code') : Sourced g p code' := by
  cases m with
  | field _     => exact Except.ok.inj h ▸ hs
  | malformed _ => cases h
  | method m    =>
    obtain ⟨s, hs', h⟩ := bind_eq_ok.mp h
    exact hs.method (.method hc hm (orMissing_eq_ok.mp hs')) h

theorem Sourced.program (h : program g p = .ok code) : Sourced g p code := by
  simp only [Emit.program, bind_eq_ok, orMissing_eq_ok] at h
  obtain ⟨main, hmain, s, hs, code₁, h₁, h⟩ := h
  refine foldlM_ok (fun c hc code code' hs h => ?classes) ?mainClass h
  case classes => exact foldlM_ok (fun m hm code code' hs h => hs.member hc hm h) hs h
  case mainClass =>
    refine Sourced.method (fun k m hk => ?_) (.main hmain hs) h₁
    simp at hk

end

section

variable {labels : List Nat} {p : Program}

theorem method_ne_labelsUnbound (hn : (Statement.nodeIdsOf t.statements).Nodup) :
    method g code t ≠ .error (.labelsUnbound labels) := by
  simp [method, bind_eq_error, Environment.methodHandle, chunk_ne_labelsUnbound hn, pure,
    Except.pure]

theorem mainSymbol_ne_labelsUnbound : mainSymbol g c ≠ .error (.labelsUnbound labels) := by
  simp [mainSymbol]

theorem member_ne_labelsUnbound {c : ClassDeclaration} (hn : p.nodeIds.Nodup) (hc : c ∈ p.classes) (hm : m ∈ c.members) :
    member g c.name code m ≠ .error (.labelsUnbound labels) := by
  cases m with
  | field _     => exact nofun
  | malformed _ => exact nofun
  | method m    =>
    intro h
    rcases bind_eq_error.mp h with h | ⟨s, hs, h⟩
    case inl => simp at h
    case inr =>
      have ht : IsTask g p ⟨c.name, s, m.body⟩ := .method hc hm (orMissing_eq_ok.mp hs)
      exact method_ne_labelsUnbound (ht.nodup hn) h

theorem program_ne_labelsUnbound (hn : p.nodeIds.Nodup) :
    program g p ≠ .error (.labelsUnbound labels) := by
  intro h
  rcases bind_eq_error.mp h with h | ⟨main, hmain, h⟩
  case inl => simp at h
  rcases bind_eq_error.mp h with h | ⟨s, hs, h⟩
  case inl => exact mainSymbol_ne_labelsUnbound h
  rcases bind_eq_error.mp h with h | ⟨code, _, h⟩
  case inl =>
    have ht : IsTask g p ⟨main.name, s, main.body⟩ := .main (orMissing_eq_ok.mp hmain) hs
    exact method_ne_labelsUnbound (ht.nodup hn) h
  case inr =>
    refine foldlM_ne_error (fun c hc code => ?_) h
    exact foldlM_ne_error fun m hm code => member_ne_labelsUnbound hn hc hm

end

end Emit

namespace ProgramCode

theorem generate_eq_ok : generate t e p = .ok code ↔ Emit.program ⟨t, e⟩ p = .ok code := by
  rw [generate]
  cases Emit.program ⟨t, e⟩ p <;> simp [Except.mapError]

theorem generate_eq_internal :
    generate t e p = .error (.internal i) ↔ Emit.program ⟨t, e⟩ p = .error i := by
  rw [generate]
  cases Emit.program ⟨t, e⟩ p <;> simp [Except.mapError]

-- Whatever has been read, and whatever it has been resolved and laid out to, the code of it is
-- sound, and no label is a reason to fail.
theorem generate_sound (tokens : List Token) (environment : Environment) :
    let p := (ParsedProgram.ofStream (.ofTokens tokens)).program
    let table := (ResolvedProgram.ofProgram p).table
    (∀ code, generate table environment p = .ok code → ∀ handle m, code[handle]? = some m →
      ∃ t, Emit.CodeOf ⟨table, environment⟩ p handle m t ∧ m.chunk.Sound t.statements) ∧
    ∀ labels, generate table environment p ≠ .error (.internal (.labelsUnbound labels)) := by
  intro p table
  have hn : p.nodeIds.Nodup := ParsedProgram.nodup_nodeIds _
  constructor
  case left =>
    intro code hcode handle m hm
    obtain ⟨t, ht⟩ := Emit.Sourced.program (generate_eq_ok.mp hcode) handle m hm
    obtain ⟨is, ts, h, he⟩ := (Emit.chunk_eq_ok (ht.task.nodup hn)).mp ht.chunk
    exact ⟨t, ht, he ▸ h.sound⟩
  case right =>
    intro labels h
    exact Emit.program_ne_labelsUnbound hn (generate_eq_internal.mp h)

def spinning : List Token :=
  (TokenStream.ofText "class M { public static void main() { while (false) { int x; } } }").tokens

theorem generate_sound_spinning :
    let p := (ParsedProgram.ofStream (.ofTokens spinning)).program
    let table := (ResolvedProgram.ofProgram p).table
    ∃ code m t, generate table (.sequential table) p = .ok code ∧ code[0]? = some m ∧
      Emit.CodeOf ⟨table, .sequential table⟩ p 0 m t ∧ m.chunk.Sound t.statements := by
  intro p table
  have h : ((generate table (.sequential table) p).toOption.bind (·[0]?)).isSome := by
    decide +kernel
  obtain ⟨m, hm⟩ := Option.isSome_iff_exists.mp h
  obtain ⟨code, hcode, hm⟩ := Option.bind_eq_some_iff.mp hm
  have hcode : generate table (.sequential table) p = .ok code := by
    cases hg : generate table (.sequential table) p <;> simp_all [Except.toOption]
  obtain ⟨t, ht, hs⟩ := (generate_sound spinning (.sequential table)).1 code hcode 0 m hm
  exact ⟨code, m, t, hcode, hm, ht, hs⟩

end ProgramCode

end MiniJava
