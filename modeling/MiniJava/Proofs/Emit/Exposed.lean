import MiniJava.Proofs.Emit.Entries
import MiniJava.Proofs.Reading.Placeholder

namespace MiniJava

def SymbolTable.isArray (t : SymbolTable) (e : Expression) : Bool :=
  ((e.id?.bind t.typeOf?).bind (·.element?)).isSome

mutual

-- The placeholders of a tree without those in the arguments of calls on arrays.
def Expression.exposed (t : SymbolTable) : Expression → Nat
  | .call _ receiver _ arguments _ =>
    receiver.exposed t + if t.isArray receiver then 0 else Expression.exposedOf t arguments
  | .newArray _ _ size _ => size.exposed t
  | .not _ operand _ => operand.exposed t
  | .binary _ _ left right _ => left.exposed t + right.exposed t
  | .index _ array subscript _ => array.exposed t + subscript.exposed t
  | .newObject .. | .boolean .. | .integer .. | .self .. | .reference .. => 0
  | .malformed _ => 1

def Expression.exposedOf (t : SymbolTable) : List Expression → Nat
  | [] => 0
  | e :: es => e.exposed t + Expression.exposedOf t es

end

mutual

def Statement.exposed (t : SymbolTable) : Statement → Nat
  | .declare _ => 0
  | .print _ e _ | .ret _ e _ | .assert _ e _ => e.exposed t
  | .block _ body _ => Statement.exposedOf t body
  | .assign _ target value _ => target.exposed t + value.exposed t
  | .ifThen _ condition onTrue _ => condition.exposed t + onTrue.exposed t
  | .ifThenElse _ condition onTrue onFalse _ =>
    condition.exposed t + onTrue.exposed t + onFalse.exposed t
  | .loop _ condition body _ => condition.exposed t + body.exposed t
  | .call i receiver method arguments p =>
    (Expression.call i receiver method arguments p).exposed t
  | .malformed _ => 1

def Statement.exposedOf (t : SymbolTable) : List Statement → Nat
  | [] => 0
  | s :: ss => s.exposed t + Statement.exposedOf t ss

end

def Member.exposed (t : SymbolTable) : Member → Nat
  | field _ => 0
  | method declaration => Statement.exposedOf t declaration.body
  | malformed _ => 1

def ClassDeclaration.exposed (t : SymbolTable) (c : ClassDeclaration) : Nat :=
  (c.members.map (Member.exposed t)).sum

def Program.exposed (t : SymbolTable) (p : Program) : Nat :=
  p.mainClass.elim 0 (Statement.exposedOf t ·.body) +
    (p.classes.map (ClassDeclaration.exposed t)).sum

namespace Emit

theorem isArray_of_typeOf? {t : SymbolTable} (hi : e.id? = some i)
    (ht : t.typeOf? i = some (.array τ)) : t.isArray e := by
  simp [SymbolTable.isArray, hi, ht, StaticType.element?]

mutual

-- An expression that has code shows no placeholder.
theorem Value.exposed_eq : Value g e is → e.exposed g.table = 0
  | .length hr hi ht => by
    simp [Expression.exposed, hr.exposed_eq, isArray_of_typeOf? hi ht]
  | .call hr _ _ _ ha _ _ => by
    simp [Expression.exposed, hr.exposed_eq, ha.exposed_eq]
  | .newArray _ hs => hs.exposed_eq
  | .not he => he.exposed_eq
  | .binary hl hr => by simp [Expression.exposed, hl.exposed_eq, hr.exposed_eq]
  | .index ha hs _ => by simp [Expression.exposed, ha.exposed_eq, hs.exposed_eq]
  | .newObject _ _ | .boolean | .integer | .self | .field _ _ _ | .formal _ _ _
  | .localSlot _ _ _ => rfl

theorem Values.exposed_eq : Values g es is → Expression.exposedOf g.table es = 0
  | .nil => rfl
  | .cons he hes => by simp [Expression.exposedOf, he.exposed_eq, hes.exposed_eq]

end

theorem Address.exposed_eq : Address g e is → e.exposed g.table = 0
  | .field _ _ | .slot _ _ => rfl
  | .element ha hs => by simp [Expression.exposed, ha.exposed_eq, hs.exposed_eq]

mutual

theorem Code.exposed_eq : Code g s n l is ts → s.exposed g.table = 0
  | .declare => rfl
  | .print he | .ret he | .assert he => he.exposed_eq
  | .block h => h.exposed_eq
  | .assign ht hv _ => by simp [Statement.exposed, ht.exposed_eq, hv.exposed_eq]
  | .ifThen hc ht => by simp [Statement.exposed, hc.exposed_eq, ht.exposed_eq]
  | .ifThenElse hc ht hf => by
    simp [Statement.exposed, hc.exposed_eq, ht.exposed_eq, hf.exposed_eq]
  | .loop hb hc => by simp [Statement.exposed, hb.exposed_eq, hc.exposed_eq]
  | .drop hc _ _ | .call hc _ => hc.exposed_eq

theorem CodeAll.exposed_eq : CodeAll g ss n l is ts → Statement.exposedOf g.table ss = 0
  | .nil => rfl
  | .cons hs hss => by simp [Statement.exposedOf, hs.exposed_eq, hss.exposed_eq]

end

section

variable {g : Context} {p : Program}

theorem exposed_of_method (hn : (Statement.nodeIdsOf task.statements).Nodup)
    (h : method g code task = .ok code') : Statement.exposedOf g.table task.statements = 0 := by
  obtain ⟨_, _, _, hc, _⟩ := method_eq_ok.mp h
  obtain ⟨is, ts, hc, _⟩ := (chunk_eq_ok hn).mp hc
  exact hc.exposed_eq

theorem exposed_of_member (hn : p.nodeIds.Nodup) (hc : c ∈ p.classes) (hm : m ∈ c.members)
    (h : member g c.name code m = .ok code') : m.exposed g.table = 0 := by
  cases m with
  | field _     => rfl
  | malformed _ => cases h
  | method m    =>
    obtain ⟨s, hs, h⟩ := bind_eq_ok.mp h
    have ht : IsTask g p ⟨c.name, s, m.body⟩ := .method hc hm (orMissing_eq_ok.mp hs)
    exact exposed_of_method (ht.nodup hn) h

-- Whatever has code has been looked at member by member.
theorem exposed_of_program (hn : p.nodeIds.Nodup) (h : program g p = .ok code) :
    p.mainClass.isSome ∧ p.exposed g.table = 0 := by
  simp only [program, bind_eq_ok, orMissing_eq_ok] at h
  obtain ⟨main, hmain, s, hs, code₁, h₁, h⟩ := h
  have hm : Statement.exposedOf g.table main.body = 0 :=
    exposed_of_method ((IsTask.main hmain hs).nodup hn) h₁
  have hc : ∀ c ∈ p.classes, c.exposed g.table = 0 := by
    intro c hc
    refine foldlM_ok_of_mem (Q := fun _ => c.exposed g.table = 0) (fun _ _ _ _ hq _ => hq) hc ?_ h
    intro code code' h
    refine List.sum_eq_zero fun n hn' => ?_
    obtain ⟨m, hm, rfl⟩ := List.mem_map.mp hn'
    exact foldlM_ok_of_mem (Q := fun _ => m.exposed g.table = 0) (fun _ _ _ _ hq _ => hq) hm
      (fun _ _ h => exposed_of_member hn hc hm h) h
  refine ⟨by simp [hmain], ?_⟩
  have hs : (p.classes.map (ClassDeclaration.exposed g.table)).sum = 0 :=
    List.sum_eq_zero fun n hn' => by
      obtain ⟨c, hc', rfl⟩ := List.mem_map.mp hn'
      exact hc c hc'
  simp [Program.exposed, hmain, hm, hs]

end

end Emit

namespace ProgramCode

-- Whatever has been read, and whatever it has been laid out to, there is no code without a main
-- class, and none for a tree that shows a placeholder.
theorem generate_exposed (stream : TokenStream) (environment : Environment) :
    let p := (ParsedProgram.ofStream stream).program
    let table := (ResolvedProgram.ofProgram p).table
    p.mainClass = none ∨ 0 < p.exposed table →
      ∃ error, generate table environment p = .error (.internal error) := by
  intro p table h
  have hn : p.nodeIds.Nodup := ParsedProgram.nodup_nodeIds _
  cases hg : Emit.program ⟨table, environment⟩ p with
  | error error => exact ⟨error, generate_eq_internal.mpr hg⟩
  | ok code     =>
    obtain ⟨hm, he⟩ := Emit.exposed_of_program hn hg
    rcases h with h | h
    case inl => simp [h] at hm
    case inr =>
      dsimp only at he
      exact absurd he h.ne'

def unfinished : TokenStream :=
  .ofText "class M { public static void main() { int[] a; a.f(1 +); while (a[2].g(3 +)) ; } }"

theorem generate_exposed_unfinished :
    let p := (ParsedProgram.ofStream unfinished).program
    let table := (ResolvedProgram.ofProgram p).table
    0 < p.exposed table ∧
      ∃ error, generate table (.sequential table) p = .error (.internal error) := by
  intro p table
  have h : 0 < p.exposed table := by
    decide +kernel
  exact ⟨h, generate_exposed unfinished (.sequential table) (.inr h)⟩

-- The placeholder is an argument of a call on an array.
theorem generate_passed_over :
    ¬ ∀ (source : String) (environment : Environment),
      let p := (ParsedProgram.ofStream (.ofText source)).program
      p.mainClass = none ∨ 0 < p.placeholders →
        ∃ error, generate (ResolvedProgram.ofProgram p).table environment p = .error error := by
  intro h
  let p := (ParsedProgram.ofStream (.ofText
    "class M { public static void main() { int[] a; System.out.println(a.f(1 +)); } }")).program
  let table := (ResolvedProgram.ofProgram p).table
  have hp : 0 < p.placeholders := by
    decide +kernel
  have hg : (generate table (.sequential table) p).toOption.isSome := by
    decide +kernel
  obtain ⟨error, he⟩ := h _ (.sequential table) (.inr hp)
  rw [he] at hg
  cases hg

end ProgramCode

end MiniJava
