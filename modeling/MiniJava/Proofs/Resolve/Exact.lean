import MiniJava.Proofs.Reading.Complete.Program
import MiniJava.Proofs.Resolve.Program

namespace MiniJava

open Typing

namespace Resolve

theorem adds_program (p : Program) (σ : State) : Adds σ (Resolve.program p σ).2 := by
  have hc := Adds.mapM Adds.defineClass (allClasses p) σ
  let ds := ((allClasses p).mapM defineClass σ).1.filterMap id
  have hl := Adds.forM Adds.linkSuperclass ds ((allClasses p).mapM defineClass σ).2
  have hm := Adds.mapM Adds.defineMembers ds
    (ds.forM linkSuperclass ((allClasses p).mapM defineClass σ).2).2
  exact hc.trans (hl.trans (hm.trans (Adds.forM Adds.methodBody _ _)))

end Resolve

open Resolve

inductive ResolutionVerdict (p : Program) : Except CompileError SymbolTable → Prop
  | accepted : Resolved p t → ResolutionVerdict p (.ok t)
  | rejected :
    ¬WellFormed .any p → ds ≠ [] → (∀ d ∈ ds, d.kind = .semantic) →
      ResolutionVerdict p (.error (.rejected ds))

theorem verdict_ofProgram (hp : p.Proper) (hn : p.nodeIds.Nodup) :
    ResolutionVerdict p (SymbolTable.ofProgram p) := by
  have ha := adds_program p start
  show ResolutionVerdict p (acceptUnless (Resolve.program p start).2.diagnostics.toList
    (Resolve.program p start).2.table)
  have hv := verdict_program hp hn
  generalize (Resolve.program p start).2 = σ at ha hv ⊢
  have hs : σ.diagnostics.toList.isEmpty = true ↔ σ.size = 0 := by
    simp [State.size]
  rw [acceptUnless]
  cases hv with
  | passed h hq   =>
    rw [if_pos (hs.mpr hq)]
    exact .accepted h
  | failed hu hlt =>
    rw [if_neg (mt hs.mp (Nat.ne_of_gt hlt))]
    refine .rejected hu (fun he => ?nonempty) fun d hd => ?semantic
    case nonempty => exact Nat.ne_of_gt hlt (hs.mp (by rw [he]; rfl))
    case semantic => exact (ha.semantic d (Array.mem_toList_iff.mp hd)).resolve_left nofun

namespace Program

theorem proper_of_ofText (h : Program.ofStream (.ofText text) = .ok p) : p.Proper := by
  obtain ⟨hd, rfl⟩ := ofStream_eq_ok.mp h
  exact (ParsedProgram.isProgram hd).proper (TokenStream.lexed_ofText text)

theorem nodup_of_ofText (h : Program.ofStream (.ofText text) = .ok p) : p.nodeIds.Nodup := by
  obtain ⟨_, rfl⟩ := ofStream_eq_ok.mp h
  exact ParsedProgram.nodup_nodeIds _

end Program

-- A program of a text is accepted if and only if it is well-formed. With the notes of the table the
-- typing rules find the type of every expression to be the one that is kept for it.
theorem SymbolTable.ofProgram_exact (text : String) (p : Program)
    (h : Program.ofStream (.ofText text) = .ok p) :
    ((∃ t, SymbolTable.ofProgram p = .ok t) ↔ WellFormed .any p) ∧
      ∀ t, SymbolTable.ofProgram p = .ok t → WellFormed t.notes p := by
  have hv := verdict_ofProgram (Program.proper_of_ofText h) (Program.nodup_of_ofText h)
  generalize SymbolTable.ofProgram p = out at hv ⊢
  cases hv with
  | @accepted t hr      =>
    have hw := hr.wellFormed
    have hany : WellFormed .any p :=
      { hw with bodies := fun c l hl b hb => (hw.bodies c l hl b hb).keep (Notes.keeps_any _ _) }
    refine ⟨⟨fun _ => hany, fun _ => ⟨t, rfl⟩⟩, fun t' ht => ?_⟩
    exact Except.ok.inj ht ▸ hw
  | rejected hu _ _ => exact ⟨⟨nofun, fun hw => absurd hw hu⟩, nofun⟩

def measuring : String :=
  "class M { public static void main() { int[] a; a = new int[2]; a[0] = new C().f(a); } } class C { public int f(int[] a) { return a.length; } }"

theorem exists_table_measuring :
    ∃ p t, Program.ofStream (.ofText measuring) = .ok p ∧ SymbolTable.ofProgram p = .ok t := by
  let p := (ParsedProgram.ofStream (.ofText measuring)).program
  obtain ⟨hread, hresolved⟩ :
      (ParsedProgram.ofStream (.ofText measuring)).diagnostics = [] ∧
      (ResolvedProgram.ofProgram p).diagnostics = [] := by
    decide +kernel
  exact ⟨p, (ResolvedProgram.ofProgram p).table, Program.ofStream_eq_ok.mpr ⟨hread, rfl⟩,
    acceptUnless_eq_ok.mpr ⟨hresolved, rfl⟩⟩

theorem SymbolTable.wellFormed_measuring :
    ∃ p, Program.ofStream (.ofText measuring) = .ok p ∧ WellFormed .any p := by
  obtain ⟨p, t, hp, ht⟩ := exists_table_measuring
  exact ⟨p, hp, (SymbolTable.ofProgram_exact measuring p hp).1.mp ⟨t, ht⟩⟩

end MiniJava
