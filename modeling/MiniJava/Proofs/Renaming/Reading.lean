import MiniJava.Proofs.Reading.Program
import MiniJava.Proofs.Recasting.Reading
import MiniJava.Proofs.Renaming.Basic

namespace MiniJava

def Renaming.recasting (r : Renaming) : Recasting where
  name              := r.name
  place             := id
  length            := name_length
  builtin word hw   := name_of_not (not_isIdentifier_of_builtin word hw)

variable {r : Renaming}

theorem TokenKind.recast_recasting (k : TokenKind) : k.recast r.recasting = k.rename r := by
  cases k <;> rfl

theorem Token.recast_recasting (t : Token) : t.recast r.recasting = t.rename r :=
  congrArg (Token.mk · t.position) t.kind.recast_recasting

mutual

theorem Expression.recast_recasting (e : Expression) : e.recast r.recasting = e.rename r := by
  cases e with
  | call i receiver name arguments p =>
    rw [recast, rename, recast_recasting receiver, recastAll_recasting arguments]
    rfl
  | newArray i name size p           => rw [recast, rename, recast_recasting size]; rfl
  | not i operand p                  => rw [recast, rename, recast_recasting operand]; rfl
  | binary i op left right p         =>
    rw [recast, rename, recast_recasting left, recast_recasting right]
    rfl
  | index i array subscript p        =>
    rw [recast, rename, recast_recasting array, recast_recasting subscript]
    rfl
  | newObject | boolean | integer | self | reference | malformed => rfl

theorem Expression.recastAll_recasting (es : List Expression) :
    recastAll r.recasting es = renameAll r es := by
  cases es with
  | nil       => rfl
  | cons e es => exact congrArg₂ List.cons (recast_recasting e) (recastAll_recasting es)

end

mutual

theorem Statement.recast_recasting (s : Statement) : s.recast r.recasting = s.rename r := by
  have he (e : Expression) : e.recast r.recasting = e.rename r := e.recast_recasting
  cases s with
  | declare d                         => rfl
  | print i e p                       => rw [recast, rename, he e]; rfl
  | ret i e p                         => rw [recast, rename, he e]; rfl
  | assert i e p                      => rw [recast, rename, he e]; rfl
  | block i body p                    => rw [recast, rename, recastAll_recasting body]; rfl
  | assign i target value p           => rw [recast, rename, he target, he value]; rfl
  | ifThen i e s p                    => rw [recast, rename, he e, recast_recasting s]; rfl
  | ifThenElse i e s s' p             =>
    rw [recast, rename, he e, recast_recasting s, recast_recasting s']
    rfl
  | loop i e s p                      => rw [recast, rename, he e, recast_recasting s]; rfl
  | call i receiver name arguments p  =>
    rw [recast, rename, he receiver, Expression.recastAll_recasting arguments]
    rfl
  | malformed p                       => rfl

theorem Statement.recastAll_recasting (ss : List Statement) :
    recastAll r.recasting ss = renameAll r ss := by
  cases ss with
  | nil       => rfl
  | cons s ss => exact congrArg₂ List.cons (recast_recasting s) (recastAll_recasting ss)

end

theorem Member.recast_recasting (m : Member) : m.recast r.recasting = m.rename r := by
  cases m with
  | field d     => rfl
  | method m    =>
    refine congrArg Member.method ?_
    rw [MethodDeclaration.recast, Statement.recastAll_recasting]
    rfl
  | malformed p => rfl

theorem ClassDeclaration.recast_recasting (c : ClassDeclaration) :
    c.recast r.recasting = c.rename r := by
  rw [ClassDeclaration.recast, List.map_congr_left fun m _ => m.recast_recasting]
  rfl

theorem MainClass.recast_recasting (c : MainClass) : c.recast r.recasting = c.rename r := by
  rw [MainClass.recast, Statement.recastAll_recasting]
  rfl

theorem Program.recast_recasting (p : Program) : p.recast r.recasting = p.rename r := by
  have hm : p.mainClass.map (·.recast r.recasting) = p.mainClass.map (·.rename r) :=
    Option.map_congr fun c _ => c.recast_recasting
  have hc : p.classes.map (·.recast r.recasting) = p.classes.map (·.rename r) :=
    List.map_congr_left fun c _ => c.recast_recasting
  exact congrArg₂ Program.mk hm hc

theorem SyntaxError.recast_recasting (e : SyntaxError) : e.recast r.recasting = e.rename r := by
  cases e with
  | unexpected expected found | declarationStart found | termStart found =>
    simp only [recast, rename, TokenKind.recast_recasting]
  | _ => rfl

-- Reading reports no semantic error, whose names a renaming changes as well.
theorem Diagnostic.recast_recasting {d : Diagnostic}
    (h : d ∈ (ParsedProgram.ofStream s).diagnostics) : d.recast r.recasting = d.rename r := by
  have hp : d.problem.recast r.recasting = d.problem.rename r := by
    have hk := ParsedProgram.kind_of_mem_diagnostics h
    rw [kind] at hk
    generalize d.problem = problem at hk ⊢
    cases problem with
    | lexical e      => rfl
    | grammatical e  => exact congrArg Problem.grammatical e.recast_recasting
    | semantic e     => cases hk <;> contradiction
    | stated k words => rfl
  exact congrArg₂ Diagnostic.mk hp (Option.map_id_fun ▸ rfl)

def ParsedProgram.rename (r : Renaming) (p : ParsedProgram) : ParsedProgram :=
  ⟨p.program.rename r, p.diagnostics.map (·.rename r)⟩

-- Reading commutes with renaming.
theorem ParsedProgram.ofStream_rename {s : TokenStream} (h : ∀ t ∈ s.tokens, t.kind.NamesBuiltin) :
    ofStream (s.rename r) = (ofStream s).rename r := by
  have ht : (s.rename r).tokens = s.tokens.map (·.recast r.recasting) :=
    List.map_congr_left fun t _ => t.recast_recasting.symm
  rw [ofStream_recast h ht rfl]
  refine congrArg₂ ParsedProgram.mk (Program.recast_recasting _) ?_
  exact List.map_congr_left fun d => Diagnostic.recast_recasting

end MiniJava
