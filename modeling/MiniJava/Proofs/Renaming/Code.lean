import MiniJava.Proofs.Emit.Entries
import MiniJava.Proofs.Emit.Likeness
import MiniJava.Proofs.Renaming.Reading
import MiniJava.Proofs.Renaming.Resolve

namespace MiniJava

variable {r : Renaming}

-- Only names differ.
def Likeness.renaming (r : Renaming) : Likeness :=
  ⟨fun _ i i' => i = i', r.name, Eq⟩

theorem VariableDeclaration.like_rename (d : VariableDeclaration) : d.Like (.renaming r) (d.rename r) :=
  ⟨rfl, rfl, rfl, rfl, rfl⟩

mutual

theorem Expression.like_rename : (e : Expression) → e.Like (.renaming r) (e.rename r)
  | .call _ receiver _ arguments _ =>
    .call rfl receiver.like_rename (Expression.likeAll_rename arguments) rfl
  | .newObject ..                  => .newObject rfl rfl
  | .newArray _ _ size _           => .newArray rfl size.like_rename rfl
  | .not _ operand _               => .not rfl operand.like_rename rfl
  | .binary _ _ left right _       => .binary rfl left.like_rename right.like_rename rfl
  | .boolean ..                    => .boolean rfl rfl
  | .integer ..                    => .integer rfl rfl
  | .self ..                       => .self rfl rfl
  | .index _ array subscript _     => .index rfl array.like_rename subscript.like_rename rfl
  | .reference ..                  => .reference rfl rfl
  | .malformed _                   => .malformed rfl

theorem Expression.likeAll_rename : (es : List Expression) →
    Expression.LikeAll (.renaming r) es (Expression.renameAll r es)
  | []      => .nil
  | e :: es => .cons e.like_rename (Expression.likeAll_rename es)

end

mutual

theorem Statement.like_rename : (s : Statement) → s.Like (.renaming r) (s.rename r)
  | .declare d                        => .declare d.like_rename
  | .print _ e _                      => .print rfl e.like_rename rfl
  | .ret _ e _                        => .ret rfl e.like_rename rfl
  | .assert _ e _                     => .assert rfl e.like_rename rfl
  | .block _ body _                   => .block rfl (Statement.likeAll_rename body) rfl
  | .assign _ target value _          => .assign rfl target.like_rename value.like_rename rfl
  | .ifThen _ e onTrue _              => .ifThen rfl e.like_rename onTrue.like_rename rfl
  | .ifThenElse _ e onTrue onFalse _  =>
    .ifThenElse rfl e.like_rename onTrue.like_rename onFalse.like_rename rfl
  | .loop _ e body _                  => .loop rfl e.like_rename body.like_rename rfl
  | .call i receiver name arguments p => .call (Expression.call i receiver name arguments p).like_rename
  | .malformed _                      => .malformed rfl

theorem Statement.likeAll_rename : (ss : List Statement) →
    Statement.LikeAll (.renaming r) ss (Statement.renameAll r ss)
  | []      => .nil
  | s :: ss => .cons s.like_rename (Statement.likeAll_rename ss)

end

structure Environment.Renamed (r : Renaming) (e e' : Environment) : Prop where
  types        : ∀ name, e'.types[r.name name]? = e.types[name]?
  methods      : e'.methods = e.methods
  fields       : e'.fields = e.fields
  constructors : e'.constructors = e.constructors

namespace Environment.Renamed

variable {e e' : Environment}

theorem methodHandle (h : e.Renamed r e') (s : SymbolId) : e'.methodHandle s = e.methodHandle s :=
  congrArg (fun m => orMissing _ m[s]?) h.methods

theorem fieldHandle (h : e.Renamed r e') (s : SymbolId) : e'.fieldHandle s = e.fieldHandle s :=
  congrArg (fun m => orMissing _ m[s]?) h.fields

theorem constructor (h : e.Renamed r e') (τ : TypeHandle) : e'.constructor τ = e.constructor τ :=
  congrArg (fun m => orMissing _ m[τ.number]?) h.constructors

theorem typeHandle (h : e.Renamed r e') (hτ : e.typeHandle name = .ok τ) :
    e'.typeHandle (r.name name) = .ok τ := by
  have hτ := Emit.orMissing_eq_ok.mp hτ
  exact Emit.orMissing_eq_ok.mpr ((h.types name).trans hτ)

end Environment.Renamed

structure Environment.Layout.Renamed (r : Renaming) (l l' : Layout) : Prop where
  environment : l.environment.Renamed r l'.environment
  types       : l'.types = l.types
  methods     : l'.methods = l.methods
  fields      : l'.fields = l.fields

namespace Environment

theorem Layout.Renamed.place {l l' : Layout} (h : l.Renamed r l') (s : SymbolId) (x : Symbol) :
    (l.place s x).Renamed r (l'.place s (x.rename r)) := by
  obtain ⟨⟨types, methods, fields, constructors⟩, n, m, k⟩ := l
  obtain ⟨⟨types', methods', fields', constructors'⟩, n', m', k'⟩ := l'
  obtain ⟨⟨htypes, rfl, rfl, rfl⟩, rfl, rfl, rfl⟩ := h
  have hinsert (name other : String) : (types'.insert (r.name name) ⟨n'⟩)[r.name other]? =
      (types.insert name ⟨n'⟩)[other]? := by
    simp only [Std.TreeMap.getElem?_insert, Std.compare_eq_iff_eq, Renaming.name_injective.eq_iff]
    rw [show types'[r.name other]? = types[other]? from htypes other]
  obtain ⟨name, kind, declaration⟩ := x
  match kind with
  | .ofType ⟨true, _, _⟩           => exact ⟨⟨hinsert name, rfl, rfl, rfl⟩, rfl, rfl, rfl⟩
  | .ofType ⟨false, _, _⟩          => exact ⟨⟨hinsert name, rfl, rfl, rfl⟩, rfl, rfl, rfl⟩
  | .ofMethod _                    => exact ⟨⟨htypes, rfl, rfl, rfl⟩, rfl, rfl, rfl⟩
  | .ofVariable ⟨_, .field, _⟩     => exact ⟨⟨htypes, rfl, rfl, rfl⟩, rfl, rfl, rfl⟩
  | .ofVariable ⟨_, .formal, _⟩    => exact ⟨⟨htypes, rfl, rfl, rfl⟩, rfl, rfl, rfl⟩
  | .ofVariable ⟨_, .localSlot, _⟩ => exact ⟨⟨htypes, rfl, rfl, rfl⟩, rfl, rfl, rfl⟩

theorem sequential_renamed {t t' : SymbolTable} (h : t.Renamed r t') :
    (sequential t).Renamed r (sequential t') := by
  have hfold (l : List (Symbol × SymbolId)) {a a' : Layout} (ha : a.Renamed r a') :
      (l.foldl (fun l q => l.place q.2 q.1) a).Renamed r
        ((l.map fun q => (q.1.rename r, q.2)).foldl (fun l q => l.place q.2 q.1) a') := by
    induction l generalizing a a' with
    | nil         => exact ha
    | cons q l hi => exact hi (ha.place q.2 q.1)
  have hempty : Layout.empty.Renamed r .empty :=
    ⟨⟨fun _ => by simp [Layout.empty, empty], rfl, rfl, rfl⟩, rfl, rfl, rfl⟩
  have hzip : t'.symbols.toList.zipIdx =
      t.symbols.toList.zipIdx.map fun q => (q.1.rename r, q.2) := by
    rw [h.symbols, Array.toList_map, List.zipIdx_map]
    rfl
  rw [sequential, sequential, hzip]
  exact (hfold _ hempty).environment

end Environment

theorem SymbolTable.Renamed.referenced? {t t' : SymbolTable} (h : t.Renamed r t') (i : NodeId) :
    t'.referenced? i = t.referenced? i :=
  congrArg (·[i]?) h.references

theorem SymbolTable.Renamed.variableAt {t t' : SymbolTable} (h : t.Renamed r t')
    (hv : Emit.variableAt (.sequential t) i = .ok (s, v)) :
    Emit.variableAt (.sequential t') i = .ok (s, { v with type := v.type.rename r.name }) := by
  have hv := Emit.orMissing_eq_ok.mp hv
  refine Emit.orMissing_eq_ok.mpr ?_
  simp only [Emit.Context.sequential, Option.bind_eq_bind, Option.bind_eq_some_iff, h.referenced?,
    h.symbol?] at hv ⊢
  obtain ⟨s', hs, x, hx, w, hw, he⟩ := hv
  obtain ⟨rfl, rfl⟩ := Prod.mk.inj (Option.some.inj he)
  refine ⟨s', hs, x.rename r, by rw [hx]; rfl, { w with type := w.type.rename r.name }, ?_, rfl⟩
  obtain ⟨name, kind, declaration⟩ := x
  cases kind with
  | ofType | ofMethod => cases hw
  | ofVariable        => exact Option.some.inj hw ▸ rfl

-- A table and the one with other names tell the same of the nodes.
theorem SymbolTable.Renamed.agreement {t t' : SymbolTable} (h : t.Renamed r t') :
    Emit.Agreement (.renaming r) .id (.sequential t) (.sequential t') where
  types {k i i' τ} _ hi ht := by
    obtain rfl := hi
    show t'.typeOf? i = _
    rw [h.types, show t.typeOf? i = _ from ht]
    rfl
  refers {i i' s v} hi hv := by
    obtain rfl := hi
    exact ⟨s, _, h.variableAt hv, rfl, fun _ => rfl, fun f _ hf =>
      ((Environment.sequential_renamed h).fieldHandle s).trans hf⟩
  calls {i i' s m} hi hs hm := by
    obtain rfl := hi
    exact ⟨s, (h.referenced? i).trans hs, ((Environment.sequential_renamed h).methodHandle s).trans hm⟩
  objects {name τ c} hτ hc :=
    ⟨τ, (Environment.sequential_renamed h).typeHandle hτ,
      ((Environment.sequential_renamed h).constructor τ).trans hc⟩
  arrays {name τ} hτ := (Environment.sequential_renamed h).typeHandle hτ

theorem Instruction.Like.eq (h : Instruction.Like Eq .id i i') : i' = i := by
  obtain ⟨o, p⟩ := i
  obtain ⟨o', p'⟩ := i'
  obtain ⟨ho, hp⟩ := h
  have hp : p' = p := by
    cases hp with
    | none   => rfl
    | some h => exact congrArg some h.symm
  rw [show o' = o from ho.trans o.map_id, hp]

theorem Chunk.Like.eq (h : Chunk.Like Eq .id c c') : c' = c := by
  obtain ⟨is, ls⟩ := c
  obtain ⟨is', ls'⟩ := c'
  obtain ⟨hi, hl⟩ := h
  have hi : is' = is :=
    Array.toList_inj.mp (List.forall₂_eq_eq_eq ▸ hi.flip.imp fun _ _ h => h.eq)
  rw [hi, show ls' = ls from hl]

-- A program and the one with other names, with the tables that accept them.
structure Twins (r : Renaming) (p : Program) (t t' : SymbolTable) : Prop where
  accepted  : Accepted p t
  accepted' : Accepted (p.rename r) t'
  table     : t.Renamed r t'

def Emit.MethodTask.rename (r : Renaming) (task : MethodTask) : MethodTask :=
  ⟨r.name task.className, task.symbol, Statement.renameAll r task.statements⟩

-- An entry and the one that stands for it when names are others.
inductive MethodCode.Renamed (r : Renaming) (p : Program) : MethodCode → MethodCode → Prop
  | main : p.mainClass = some c →
    Renamed r p ⟨c.name ++ "." ++ "main", k⟩ ⟨r.name c.name ++ "." ++ "main", k⟩
  | method : c ∈ p.classes → .method m ∈ c.members →
    Renamed r p ⟨c.name ++ "." ++ m.name, k⟩ ⟨r.name c.name ++ "." ++ r.name m.name, k⟩

namespace Twins

open Resolve Typing

variable {p : Program} {t t' : SymbolTable}

theorem mainSymbol (h : Twins r p t t') (c : MainClass) :
    Emit.mainSymbol (.sequential t') (c.rename r) = Emit.mainSymbol (.sequential t) c := by
  have hb := h.table.scopes
  refine congrArg (Environment.orMissing _) ?_
  show (t'.scopeOf? c.id).bind _ = (t.scopeOf? c.id).bind _
  rw [show t'.scopeOf? c.id = t.scopeOf? c.id from congrArg (·[c.id]?) h.table.nodeScopes]
  refine congrArg _ (funext fun i => ?_)
  have hb := hb i
  show (t'.scope? i).bind _ = (t.scope? i).bind _
  generalize t.scope? i = o at hb
  generalize t'.scope? i = o' at hb
  cases hb with
  | none    => rfl
  | some hb =>
    have hl := hb.lookup .methodNames "main"
    rwa [Renaming.name_main] at hl

theorem isTask (h : Twins r p t t') (ht : Emit.IsTask (.sequential t) p task) :
    Emit.IsTask (.sequential t') (p.rename r) (task.rename r) := by
  cases ht with
  | @main c s hc hs         =>
    exact .main (c := c.rename r) (by rw [Program.rename, hc]; rfl) ((h.mainSymbol c).trans hs)
  | @method c s m hc hm hs =>
    refine .method (c := c.rename r) (m := m.rename r) (List.mem_map_of_mem hc) (List.mem_map_of_mem hm) ?_
    exact (congrArg (·[m.id]?) h.table.declared).trans hs

theorem exists_task (h : Twins r p t t') (ht : Emit.IsTask (.sequential t') (p.rename r) task') :
    ∃ task, Emit.IsTask (.sequential t) p task ∧ task' = task.rename r := by
  cases ht with
  | main hc' hs =>
    obtain ⟨c, hc, rfl⟩ := Option.map_eq_some_iff.mp hc'
    exact ⟨_, .main hc ((h.mainSymbol c).symm.trans hs), rfl⟩
  | method hc' hm' hs =>
    obtain ⟨c, hc, rfl⟩ := List.mem_map.mp hc'
    obtain ⟨m, hm, he⟩ := List.mem_map.mp hm'
    cases m with
    | field _ | malformed _ => cases he
    | method m              =>
      obtain rfl := Member.method.inj he
      exact ⟨_, .method hc hm ((congrArg (·[m.id]?) h.table.declared).symm.trans hs), rfl⟩

-- The code of a method has no names.
theorem chunk_eq (h : Twins r p t t') (ht : Emit.IsTask (.sequential t) p task)
    (hc : Emit.chunk (.sequential t) task.statements = .ok k) :
    Emit.chunk (.sequential t') (task.rename r).statements = .ok k := by
  obtain ⟨c, m, b, hof⟩ := h.accepted.exists_methodOf ht
  obtain ⟨l, hl⟩ := h.accepted.exists_lineage hof.declared
  obtain ⟨F, hF⟩ := (h.accepted.resolved.passes c l hl b hof.body).checks.statements
  rw [hof.statements] at hF
  obtain ⟨k', hk', hlike⟩ := Emit.chunk_like h.table.agreement hc hF
    (Statement.likeAll_rename task.statements) (ht.nodup h.accepted.nodup)
    ((h.isTask ht).nodup h.accepted'.nodup)
  exact hk'.trans (congrArg Except.ok hlike.eq)

theorem renamed_of_isTask (h : Twins r p t t') (ht : Emit.IsTask (.sequential t) p task)
    (hn : m.name = task.title (.sequential t)) (hn' : m'.name = (task.rename r).title (.sequential t'))
    (hc : m'.chunk = m.chunk) : MethodCode.Renamed r p m m' := by
  have htitle {x} (hx : t.symbol? task.symbol = some x) : m = ⟨task.className ++ "." ++ x.name, m.chunk⟩ ∧
      m' = ⟨r.name task.className ++ "." ++ r.name x.name, m.chunk⟩ := by
    have hx' : t'.symbol? task.symbol = some (x.rename r) := by rw [h.table.symbol?, hx]; rfl
    simp only [Emit.MethodTask.title, Emit.MethodTask.rename, Emit.Context.sequential, hx, hx',
      Option.map_some, Option.getD_some] at hn hn'
    exact ⟨congrArg (MethodCode.mk · m.chunk) hn, congrArg₂ MethodCode.mk hn' hc⟩
  cases ht with
  | main hc hs      =>
    obtain ⟨_, _, hx⟩ := (h.accepted.methodOf_main hc hs).symbol
    obtain ⟨hm, hm'⟩ := htitle hx
    rw [hm, hm', Renaming.name_main]
    exact .main hc
  | method hc hm hs =>
    obtain ⟨_, _, hx⟩ := (h.accepted.methodOf_method hc hm hs).symbol
    obtain ⟨he, he'⟩ := htitle hx
    rw [he, he']
    exact .method hc hm

-- Both codes have the entry of a method under the same handle.
theorem entries (h : Twins r p t t') (hcode : ProgramCode.generate t (.sequential t) p = .ok code)
    (hcode' : ProgramCode.generate t' (.sequential t') (p.rename r) = .ok code')
    (ht : Emit.IsTask (.sequential t) p task) :
    ∃ handle m m', (Environment.sequential t).methodHandle task.symbol = .ok handle ∧
      code[handle.number]? = some m ∧ code'[handle.number]? = some m' ∧ MethodCode.Renamed r p m m' := by
  obtain ⟨handle, m, hh, hm, hof⟩ := h.accepted.exists_entry hcode ht
  obtain ⟨handle', m', hh', hm', hof'⟩ := h.accepted'.exists_entry hcode' (h.isTask ht)
  obtain rfl : handle' = handle := by
    have he := (Environment.sequential_renamed h.table).methodHandle task.symbol
    exact Except.ok.inj (hh'.symm.trans (he.trans hh))
  have hchunk : m'.chunk = m.chunk :=
    Except.ok.inj (hof'.chunk.symm.trans (h.chunk_eq ht hof.chunk))
  exact ⟨handle', m, m', hh, hm, hm', h.renamed_of_isTask ht (h.accepted.name_of_entry hcode ht hh hm)
    (h.accepted'.name_of_entry hcode' (h.isTask ht) hh' hm') hchunk⟩

theorem codes (h : Twins r p t t') (hcode : ProgramCode.generate t (.sequential t) p = .ok code)
    (hcode' : ProgramCode.generate t' (.sequential t') (p.rename r) = .ok code') (k : Nat) :
    Option.Rel (MethodCode.Renamed r p) code[k]? code'[k]? := by
  cases hk : code[k]? with
  | some m =>
    obtain ⟨task, hof⟩ := Emit.Sourced.program (ProgramCode.generate_eq_ok.mp hcode) k m hk
    obtain ⟨handle, m₁, m', hh, hm, hm', hr⟩ := h.entries hcode hcode' hof.task
    obtain rfl := Except.ok.inj (hof.handle.symm.trans hh)
    obtain rfl := Option.some.inj (hk.symm.trans hm)
    rw [hm']
    exact .some hr
  | none   =>
    cases hk' : code'[k]? with
    | none    => exact .none
    | some m' =>
      obtain ⟨task', hof'⟩ := Emit.Sourced.program (ProgramCode.generate_eq_ok.mp hcode') k m' hk'
      obtain ⟨task, ht, rfl⟩ := h.exists_task hof'.task
      obtain ⟨handle, m, _, hh, hm, _, _⟩ := h.entries hcode hcode' ht
      have he := (Environment.sequential_renamed h.table).methodHandle task.symbol
      obtain rfl := Except.ok.inj (hof'.handle.symm.trans (he.trans hh))
      cases hk.symm.trans hm

end Twins

theorem isIdentifier_lexed (h : isIdentifier word = true) : (TokenKind.identifier word).Lexed := by
  have hk := of_decide_eq_true (Bool.and_eq_true_iff.mp h).1
  exact hk ▸ Scan.lexed_cutLexeme word.toList

theorem TokenStream.lexed_rename (r : Renaming) (text : String) :
    ∀ t ∈ ((ofText text).rename r).tokens, t.kind.Lexed := by
  intro t' ht'
  obtain ⟨t, ht, rfl⟩ := List.mem_map.mp ht'
  have hl := lexed_ofText text t ht
  have hi {name} : t.kind = .identifier name → isIdentifier name = true := isIdentifier_of_ofText ht
  obtain ⟨kind, p⟩ := t
  cases kind with
  | identifier name => exact isIdentifier_lexed (Renaming.isIdentifier_name.trans (hi rfl))
  | _               => exact hl

-- What is the same, but for names, with other identifiers.
structure CompilesAlike (r : Renaming) (s : TokenStream) : Prop where
  reads     : ParsedProgram.ofStream (s.rename r) = (ParsedProgram.ofStream s).rename r
  parses    : (∃ p, Program.ofStream s = .ok p) ↔ ∃ p, Program.ofStream (s.rename r) = .ok p
  reports   : (ResolvedProgram.ofProgram (ParsedProgram.ofStream (s.rename r)).program).diagnostics =
    (ResolvedProgram.ofProgram (ParsedProgram.ofStream s).program).diagnostics.map (·.rename r)
  resolves  : (∃ t, SymbolTable.ofProgram (ParsedProgram.ofStream s).program = .ok t) ↔
    ∃ t, SymbolTable.ofProgram (ParsedProgram.ofStream (s.rename r)).program = .ok t
  generates : Program.ofStream s = .ok p → SymbolTable.ofProgram p = .ok t →
    ∃ t' code code', Program.ofStream (s.rename r) = .ok (p.rename r) ∧
      SymbolTable.ofProgram (p.rename r) = .ok t' ∧
      ProgramCode.generate t (.sequential t) p = .ok code ∧
      ProgramCode.generate t' (.sequential t') (p.rename r) = .ok code' ∧
      ∀ k : Nat, Option.Rel (MethodCode.Renamed r p) code[k]? code'[k]?

theorem Program.ofStream_rename {s : TokenStream} (h : ∀ t ∈ s.tokens, t.kind.NamesBuiltin)
    (hp : Program.ofStream s = .ok p) : Program.ofStream (s.rename r) = .ok (p.rename r) := by
  obtain ⟨hd, rfl⟩ := Program.ofStream_eq_ok.mp hp
  refine Program.ofStream_eq_ok.mpr ?_
  rw [ParsedProgram.ofStream_rename h]
  exact ⟨List.map_eq_nil_iff.mpr hd, rfl⟩

theorem exists_acceptUnless {ds : List Diagnostic} {a : α} :
    (∃ b, acceptUnless ds a = .ok b) ↔ ds = [] :=
  ⟨fun ⟨_, h⟩ => (acceptUnless_eq_ok.mp h).1, fun h => ⟨a, acceptUnless_eq_ok.mpr ⟨h, rfl⟩⟩⟩

theorem Twins.of_ofText (r : Renaming) (hp : Program.ofStream (.ofText text) = .ok p)
    (ht : SymbolTable.ofProgram p = .ok t) :
    ∃ t', SymbolTable.ofProgram (p.rename r) = .ok t' ∧ Twins r p t t' := by
  obtain ⟨hd, rfl⟩ := acceptUnless_eq_ok.mp ht
  obtain ⟨htable, hdiagnostics⟩ := ResolvedProgram.ofProgram_rename (r := r) p
  have ht' : SymbolTable.ofProgram (p.rename r) = .ok (ResolvedProgram.ofProgram (p.rename r)).table :=
    acceptUnless_eq_ok.mpr ⟨by rw [hdiagnostics, hd, List.map_nil], rfl⟩
  obtain ⟨hd', hp'⟩ := Program.ofStream_eq_ok.mp
    (Program.ofStream_rename (r := r) (TokenStream.namesBuiltin_ofText text) hp)
  have hproper : (p.rename r).Proper :=
    hp' ▸ (ParsedProgram.isProgram hd').proper (TokenStream.lexed_rename r text)
  have hnodup : (p.rename r).nodeIds.Nodup := hp' ▸ ParsedProgram.nodup_nodeIds _
  exact ⟨_, ht', accepted_of_ofText hp ht, accepted_of_proper hproper hnodup ht', htable⟩

-- Other identifiers change nothing but names.
theorem Renaming.compilesAlike (r : Renaming) (text : String) : CompilesAlike r (.ofText text) := by
  have hreads := ParsedProgram.ofStream_rename (r := r) (TokenStream.namesBuiltin_ofText text)
  have hreports := (ResolvedProgram.ofProgram_rename (r := r)
    (ParsedProgram.ofStream (.ofText text)).program).2
  constructor
  case reads     => exact hreads
  case parses    =>
    rw [Program.ofStream, Program.ofStream, hreads, exists_acceptUnless, exists_acceptUnless]
    exact List.map_eq_nil_iff.symm
  case reports   =>
    rw [hreads]
    exact hreports
  case resolves  =>
    rw [hreads, SymbolTable.ofProgram, SymbolTable.ofProgram, exists_acceptUnless, exists_acceptUnless]
    exact (hreports ▸ List.map_eq_nil_iff).symm
  case generates =>
    intro p t hp ht
    obtain ⟨t', ht', htwins⟩ := Twins.of_ofText r hp ht
    obtain ⟨code, hcode⟩ := htwins.accepted.exists_code
    obtain ⟨code', hcode'⟩ := htwins.accepted'.exists_code
    exact ⟨t', code, code', Program.ofStream_rename (TokenStream.namesBuiltin_ofText text) hp, ht', hcode,
      hcode', htwins.codes hcode hcode'⟩

def named : String :=
  "class M { public static void main() { int x; x = 1; } } class C { public int f(int x) { } }"

theorem Renaming.compilesAlike_named :
    let r : Renaming := .swap (a := "x") (b := "f") (by decide +kernel) (by decide +kernel)
    let p := (ParsedProgram.ofStream (.ofText named)).program
    let t := (ResolvedProgram.ofProgram p).table
    r.name "x" = "f" ∧ Program.ofStream (.ofText named) = .ok p ∧ SymbolTable.ofProgram p = .ok t ∧
      ∃ t' code code', SymbolTable.ofProgram (p.rename r) = .ok t' ∧
        ProgramCode.generate t (.sequential t) p = .ok code ∧
        ProgramCode.generate t' (.sequential t') (p.rename r) = .ok code' ∧
        ∀ k : Nat, Option.Rel (MethodCode.Renamed r p) code[k]? code'[k]? := by
  intro r p t
  have hp : Program.ofStream (.ofText named) = .ok p :=
    Program.ofStream_eq_ok.mpr ⟨by decide +kernel, rfl⟩
  have ht : SymbolTable.ofProgram p = .ok t := acceptUnless_eq_ok.mpr ⟨by decide +kernel, rfl⟩
  obtain ⟨t', code, code', _, ht', hcode, hcode', hcodes⟩ := (r.compilesAlike named).generates hp ht
  exact ⟨by decide +kernel, hp, ht, t', code, code', ht', hcode, hcode', hcodes⟩

end MiniJava
