import Mathlib.Data.List.Sort
import MiniJava.Proofs.Emit.Counterparts
import MiniJava.Proofs.Grammar.Order
import MiniJava.Proofs.Listing.Line
import MiniJava.Proofs.Renaming.Basic

namespace MiniJava

open Resolve Typing

namespace Scan

-- A word has no character that could part it from others.
theorem isWordChar_of_identifier (text : List Char) :
    ∀ name, (cutLexeme text).1.kind = .identifier name → ∀ c ∈ name.toList, isWordChar c = true := by
  intro name h d hd
  obtain ⟨c, rest, -, hl, rfl, -⟩ := exists_word_of_identifier h
  rw [String.toList_ofList] at hd
  rcases List.mem_cons.mp hd with rfl | hd
  case inl => simp [isWordChar, hl]
  case inr => exact List.mem_takeWhile_imp hd

end Scan

namespace Program

variable {p : Program}

-- The methods of the classes, each with the class that declares it, in the order of the text.
def methods (p : Program) : List (ClassDeclaration × MethodDeclaration) :=
  p.classes.flatMap fun c => c.methods.map (c, ·)

theorem mem_methods : (c, m) ∈ p.methods ↔ c ∈ p.classes ∧ .method m ∈ c.members := by
  have hmethods : m ∈ c.methods ↔ .method m ∈ c.members := by
    refine List.mem_filterMap.trans ⟨?_, fun h => ⟨_, h, rfl⟩⟩
    rintro ⟨m', hm, he⟩
    cases m' with
    | method m''            => exact Option.some.inj he ▸ hm
    | field _ | malformed _ => cases he
  simp [methods, hmethods, and_comm]

theorem signatures_eq (hc : p.mainClass = some main) :
    p.signatures = ⟨"main", .void, [], none⟩ :: p.methods.map (·.2.signature) := by
  simp [signatures, methods, allClasses, hc, AnyClass.signatures, List.flatMap_map,
    List.map_flatMap, Function.comp_def]

theorem methodKeys_eq (hc : p.mainClass = some main) :
    p.methodKeys = (main.name, "main") :: p.methods.map fun q => (q.1.name, q.2.name) := by
  simp [methodKeys, methods, allClasses, hc, AnyClass.signatures, AnyClass.name,
    MethodDeclaration.signature, List.flatMap_map, List.map_flatMap, Function.comp_def]

theorem methods_ordered (h : Program.ofStream (.ofText text) = .ok p) :
    (p.methods.map (·.2.position)).Pairwise Position.Before := by
  obtain ⟨hd, rfl⟩ := ofStream_eq_ok.mp h
  obtain ⟨m, hm, hs⟩ := (ParsedProgram.isProgram hd).passes
  have hplaces := (Scan.consists_ofText text).pairwise_before
  rw [List.pairwise_append, hm, List.append_nil] at hplaces
  simpa [methods, List.map_flatMap, Function.comp_def] using
    (List.pairwise_map.mpr hplaces.1).sublist hs

theorem isWordChar_of_className (h : Program.ofStream (.ofText text) = .ok p)
    (hc : c ∈ allClasses p) : ∀ d ∈ c.name.toList, Scan.isWordChar d = true := by
  obtain ⟨hd, rfl⟩ := ofStream_eq_ok.mp h
  obtain ⟨t, ht, hk⟩ := (ParsedProgram.isProgram hd).className hc
  exact Scan.forall_stream (P := fun k => ∀ name, k = .identifier name →
    ∀ c ∈ name.toList, Scan.isWordChar c = true) Scan.isWordChar_of_identifier _ t ht _ hk

-- What an entry for a method of a class is called.
def title (key : String × String) : String :=
  key.1 ++ "." ++ key.2

theorem title_inj {key key' : String × String} (hk : ∀ c ∈ key.1.toList, Scan.isWordChar c = true)
    (hk' : ∀ c ∈ key'.1.toList, Scan.isWordChar c = true) (h : title key = title key') :
    key = key' := by
  have h := congrArg String.toList h
  simp only [title, String.toList_append, List.append_assoc,
    show (".").toList = ['.'] from rfl, List.singleton_append] at h
  obtain ⟨hclass, -, hname⟩ := Line.append_cons_inj hk hk' (by decide) (by decide) h
  exact Prod.ext (String.toList_inj.mp hclass) (String.toList_inj.mp hname)

end Program

namespace ProgramCode

theorem mem_values {code : ProgramCode} : e ∈ code.values ↔ ∃ k : Nat, code[k]? = some e := by
  have hvalues : code.values = code.toList.map Prod.snd := by
    rw [Std.TreeMap.values, Std.DTreeMap.values, Std.TreeMap.toList, Std.DTreeMap.Const.toList,
      Std.DTreeMap.Internal.Impl.Const.toList_eq_toListModel_map,
      Std.DTreeMap.Internal.Impl.values, Std.DTreeMap.Internal.Impl.foldr_eq_foldr]
    simp
  rw [hvalues, List.mem_map]
  simp only [Prod.exists, exists_eq_right, Std.TreeMap.mem_toList_iff_getElem?_eq_some]

theorem keys_eq_range {code : ProgramCode} (h : ∀ k, k ∈ code ↔ k < n) :
    code.keys = List.range n := by
  refine List.Pairwise.eq_of_mem_iff (r := (· < ·)) ?ordered List.pairwise_lt_range fun k => ?mem
  case ordered => exact Std.TreeMap.ordered_keys.imp fun h => Nat.compare_eq_lt.mp h
  case mem => rw [Std.TreeMap.mem_keys, h, List.mem_range]

-- An entry is found by its name if no other entry has the name.
theorem method?_name {code : ProgramCode} (h : ∀ (k : Nat) e', code[k]? = some e' → e'.name = e.name → e' = e)
    {k : Nat} (he : code[k]? = some e) : code.method? e.name = some e := by
  obtain ⟨e', he'⟩ : ∃ e', code.method? e.name = some e' :=
    Option.isSome_iff_exists.mp
      (List.find?_isSome.mpr ⟨e, mem_values.mpr ⟨k, he⟩, decide_eq_true rfl⟩)
  obtain ⟨k', hk'⟩ := mem_values.mp (List.mem_of_find?_eq_some he')
  have hn : e'.name = e.name := by simpa using List.find?_some (show code.values.find? _ = _ from he')
  rw [he', h k' e' hk' hn]

end ProgramCode

-- The entry for a method.
structure MethodCode.IsFor (e : MethodCode) (g : Emit.Context) (className methodName : String)
    (ss : List Statement) : Prop where
  name  : e.name = className ++ "." ++ methodName
  chunk : Emit.chunk g ss = .ok e.chunk

-- The code has an entry for each method, in order, and no others.
structure ProgramCode.Catalogues (code : ProgramCode) (g : Emit.Context) (p : Program) : Prop where
  keys    : code.keys = List.range (p.methods.length + 1)
  main    : ∃ c e, p.mainClass = some c ∧ code[0]? = some e ∧ e.IsFor g c.name "main" c.body
  methods : ∀ (i : Nat) c m, p.methods[i]? = some (c, m) →
    ∃ e, code[i + 1]? = some e ∧ e.IsFor g c.name m.name m.body
  names   : ∀ (i j : Nat) e e', code[i]? = some e → code[j]? = some e' → e.name = e'.name → i = j
  finds   : ∀ (i : Nat) e, code[i]? = some e → code.method? e.name = some e

namespace Environment

-- All symbols of a kind have handles, each another one, and just the classes have constructors.
structure Separates (e : Environment) (t : SymbolTable) : Prop where
  methods      : ∀ s x, t.symbol? s = some x → x.asMethod?.isSome = true →
    ∃ h, e.methodHandle s = .ok h ∧ ∀ s', e.methodHandle s' = .ok h → s' = s
  fields       : ∀ s x, t.symbol? s = some x → x.isField = true →
    ∃ h, e.fieldHandle s = .ok h ∧ ∀ s', e.fieldHandle s' = .ok h → s' = s
  types        : ∀ s x, t.symbol? s = some x → x.asType?.isSome = true →
    ∃ h, e.typeHandle x.name = .ok h ∧ ∀ s' x', t.symbol? s' = some x' →
      x'.asType?.isSome = true → e.typeHandle x'.name = .ok h → s' = s
  constructors : ∀ h, (∃ c, e.constructor h = .ok c) ↔
    ∃ s x, t.symbol? s = some x ∧ x.isClass = true ∧ e.typeHandle x.name = .ok h

theorem fieldHandle_inj (h : (sequential t).fieldHandle s = .ok f)
    (h' : (sequential t).fieldHandle s' = .ok f) : s = s' := by
  have hp := (numbers_fields.placeAll (Accepted.nodup_keys t _)).2
  obtain ⟨k, hk, hf⟩ := (hp s f).mp h
  obtain ⟨k', hk', rfl⟩ := (hp s' f).mp h'
  obtain rfl := FieldHandle.mk.inj hf
  exact Option.some.inj (hk.symm.trans hk')

end Environment

namespace Accepted

variable {p : Program} {t : SymbolTable}

-- No two types have a name in common.
theorem eq_of_typeName (h : Accepted p t) (ho : t.outlines = p.outerOutlines ++ p.innerOutlines)
    (hx : t.symbol? s = some x) (hk : x.asType?.isSome = true) (hx' : t.symbol? s' = some x')
    (hk' : x'.asType?.isSome = true) (hn : x.name = x'.name) : s = s' := by
  have hnodup := h.nodup_typeNames
  rw [← h.keys_types ho, Environment.keys] at hnodup
  have hmem {s x} (hx : t.symbol? s = some x) (hk : x.asType?.isSome = true) :
      (x, s) ∈ t.symbols.toList.zipIdx.filter fun q => q.1.asType?.isSome :=
    List.mem_filter.mpr ⟨Environment.mem_symbols_iff.mpr hx, hk⟩
  exact (Prod.mk.inj (List.inj_on_of_nodup_map hnodup (hmem hx hk) (hmem hx' hk') hn)).2

theorem separates (h : Accepted p t) (ho : t.outlines = p.outerOutlines ++ p.innerOutlines) :
    (Environment.sequential t).Separates t where
  methods _ _ hx hk   := by
    obtain ⟨m, hm⟩ := Environment.exists_methodHandle hx hk
    exact ⟨m, hm, fun _ hm' => Environment.methodHandle_inj hm' hm⟩
  fields _ _ hx hk    := by
    obtain ⟨f, hf⟩ := Environment.exists_fieldHandle hx hk
    exact ⟨f, hf, fun _ hf' => Environment.fieldHandle_inj hf' hf⟩
  types _ _ hx hk     := by
    obtain ⟨τ, hτ⟩ := Environment.exists_typeHandle hx hk
    refine ⟨τ, hτ, fun _ _ hx' hk' hτ' => h.eq_of_typeName ho hx' hk' hx hk ?_⟩
    have hn := (h.typeHandle_eq_ok ho).mp hτ
    exact Option.some.inj (((h.typeHandle_eq_ok ho).mp hτ').symm.trans hn)
  constructors τ      := by
    constructor
    case mp  =>
      rintro ⟨c, hc⟩
      obtain ⟨_, x, s, hx, hclass⟩ := Environment.constructor_placeAll hc
      have hmem := (List.mem_filter.mp (List.mem_of_getElem? hx)).1
      refine ⟨s, x, Environment.mem_symbols_iff.mp hmem, hclass, (h.typeHandle_eq_ok ho).mpr ?_⟩
      rw [← h.keys_types ho, Environment.keys, List.getElem?_map, hx]
      rfl
    case mpr =>
      rintro ⟨s, x, hx, hclass, hτ⟩
      exact Environment.exists_constructor h.tree hτ (h.name_of_isClass ho hx hclass)

section

variable {code : ProgramCode} {k : Nat}

-- The entry of a method has the number of its signature.
theorem exists_entry_of_signature (h : Accepted p t)
    (ho : t.outlines = p.outerOutlines ++ p.innerOutlines)
    (hcode : ProgramCode.generate t (.sequential t) p = .ok code)
    (ht : Emit.IsTask (.sequential t) p task) (hs : t.HasMethod task.symbol m)
    (hk : p.signatures[k]? = some m) :
    ∃ e, code[k]? = some e ∧ e.IsFor (.sequential t) task.className m.name task.statements := by
  obtain ⟨handle, e, hh, he, hof⟩ := h.exists_entry hcode ht
  have hn := h.name_of_entry hcode ht hh he
  obtain rfl := Except.ok.inj (hh.symm.trans (h.methodHandle_eq ho hk hs))
  obtain ⟨_, _, hx⟩ := hs
  rw [Emit.MethodTask.title, show (Emit.Context.sequential t).table.symbol? _ = _ from hx] at hn
  exact ⟨e, he, hn, hof.chunk⟩

theorem exists_mainEntry (h : Accepted p t) (ho : t.outlines = p.outerOutlines ++ p.innerOutlines)
    (hcode : ProgramCode.generate t (.sequential t) p = .ok code) (hc : p.mainClass = some c) :
    ∃ e, code[0]? = some e ∧ e.IsFor (.sequential t) c.name "main" c.body := by
  obtain ⟨s, hs, hm⟩ := h.exists_mainSymbol hc
  exact h.exists_entry_of_signature ho hcode (.main hc hs) hm (by rw [Program.signatures_eq hc]; rfl)

theorem exists_methodEntry (h : Accepted p t)
    (ho : t.outlines = p.outerOutlines ++ p.innerOutlines)
    (hcode : ProgramCode.generate t (.sequential t) p = .ok code)
    (hi : p.methods[i]? = some (c, m)) :
    ∃ e, code[i + 1]? = some e ∧ e.IsFor (.sequential t) c.name m.name m.body := by
  obtain ⟨main, hmain, _⟩ := h.proper.mainClass
  obtain ⟨hc, hm⟩ := Program.mem_methods.mp (List.mem_of_getElem? hi)
  obtain ⟨s, hs, hsig⟩ := h.exists_methodSymbol hc hm
  refine h.exists_entry_of_signature ho hcode (.method hc hm hs) hsig ?_
  rw [Program.signatures_eq hmain, List.getElem?_cons_succ, List.getElem?_map, hi]
  rfl

-- There is an entry under every number that a method has, and under no other.
theorem mem_code (h : Accepted p t) (ho : t.outlines = p.outerOutlines ++ p.innerOutlines)
    (hcode : ProgramCode.generate t (.sequential t) p = .ok code) :
    k ∈ code ↔ k < p.methods.length + 1 := by
  obtain ⟨c, hc, _⟩ := h.proper.mainClass
  rw [Std.TreeMap.mem_iff_isSome_getElem?, Option.isSome_iff_exists]
  constructor
  case mp  =>
    rintro ⟨e, he⟩
    obtain ⟨task, hof⟩ := Emit.Sourced.program (ProgramCode.generate_eq_ok.mp hcode) k e he
    obtain ⟨c', m, b, hm⟩ := h.exists_methodOf hof.task
    have hmem : m ∈ p.signatures := List.mem_flatMap.mpr ⟨c', hm.declared, hm.signature⟩
    obtain ⟨j, hj⟩ := List.mem_iff_getElem?.mp hmem
    obtain ⟨⟩ := Except.ok.inj (hof.handle.symm.trans (h.methodHandle_eq ho hj hm.symbol))
    rw [Program.signatures_eq hc] at hj
    simpa using (List.getElem?_eq_some_iff.mp hj).1
  case mpr =>
    intro hk
    cases k with
    | zero   =>
      obtain ⟨e, he, _⟩ := h.exists_mainEntry ho hcode hc
      exact ⟨e, he⟩
    | succ i =>
      have hi := List.getElem?_eq_getElem (Nat.lt_of_succ_lt_succ hk)
      obtain ⟨e, he, _⟩ := h.exists_methodEntry ho hcode hi
      exact ⟨e, he⟩

theorem name_of_mem (h : Accepted p t) (ho : t.outlines = p.outerOutlines ++ p.innerOutlines)
    (hcode : ProgramCode.generate t (.sequential t) p = .ok code) (he : code[k]? = some e) :
    ∃ key, p.methodKeys[k]? = some key ∧ e.name = Program.title key := by
  obtain ⟨c, hc, _⟩ := h.proper.mainClass
  rw [Program.methodKeys_eq hc]
  cases k with
  | zero   =>
    obtain ⟨e', he', hfor⟩ := h.exists_mainEntry ho hcode hc
    obtain rfl := Option.some.inj (he.symm.trans he')
    exact ⟨_, rfl, hfor.name⟩
  | succ i =>
    have hk := (h.mem_code ho hcode).mp (Std.TreeMap.mem_iff_isSome_getElem?.mpr (by rw [he]; rfl))
    have hi := List.getElem?_eq_getElem (Nat.lt_of_succ_lt_succ hk)
    obtain ⟨e', he', hfor⟩ := h.exists_methodEntry ho hcode hi
    obtain rfl := Option.some.inj (he.symm.trans he')
    exact ⟨(_, _), by rw [List.getElem?_cons_succ, List.getElem?_map, hi]; rfl, hfor.name⟩

end

end Accepted

namespace ProgramCode

-- No method is lost, and none takes the place or the name of another.
theorem generate_catalogued (hp : Program.ofStream (.ofText text) = .ok p)
    (ht : SymbolTable.ofProgram p = .ok t) :
    (p.methods.map (·.2.position)).Pairwise Position.Before ∧
      (Environment.sequential t).Separates t ∧
      ∃ code, generate t (.sequential t) p = .ok code ∧ code.Catalogues (.sequential t) p := by
  have h := accepted_of_ofText hp ht
  have ho := outlines_ofProgram h.proper h.nodup ht
  obtain ⟨code, hcode⟩ := h.exists_code
  obtain ⟨c, hc, _⟩ := h.proper.mainClass
  have hnames {i j : Nat} {e e'} (hi : code[i]? = some e) (hj : code[j]? = some e')
      (hn : e.name = e'.name) : i = j := by
    obtain ⟨key, hk, hkey⟩ := h.name_of_mem ho hcode hi
    obtain ⟨key', hk', hkey'⟩ := h.name_of_mem ho hcode hj
    have hword {k : Nat} {key} (hk : p.methodKeys[k]? = some key) :
        ∀ c ∈ key.1.toList, Scan.isWordChar c = true := by
      obtain ⟨c, hc, hm⟩ := List.mem_flatMap.mp (List.mem_of_getElem? hk)
      obtain ⟨m, _, rfl⟩ := List.mem_map.mp hm
      exact Program.isWordChar_of_className hp hc
    obtain rfl := Program.title_inj (hword hk) (hword hk') (hkey.symm.trans (hn.trans hkey'))
    exact index_unique h.nodup_methodKeys hk hk'
  refine ⟨Program.methods_ordered hp, h.separates ho, code, hcode, ?_⟩
  constructor
  case keys    => exact keys_eq_range fun k => h.mem_code ho hcode
  case main    =>
    obtain ⟨e, he, hfor⟩ := h.exists_mainEntry ho hcode hc
    exact ⟨c, e, hc, he, hfor⟩
  case methods => exact fun i c m hi => h.exists_methodEntry ho hcode hi
  case names   => exact fun i j e e' hi hj hn => hnames hi hj hn
  case finds   =>
    intro i e hi
    refine method?_name (fun k e' hk hn => ?_) hi
    obtain rfl := hnames hk hi hn
    exact Option.some.inj (hk.symm.trans hi)

def overriding : String :=
  "class M { public static void main() { } } class A { public int f() { } public int g() { } } class B extends A { public int f() { } }"

theorem generate_catalogued_overriding :
    let p := (ParsedProgram.ofStream (.ofText overriding)).program
    let t := (ResolvedProgram.ofProgram p).table
    ∃ code, generate t (.sequential t) p = .ok code ∧ code.keys = [0, 1, 2, 3] ∧
      code.Catalogues (.sequential t) p ∧ (Environment.sequential t).Separates t := by
  intro p t
  have hp : Program.ofStream (.ofText overriding) = .ok p :=
    Program.ofStream_eq_ok.mpr ⟨by decide +kernel, rfl⟩
  have ht : SymbolTable.ofProgram p = .ok t := acceptUnless_eq_ok.mpr ⟨by decide +kernel, rfl⟩
  obtain ⟨_, hs, code, hcode, hc⟩ := generate_catalogued hp ht
  have hlen : p.methods.length = 3 := by decide +kernel
  exact ⟨code, hcode, by rw [hc.keys, hlen]; rfl, hc, hs⟩

end ProgramCode

end MiniJava
