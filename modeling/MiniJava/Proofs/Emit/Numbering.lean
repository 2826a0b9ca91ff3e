import MiniJava.Proofs.Emit.Entries
import MiniJava.Proofs.Resolve.Outline
import MiniJava.Proofs.Semantics.Agreement

namespace MiniJava

namespace Environment

def Layout.placeAll (ps : List (Symbol × SymbolId)) : Layout :=
  ps.foldl (fun l (x, s) => l.place s x) .empty

theorem Layout.placeAll_concat (ps : List (Symbol × SymbolId)) (x : Symbol) (s : SymbolId) :
    placeAll (ps ++ [(x, s)]) = (placeAll ps).place s x := by
  simp [placeAll]

-- What the symbols of a sort are known by.
def keys (counts : Symbol → Bool) (key : Symbol → SymbolId → κ) (ps : List (Symbol × SymbolId)) :
    List κ :=
  (ps.filter fun p => counts p.1).map fun p => key p.1 p.2

-- A layout counts the symbols of a sort, and gives each of them the count so far as its handle.
structure Numbers (counts : Symbol → Bool) (key : Symbol → SymbolId → κ) (next : Layout → Nat)
    (handle : Layout → κ → Except InternalError η) (toHandle : Nat → η) : Prop where
  next_empty   : next .empty = 0
  handle_empty : ∀ k h, handle .empty k ≠ .ok h
  next_place   : ∀ l x s, next (l.place s x) = if counts x = true then next l + 1 else next l
  handle_place : ∀ (l : Layout) x s k, counts x = true →
    (key x s = k → handle (l.place s x) k = .ok (toHandle (next l))) ∧
      (key x s ≠ k → handle (l.place s x) k = handle l k)
  handle_other : ∀ (l : Layout) x s k, counts x = false → handle (l.place s x) k = handle l k

theorem getElem?_concat_eq_some {l : List α} :
    (l ++ [a])[i]? = some b ↔ l[i]? = some b ∨ i = l.length ∧ a = b := by
  rw [List.getElem?_append]
  split
  case isTrue h  => simp [Nat.ne_of_lt h]
  case isFalse h =>
    rw [List.getElem?_eq_none (Nat.le_of_not_lt h), List.getElem?_singleton]
    by_cases he : i = l.length
    case pos => simp [he]
    case neg => simp [he, show i - l.length ≠ 0 by omega]

section

variable {counts : Symbol → Bool} {key : Symbol → SymbolId → κ} {next : Layout → Nat}
  {handle : Layout → κ → Except InternalError η} {toHandle : Nat → η}

theorem Numbers.placeAll (h : Numbers counts key next handle toHandle)
    {ps : List (Symbol × SymbolId)} (hn : (keys counts key ps).Nodup) :
    next (.placeAll ps) = (keys counts key ps).length ∧ ∀ k m,
      handle (.placeAll ps) k = .ok m ↔ ∃ i, (keys counts key ps)[i]? = some k ∧ toHandle i = m := by
  induction ps using List.reverseRecOn with
  | nil                      =>
    exact ⟨h.next_empty, fun k m => iff_of_false (h.handle_empty k m) (by simp [keys])⟩
  | append_singleton ps p hi =>
    obtain ⟨x, s⟩ := p
    rw [Layout.placeAll_concat, h.next_place]
    cases hx : counts x with
    | false =>
      have hk : keys counts key (ps ++ [(x, s)]) = keys counts key ps := by simp [keys, hx]
      rw [hk] at hn ⊢
      exact ⟨(hi hn).1, fun k m => by rw [h.handle_other _ x s k hx, (hi hn).2]⟩
    | true  =>
      have hk : keys counts key (ps ++ [(x, s)]) = keys counts key ps ++ [key x s] := by
        simp [keys, hx]
      rw [hk] at hn ⊢
      obtain ⟨hnext, hhandle⟩ := hi hn.of_append_left
      have hfresh : key x s ∉ keys counts key ps := fun hm =>
        List.disjoint_of_nodup_append hn hm (List.mem_singleton_self _)
      refine ⟨by simp [hnext], fun k m => ?_⟩
      simp only [getElem?_concat_eq_some]
      by_cases he : key x s = k
      case pos =>
        subst he
        rw [(h.handle_place _ x s _ hx).1 rfl, hnext]
        constructor
        case mp  => exact fun hm => ⟨_, .inr ⟨rfl, rfl⟩, Except.ok.inj hm⟩
        case mpr =>
          rintro ⟨i, hi | ⟨rfl, _⟩, rfl⟩
          case inl => exact absurd (List.mem_of_getElem? hi) hfresh
          case inr => rfl
      case neg =>
        rw [(h.handle_place _ x s k hx).2 he, hhandle]
        simp [he]

end

theorem numbers_methods : Numbers (·.asMethod?.isSome) (fun _ s => s) (·.methods)
    (·.environment.methodHandle) MethodHandle.mk where
  next_empty             := rfl
  handle_empty           := by simp [Layout.empty, empty, methodHandle]
  next_place _ _ _       := Layout.methods_place
  handle_place l x s k h := by simp +contextual [Layout.methodHandle_place, h]
  handle_other l x s k h := by simp [Layout.methodHandle_place, h]

theorem Layout.fields_place {l : Layout} :
    (l.place s x).fields = if x.isField = true then l.fields + 1 else l.fields := by
  obtain ⟨_, k, _⟩ := x
  match k with
  | .ofVariable ⟨_, .field, _⟩     => rfl
  | .ofVariable ⟨_, .formal, _⟩    => rfl
  | .ofVariable ⟨_, .localSlot, _⟩ => rfl
  | .ofMethod _                    => rfl
  | .ofType _                      => rfl

theorem numbers_fields : Numbers (·.isField) (fun _ s => s) (·.fields)
    (·.environment.fieldHandle) FieldHandle.mk where
  next_empty             := rfl
  handle_empty           := by simp [Layout.empty, empty, fieldHandle]
  next_place _ _ _       := Layout.fields_place
  handle_place l x s k h := by simp +contextual [Layout.fieldHandle_place, h]
  handle_other l x s k h := by simp [Layout.fieldHandle_place, h]

theorem numbers_types : Numbers (·.asType?.isSome) (fun x _ => x.name) (·.types)
    (·.environment.typeHandle) TypeHandle.mk where
  next_empty             := rfl
  handle_empty           := by simp [Layout.empty, empty, typeHandle]
  next_place _ _ _       := Layout.types_place
  handle_place l x s k h := by simp +contextual [Layout.typeHandle_place, h]
  handle_other l x s k h := by simp [Layout.typeHandle_place, h]

-- A constructor has the number of its class.
theorem constructor_placeAll {ps : List (Symbol × SymbolId)} {h : TypeHandle}
    {c : ConstructorHandle} (hc : (Layout.placeAll ps).environment.constructor h = .ok c) :
    c.number = h.number ∧
      ∃ x s, (ps.filter (·.1.asType?.isSome))[h.number]? = some (x, s) ∧ x.isClass = true := by
  have hnext (ps) : (Layout.placeAll ps).types = (ps.filter (·.1.asType?.isSome)).length := by
    induction ps using List.reverseRecOn with
    | nil                      => rfl
    | append_singleton ps p hi =>
      rw [Layout.placeAll_concat, Layout.types_place, hi]
      split <;> simp [*]
  induction ps using List.reverseRecOn with
  | nil                      => simp [Layout.placeAll, Layout.empty, empty, constructor] at hc
  | append_singleton ps p hi =>
    obtain ⟨x, s⟩ := p
    rw [Layout.placeAll_concat, Layout.constructor_place] at hc
    split at hc
    case isTrue hx =>
      obtain rfl := Except.ok.inj hc
      refine ⟨hx.2, x, s, ?_, hx.1⟩
      have hs : x.asType?.isSome = true := Option.isSome_of_any hx.1
      simp [hs, ← hx.2, hnext]
    case isFalse =>
      obtain ⟨hn, x', s', hx', hk⟩ := hi hc
      refine ⟨hn, x', s', ?_, hk⟩
      rw [List.filter_append, List.getElem?_append_left (List.getElem?_eq_some_iff.mp hx').1]
      exact hx'

end Environment

namespace Program

open Resolve

-- The types, fields and methods of a program in the order of their handles.
def typeNames (p : Program) : List String :=
  builtinTypes ++ Typing.classNames p

def fields (p : Program) : List VariableDeclaration :=
  (allClasses p).flatMap (·.fields)

def signatures (p : Program) : List Signature :=
  (allClasses p).flatMap (·.signatures)

end Program

namespace SymbolTable

-- The symbols of a sort are those with an outline of the sort.
theorem filter_outlines (t : SymbolTable) (P : SymbolSort → Bool) (f : Outline → α) :
    ((t.symbols.toList.zipIdx.filter fun q => P q.1.kind.sort).map fun q => f q.1.outline) =
      (t.outlines.filter fun o => P o.sort).map f := by
  rw [outlines, List.filter_map, List.map_map]
  conv => rhs; rw [← List.zipIdx_map_fst 0 t.symbols.toList, List.filter_map, List.map_map]
  rfl

end SymbolTable

def SymbolSort.isType : SymbolSort → Bool
  | .builtinType | .declaredClass => true
  | .method | .variable _         => false

namespace Symbol

theorem isSome_asType? (x : Symbol) : x.asType?.isSome = x.kind.sort.isType := by
  obtain ⟨_, k, _⟩ := x
  match k with
  | .ofType ⟨true, _, _⟩  => rfl
  | .ofType ⟨false, _, _⟩ => rfl
  | .ofMethod _           => rfl
  | .ofVariable _         => rfl

theorem isSome_asMethod? (x : Symbol) : x.asMethod?.isSome = decide (x.kind.sort = .method) := by
  obtain ⟨_, k, _⟩ := x
  match k with
  | .ofType ⟨true, _, _⟩  => rfl
  | .ofType ⟨false, _, _⟩ => rfl
  | .ofMethod _           => rfl
  | .ofVariable _         => rfl

theorem isField_eq (x : Symbol) : x.isField = decide (x.kind.sort = .variable .field) := by
  obtain ⟨_, k, _⟩ := x
  match k with
  | .ofType ⟨true, _, _⟩  => rfl
  | .ofType ⟨false, _, _⟩ => rfl
  | .ofMethod _           => rfl
  | .ofVariable _         => simp [isField, asVariable?, SymbolKind.sort]

end Symbol

namespace Program

open Resolve

variable {p : Program}

-- Bodies only declare formals and locals.
theorem sort_of_mem_innerOutlines (hp : p.Proper) (ho : o ∈ p.innerOutlines) :
    o.sort = .variable .formal ∨ o.sort = .variable .localSlot := by
  obtain ⟨b, hb, ho⟩ := List.mem_flatMap.mp ho
  obtain ⟨c, hc, hb⟩ := List.mem_flatMap.mp hb
  obtain ⟨hformals, hlocals⟩ := body_of_proper (proper_of_mem hp hc) hb
  rcases List.mem_append.mp ho with ho | ho <;> obtain ⟨d, hd, rfl⟩ := List.mem_map.mp ho
  case inl => exact .inl (congrArg SymbolSort.variable (hformals d hd))
  case inr =>
    exact .inr (congrArg SymbolSort.variable (Statement.storageOf_of_proper _ hlocals d hd))

theorem filter_innerOutlines (hp : p.Proper) {P : SymbolSort → Bool}
    (hf : P (.variable .formal) = false) (hl : P (.variable .localSlot) = false) :
    p.innerOutlines.filter (fun o => P o.sort) = [] := by
  rw [List.filter_eq_nil_iff]
  intro o ho
  rcases sort_of_mem_innerOutlines hp ho with h | h <;> simp [h, hf, hl]

theorem filter_memberOutlines_types (c : AnyClass) :
    c.memberOutlines.filter (fun o => o.sort.isType) = [] := by
  rw [List.filter_eq_nil_iff]
  intro o ho
  cases c with
  | main c    =>
    obtain rfl := List.mem_singleton.mp ho
    exact nofun
  | regular c =>
    obtain ⟨m, _, ho⟩ := List.mem_filterMap.mp ho
    cases m with
    | field d | method m => exact Option.some.inj ho ▸ nofun
    | malformed _        => cases ho

theorem filter_memberOutlines_methods (c : AnyClass) :
    (c.memberOutlines.filter (fun o => o.sort = .method)).map (·.declaration) =
      c.signatures.map (·.declaration) := by
  cases c with
  | main c    => rfl
  | regular c =>
    show ((c.members.filterMap Member.outline?).filter _).map _ =
      ((c.members.filterMap Member.method?).map _).map _
    induction c.members with
    | nil          => rfl
    | cons m ms hi =>
      cases m with
      | malformed _ => exact hi
      | field d     => exact hi
      | method m    => exact congrArg (some m.id :: ·) hi

theorem filter_memberOutlines_fields (hp : p.Proper) (hc : c ∈ allClasses p) :
    (c.memberOutlines.filter (fun o => o.sort = .variable .field)).map (·.declaration) =
      c.fields.map (fun d => some d.id) := by
  cases c with
  | main c    => rfl
  | regular c =>
    have hproper : ∀ m ∈ c.members, m.Proper := (proper_of_mem hp hc).members
    show ((c.members.filterMap Member.outline?).filter _).map _ =
      (c.members.filterMap Member.field?).map _
    generalize c.members = ms at hproper ⊢
    induction ms with
    | nil          => rfl
    | cons m ms hi =>
      obtain ⟨hm, hms⟩ := List.forall_mem_cons.mp hproper
      cases m with
      | malformed _ => exact hm.elim
      | method m    => exact hi hms
      | field d     =>
        have hd : d.outline.sort = .variable .field := congrArg SymbolSort.variable hm
        have hi := hi hms
        simp only [List.filterMap_cons, Member.outline?, Member.field?]
        rw [List.filter_cons_of_pos (by simp [hd]), List.map_cons, List.map_cons, hi]
        rfl

theorem types_outlines (hp : p.Proper) :
    ((p.outerOutlines ++ p.innerOutlines).filter (fun o => o.sort.isType)).map (·.name) =
      p.typeNames := by
  have hmembers : ((allClasses p).flatMap (·.memberOutlines)).filter (fun o => o.sort.isType) = [] := by
    rw [List.filter_flatMap]
    simp only [filter_memberOutlines_types, List.flatMap_eq_nil_iff, implies_true]
  have hclasses : ((allClasses p).map (·.outline)).filter (fun o => o.sort.isType) =
      (allClasses p).map (·.outline) :=
    List.filter_eq_self.mpr fun o ho => by
      obtain ⟨c, _, rfl⟩ := List.mem_map.mp ho
      rfl
  rw [List.filter_append, filter_innerOutlines hp rfl rfl, outerOutlines,
    List.filter_append, hmembers, List.filter_append, hclasses]
  simp only [List.append_nil, List.map_append, List.map_map]
  rfl

theorem filter_outlines (hp : p.Proper) {P : SymbolSort → Bool} (hb : P .builtinType = false)
    (hc : P .declaredClass = false) (hf : P (.variable .formal) = false)
    (hl : P (.variable .localSlot) = false) :
    (p.outerOutlines ++ p.innerOutlines).filter (fun o => P o.sort) =
      (allClasses p).flatMap fun c => c.memberOutlines.filter fun o => P o.sort := by
  have hclasses : ((allClasses p).map (·.outline)).filter (fun o => P o.sort) = [] :=
    List.filter_eq_nil_iff.mpr fun o ho => by
      obtain ⟨c, _, rfl⟩ := List.mem_map.mp ho
      exact Bool.eq_false_iff.mp hc
  have hbuiltin : (builtinTypes.map fun name => (⟨name, .builtinType, none⟩ : Outline)).filter
      (fun o => P o.sort) = [] :=
    List.filter_eq_nil_iff.mpr fun o ho => by
      obtain ⟨name, _, rfl⟩ := List.mem_map.mp ho
      exact Bool.eq_false_iff.mp hb
  rw [List.filter_append, filter_innerOutlines hp hf hl, outerOutlines, List.filter_append,
    List.filter_append, hclasses, hbuiltin, List.filter_flatMap, List.append_nil]
  rfl

theorem methods_outlines (hp : p.Proper) :
    ((p.outerOutlines ++ p.innerOutlines).filter (fun o => o.sort = .method)).map (·.declaration) =
      p.signatures.map (·.declaration) := by
  rw [filter_outlines hp (P := (· = .method)) rfl rfl rfl rfl, List.map_flatMap]
  simp only [filter_memberOutlines_methods]
  exact (List.map_flatMap ..).symm

theorem fields_outlines (hp : p.Proper) :
    ((p.outerOutlines ++ p.innerOutlines).filter (fun o => o.sort = .variable .field)).map
      (·.declaration) = p.fields.map (fun d => some d.id) := by
  rw [filter_outlines hp (P := (· = .variable .field)) rfl rfl rfl rfl, List.map_flatMap, fields,
    List.map_flatMap]
  exact List.flatMap_congr fun c hc => filter_memberOutlines_fields hp hc

end Program

namespace Accepted

open Resolve Typing

variable {p : Program} {t : SymbolTable}

-- No two symbols are for one method.
theorem eq_of_declaration (h : Accepted p t) (ho : t.outlines = p.outerOutlines ++ p.innerOutlines)
    (hx : t.symbol? s = some x) (hx' : t.symbol? s' = some x') (hk : x.kind.sort = .method)
    (hk' : x'.kind.sort = .method) (hd : x.declaration = x'.declaration) : s = s' := by
  cases hi : x.declaration with
  | some i =>
    have hdecl {s x} (hx : t.symbol? s = some x) (hi : x.declaration = some i) :
        t.declarationOf? s = some i := by
      rw [SymbolTable.declarationOf?, hx]
      exact hi
    exact h.resolved.faithful.unique (hdecl hx hi) (hdecl hx' (hd ▸ hi))
  | none   =>
    obtain ⟨c, hc, _⟩ := h.proper.mainClass
    have hout {s x} (hx : t.symbol? s = some x) : t.outlines[s]? = some x.outline := by
      rw [SymbolTable.getElem?_outlines, hx]
      rfl
    exact (eq_of_undeclared ho hc (hout hx) hk hi).trans
      (eq_of_undeclared ho hc (hout hx') hk' (hd.symm.trans hi)).symm

theorem nodup_keys (t : SymbolTable) (counts : Symbol → Bool) :
    (Environment.keys counts (fun _ s => s) t.symbols.toList.zipIdx).Nodup := by
  have h : (List.range' 0 t.symbols.toList.length).Nodup := List.nodup_range'
  rw [← List.zipIdx_map_snd] at h
  exact h.sublist (List.filter_sublist.map _)

-- The symbols of a sort are in the order of their declarations.
theorem exists_key (ho : t.outlines = p.outerOutlines ++ p.innerOutlines) {P : SymbolSort → Bool}
    (hds : ((p.outerOutlines ++ p.innerOutlines).filter fun o => P o.sort).map (·.declaration) = ds)
    {k : Nat} (hd : ds[k]? = some d) :
    ∃ s x, (Environment.keys (fun x => P x.kind.sort) (fun _ s => s) t.symbols.toList.zipIdx)[k]? =
      some s ∧ t.symbol? s = some x ∧ P x.kind.sort = true ∧ x.declaration = d := by
  rw [← ho, ← SymbolTable.filter_outlines t P] at hds
  rw [← hds, List.getElem?_map] at hd
  obtain ⟨⟨x, s⟩, hq, hx⟩ := Option.map_eq_some_iff.mp hd
  obtain ⟨hmem, hP⟩ := List.mem_filter.mp (List.mem_of_getElem? hq)
  refine ⟨s, x, ?_, Environment.mem_symbols_iff.mp hmem, hP, hx⟩
  rw [Environment.keys, List.getElem?_map, hq]
  rfl

theorem methodHandle_eq (h : Accepted p t) (ho : t.outlines = p.outerOutlines ++ p.innerOutlines)
    (hm : p.signatures[k]? = some m) (hs : t.HasMethod s m) :
    (Environment.sequential t).methodHandle s = .ok ⟨k⟩ := by
  have hd : (p.signatures.map (·.declaration))[k]? = some m.declaration := by
    rw [List.getElem?_map, hm]
    rfl
  obtain ⟨s', x', hk, hx', hsort, hdecl⟩ :=
    exists_key ho (P := (· = .method)) (Program.methods_outlines h.proper) hd
  obtain ⟨scope, owner, hx⟩ := hs
  obtain rfl := h.eq_of_declaration ho hx' hx (of_decide_eq_true hsort) rfl hdecl
  simp only [← Symbol.isSome_asMethod?] at hk
  exact ((Environment.numbers_methods.placeAll (nodup_keys t _)).2 s' _).mpr ⟨k, hk, rfl⟩

theorem fieldHandle_eq (h : Accepted p t) (ho : t.outlines = p.outerOutlines ++ p.innerOutlines)
    (hd : p.fields[k]? = some d) (hs : t.declarationOf? s = some d.id) :
    (Environment.sequential t).fieldHandle s = .ok ⟨k⟩ := by
  have hd : (p.fields.map fun d => some d.id)[k]? = some (some d.id) := by
    rw [List.getElem?_map, hd]
    rfl
  obtain ⟨s', x', hk, hx', _, hdecl⟩ :=
    exists_key ho (P := (· = .variable .field)) (Program.fields_outlines h.proper) hd
  have hs' : t.declarationOf? s' = some d.id := by
    rw [SymbolTable.declarationOf?, hx']
    exact hdecl
  obtain rfl := h.resolved.faithful.unique hs' hs
  simp only [← Symbol.isField_eq] at hk
  exact ((Environment.numbers_fields.placeAll (nodup_keys t _)).2 s' _).mpr ⟨k, hk, rfl⟩

theorem keys_types (h : Accepted p t) (ho : t.outlines = p.outerOutlines ++ p.innerOutlines) :
    Environment.keys (·.asType?.isSome) (fun x _ => x.name) t.symbols.toList.zipIdx = p.typeNames := by
  rw [← Program.types_outlines h.proper, ← ho, ← SymbolTable.filter_outlines t SymbolSort.isType]
  simp only [← Symbol.isSome_asType?]
  rfl

theorem nodup_typeNames (h : Accepted p t) : p.typeNames.Nodup := by
  refine List.nodup_append.mpr ⟨by decide, h.resolved.wellFormed.classes, fun name hb name' hc he => ?_⟩
  obtain ⟨c, hmem, rfl⟩ := List.mem_map.mp hc
  exact name_of_proper h.proper hmem (he ▸ hb)

theorem typeHandle_eq_ok (h : Accepted p t) (ho : t.outlines = p.outerOutlines ++ p.innerOutlines) :
    (Environment.sequential t).typeHandle name = .ok τ ↔ p.typeNames[τ.number]? = some name := by
  have hn : (Environment.keys (·.asType?.isSome) (fun x _ => x.name) t.symbols.toList.zipIdx).Nodup := by
    rw [h.keys_types ho]
    exact h.nodup_typeNames
  have hp := (Environment.numbers_types.placeAll hn).2 name τ
  rw [h.keys_types ho] at hp
  refine hp.trans ⟨?_, fun hk => ⟨_, hk, rfl⟩⟩
  rintro ⟨k, hk, rfl⟩
  exact hk

theorem name_of_isClass (h : Accepted p t) (ho : t.outlines = p.outerOutlines ++ p.innerOutlines)
    (hx : t.symbol? s = some x) (hc : x.isClass = true) : x.name ∉ builtinTypes := by
  have hout : t.outlines[s]? = some x.outline := by
    rw [SymbolTable.getElem?_outlines, hx]
    rfl
  have hk : x.outline.sort = .declaredClass := by
    obtain ⟨_, k, _⟩ := x
    match k with
    | .ofType ⟨false, _, _⟩ => rfl
    | .ofType ⟨true, _, _⟩  => cases hc
    | .ofMethod _           => cases hc
    | .ofVariable _         => cases hc
  show x.outline.name ∉ builtinTypes
  have hmem := List.mem_of_getElem? hout
  generalize x.outline = o at hk hmem ⊢
  rw [ho, Program.outerOutlines, List.mem_append, List.mem_append, List.mem_append] at hmem
  rcases hmem with ((hm | hm) | hm) | hm
  case inl.inl.inl =>
    obtain ⟨_, _, rfl⟩ := List.mem_map.mp hm
    cases hk
  case inl.inl.inr =>
    obtain ⟨c, hc, rfl⟩ := List.mem_map.mp hm
    exact name_of_proper h.proper hc
  case inl.inr =>
    obtain ⟨c, _, hm⟩ := List.mem_flatMap.mp hm
    have hnone := List.filter_eq_nil_iff.mp (Program.filter_memberOutlines_types c) o hm
    rw [hk] at hnone
    exact absurd rfl hnone
  case inr =>
    rcases Program.sort_of_mem_innerOutlines h.proper hm with hs | hs <;> cases hk.symm.trans hs

theorem constructor_eq_ok (h : Accepted p t) (ho : t.outlines = p.outerOutlines ++ p.innerOutlines)
    (hn : p.typeNames[τ.number]? = some name) :
    (Environment.sequential t).constructor τ = .ok c ↔ name ∉ builtinTypes ∧ c.number = τ.number := by
  constructor
  case mp =>
    intro hc
    obtain ⟨hnumber, x, s, hx, hclass⟩ := Environment.constructor_placeAll hc
    refine ⟨?_, hnumber⟩
    rw [← h.keys_types ho, Environment.keys, List.getElem?_map, hx] at hn
    obtain rfl : x.name = name := Option.some.inj hn
    have hmem := (List.mem_filter.mp (List.mem_of_getElem? hx)).1
    exact h.name_of_isClass ho (Environment.mem_symbols_iff.mp hmem) hclass
  case mpr =>
    rintro ⟨hb, hnumber⟩
    obtain ⟨c', hc'⟩ := Environment.exists_constructor h.tree ((h.typeHandle_eq_ok ho).mpr hn) hb
    have hc'' := (Environment.constructor_placeAll hc').1
    rw [hc', show c' = c from congrArg ConstructorHandle.mk (hc''.trans hnumber.symm)]

end Accepted

end MiniJava
