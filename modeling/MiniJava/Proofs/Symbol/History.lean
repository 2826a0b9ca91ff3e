import Mathlib.Data.List.Basic
import MiniJava.Symbol.Table

namespace MiniJava

namespace SymbolTable

-- The symbol that a name stands for in one scope.
def lookup? (t : SymbolTable) (s : ScopeId) (space : Namespace) (name : String) : Option SymbolId :=
  (t.scope? s).bind (·.lookup space name)

inductive Call
  | addScope (kind : ScopeKind) (parent : ScopeId) (owner : Option SymbolId)
  | define (s : ScopeId) (x : Symbol)

-- Symbols are defined in scopes that are there, if the first `n` are.
def Existing : (n : Nat) → List Call → Prop
  | _, []                   => True
  | n, .addScope .. :: rest => Existing (n + 1) rest
  | n, .define s _ :: rest  => s < n ∧ Existing n rest

-- A call and its answer. A definition without a number is refused.
inductive Event
  | added (kind : ScopeKind) (parent : ScopeId) (owner : Option SymbolId) (s : ScopeId)
  | defined (s : ScopeId) (x : Symbol) (id? : Option SymbolId)

namespace Event

def call : Event → Call
  | added kind parent owner _ => .addScope kind parent owner
  | defined s x _             => .define s x

def defines (s : ScopeId) (space : Namespace) (name : String) : Event → Bool
  | added ..       => false
  | defined s' x _ => s' = s && x.kind.namespace = space && x.name = name

-- Refused definitions declare nothing.
def declares (node : NodeId) : Event → Bool
  | defined _ x (some _) => x.declaration = some node
  | _                    => false

def scope? : Event → Option ScopeId
  | added _ _ _ s => some s
  | defined ..    => none

def symbol? : Event → Option SymbolId
  | added ..        => none
  | defined _ _ id? => id?

theorem defines_iff {e : Event} :
    e.defines s space name ↔
      ∃ x id?, e = defined s x id? ∧ x.kind.namespace = space ∧ x.name = name := by
  cases e with
  | added             => simp [defines]
  | defined s' x id?  =>
    simp only [defines, Bool.and_eq_true, decide_eq_true_eq, defined.injEq]
    grind

end Event

def answer? (t : SymbolTable) : Call → Option (Event × SymbolTable)
  | .addScope kind parent owner =>
    let (s, t') := t.addScope kind parent owner
    some (.added kind parent owner s, t')
  | .define s x =>
    match t.define s x with
    | .added id t' => some (.defined s x (some id), t')
    | .taken       => some (.defined s x none, t)
    | .noScope     => none

-- A table with everything that was called on it.
structure Record where
  log   : List Event
  table : SymbolTable

def Record.next? (r : Record) (c : Call) : Option Record :=
  (r.table.answer? c).map fun (e, t) => ⟨r.log ++ [e], t⟩

def record? (calls : List Call) : Option Record :=
  calls.foldlM Record.next? ⟨[], empty⟩

section Lookup

variable {t : SymbolTable} {s : ScopeId} {x : Symbol}

theorem scope?_isSome : (t.scope? s).isSome ↔ s < t.scopes.size := by
  simp [scope?]

theorem lookup?_of_le (h : t.scopes.size ≤ s) (space : Namespace) (name : String) :
    t.lookup? s space name = none := by
  simp [lookup?, scope?, h]

theorem lookup?_addScope (t : SymbolTable) (kind : ScopeKind) (parent : ScopeId)
    (owner : Option SymbolId) (s : ScopeId) (space : Namespace) (name : String) :
    (t.addScope kind parent owner).2.lookup? s space name = t.lookup? s space name := by
  unfold lookup?
  rw [scope?_addScope]
  split
  case isFalse    => rfl
  case isTrue hs =>
    rw [Option.bind_some, Scope.lookup_empty]
    exact (lookup?_of_le (Nat.le_of_eq hs.symm) space name).symm

theorem lookup?_addSymbol (hs : s < t.scopes.size) (x : Symbol) (s' : ScopeId) (space : Namespace)
    (name : String) :
    (t.addSymbol s x).2.lookup? s' space name =
      if s = s' ∧ x.kind.namespace = space ∧ x.name = name then some t.symbols.size
      else t.lookup? s' space name := by
  unfold lookup?
  rw [scope?_addSymbol]
  by_cases h : s = s'
  case neg => simp [h]
  case pos =>
    subst h
    obtain ⟨found, hf⟩ := Option.isSome_iff_exists.mp (scope?_isSome.mpr hs)
    simp [hf, Scope.lookup_insert]

theorem answer?_define_refused (h : (t.lookup? s x.kind.namespace x.name).isSome) :
    t.answer? (.define s x) = some (.defined s x none, t) := by
  unfold lookup? at h
  cases hf : t.scope? s with
  | none       => simp [hf] at h
  | some found =>
    have ha : t.accepts s x = false := by simpa [accepts, hf, Option.isSome_iff_ne_none] using h
    simp [answer?, define, ha, hf]

theorem answer?_define_added (hs : s < t.scopes.size)
    (h : t.lookup? s x.kind.namespace x.name = none) :
    t.answer? (.define s x) = some (.defined s x (some t.symbols.size), (t.addSymbol s x).2) := by
  obtain ⟨found, hf⟩ := Option.isSome_iff_exists.mp (scope?_isSome.mpr hs)
  have ha : t.accepts s x := accepts_iff.mpr ⟨found, hf, by simpa [lookup?, hf] using h⟩
  simp [answer?, define, ha, addSymbol]

end Lookup

namespace Record

-- An element of a list with one more is that one or stands before it.
theorem split_concat {l : List α} (h : l ++ [b] = before ++ a :: after) :
    (after = [] ∧ l = before ∧ b = a) ∨ ∃ rest, after = rest ++ [b] ∧ l = before ++ a :: rest := by
  obtain rfl | ⟨rest, b', rfl⟩ := after.eq_nil_or_concat
  case inl =>
    obtain ⟨hl, hb⟩ := List.append_inj' h rfl
    exact .inl ⟨rfl, hl, List.singleton_inj.mp hb⟩
  case inr =>
    rw [List.concat_eq_append, ← List.cons_append, ← List.append_assoc] at h
    obtain ⟨hl, hb⟩ := List.append_inj' h rfl
    exact .inr ⟨rest, by rw [hb, List.concat_eq_append], hl⟩

-- What the table of a record tells is told by the log.
structure Lawful (r : Record) : Prop where
  lookup   : ∀ s space name,
    r.table.lookup? s space name = (r.log.find? (·.defines s space name)).bind (·.symbol?)
  refused  : ∀ before s x id? after, r.log = before ++ .defined s x id? :: after →
    (id? = none ↔ ∃ e ∈ before, e.defines s x.kind.namespace x.name)
  -- Numbers are given in order.
  scopes   : 0 :: r.log.filterMap (·.scope?) = List.range r.table.scopes.size
  numbers  : r.log.filterMap (·.symbol?) = List.range r.table.symbols.size
  symbols  : ∀ s x id, .defined s x (some id) ∈ r.log → r.table.symbol? id = some x
  declared : ∀ node,
    r.table.declaredBy? node = (r.log.reverse.find? (·.declares node)).bind (·.symbol?)

-- What comes of one more definition.
inductive Outcome (r : Record) (s : ScopeId) (x : Symbol) : Record → Prop
  | refused (h : ∃ e ∈ r.log, e.defines s x.kind.namespace x.name) :
    Outcome r s x ⟨r.log ++ [.defined s x none], r.table⟩
  | added (h : ∀ e ∈ r.log, ¬ e.defines s x.kind.namespace x.name)
      (hx : t.symbol? r.table.symbols.size = some x)
      (hl : ∀ s' space name, t.lookup? s' space name =
        if s = s' ∧ x.kind.namespace = space ∧ x.name = name then some r.table.symbols.size
        else r.table.lookup? s' space name) :
    Outcome r s x ⟨r.log ++ [.defined s x (some r.table.symbols.size)], t⟩

theorem Outcome.log_eq (h : Outcome r s x r') : ∃ id?, r'.log = r.log ++ [.defined s x id?] := by
  cases h <;> exact ⟨_, rfl⟩

theorem lawful_empty : Lawful ⟨[], empty⟩ where
  lookup s space name := by
    cases s with
    | zero   => exact Scope.lookup_empty _ _ _ space name
    | succ s => rfl
  refused before s x id? after h := absurd h (by simp)
  scopes                         := rfl
  numbers                        := rfl
  symbols s x id h               := absurd h List.not_mem_nil
  declared node                  := Std.TreeMap.getElem?_emptyc

namespace Lawful

variable {r : Record} {s : ScopeId} {x : Symbol}

-- The first definition under a name is not refused.
theorem isSome_lookup? (h : r.Lawful) (s : ScopeId) (space : Namespace) (name : String) :
    (r.table.lookup? s space name).isSome ↔ ∃ e ∈ r.log, e.defines s space name := by
  rw [h.lookup, ← List.find?_isSome]
  cases hf : r.log.find? (·.defines s space name) with
  | none   => rfl
  | some e =>
    obtain ⟨he, before, after, hl, hb⟩ := List.find?_eq_some_iff_append.mp hf
    obtain ⟨x, id?, rfl, rfl, rfl⟩ := Event.defines_iff.mp he
    cases id? with
    | some id => rfl
    | none    =>
      obtain ⟨e, hm, hd⟩ := (h.refused _ _ _ _ _ hl).mp rfl
      exact absurd hd (by simpa using hb e hm)

theorem lookup?_eq_none (h : r.Lawful) {s : ScopeId} {space : Namespace} {name : String} :
    r.table.lookup? s space name = none ↔ ∀ e ∈ r.log, ¬ e.defines s space name := by
  rw [← Option.not_isSome_iff_eq_none, h.isSome_lookup?]
  simp

theorem lt_of_mem (h : r.Lawful) {id : SymbolId} (hm : .defined s x (some id) ∈ r.log) :
    id < r.table.symbols.size :=
  (Array.getElem?_eq_some_iff.mp (h.symbols s x id hm)).1

theorem addScope (h : r.Lawful) (kind : ScopeKind) (parent : ScopeId) (owner : Option SymbolId) :
    Lawful
      ⟨r.log ++ [.added kind parent owner r.table.scopes.size],
        (r.table.addScope kind parent owner).2⟩ where
  lookup s space name := by
    rw [lookup?_addScope, h.lookup]
    simp [List.find?_append, Event.defines]
  refused before s x id? after hl := by
    obtain ⟨_, _, he⟩ | ⟨_, _, hl⟩ := split_concat hl
    case inl => cases he
    case inr => exact h.refused _ _ _ _ _ hl
  scopes  := by
    rw [List.filterMap_append, ← List.cons_append, h.scopes]
    simp [Event.scope?, SymbolTable.addScope, List.range_succ]
  numbers := by
    rw [List.filterMap_append, h.numbers]
    simp [Event.symbol?, SymbolTable.addScope]
  symbols s x id hm := h.symbols s x id (by simpa using hm)
  declared node     := by
    rw [List.reverse_concat, List.find?_cons_of_neg (by simp [Event.declares])]
    exact h.declared node

theorem refuse (h : r.Lawful) (hs : (r.table.lookup? s x.kind.namespace x.name).isSome) :
    Lawful ⟨r.log ++ [.defined s x none], r.table⟩ where
  lookup s' space name := by
    rw [h.lookup, List.find?_append]
    cases hf : r.log.find? (·.defines s' space name) with
    | some e => rfl
    | none   =>
      cases hd : Event.defines s' space name (.defined s x none) <;> simp [hd, Event.symbol?]
  refused before s' x' id? after hl := by
    obtain ⟨_, rfl, he⟩ | ⟨_, _, hl⟩ := split_concat hl
    case inl =>
      cases he
      exact iff_of_true rfl ((h.isSome_lookup? _ _ _).mp hs)
    case inr => exact h.refused _ _ _ _ _ hl
  scopes  := by simpa [Event.scope?] using h.scopes
  numbers := by simpa [Event.symbol?] using h.numbers
  symbols s' x' id hm := h.symbols s' x' id (by simpa using hm)
  declared node       := by
    rw [List.reverse_concat, List.find?_cons_of_neg (by simp [Event.declares])]
    exact h.declared node

theorem define (h : r.Lawful) (hs : s < r.table.scopes.size)
    (hn : r.table.lookup? s x.kind.namespace x.name = none) :
    Lawful ⟨r.log ++ [.defined s x (some r.table.symbols.size)], (r.table.addSymbol s x).2⟩ where
  lookup s' space name := by
    rw [lookup?_addSymbol hs, List.find?_append]
    split
    case isTrue hd =>
      obtain ⟨rfl, rfl, rfl⟩ := hd
      rw [List.find?_eq_none.mpr (h.lookup?_eq_none.mp hn)]
      simp [Event.defines, Event.symbol?]
    case isFalse hd =>
      have hd : Event.defines s' space name (.defined s x (some r.table.symbols.size)) = false := by
        simpa [Event.defines, and_assoc] using hd
      simp [hd, h.lookup]
  refused before s' x' id? after hl := by
    obtain ⟨_, rfl, he⟩ | ⟨_, _, hl⟩ := split_concat hl
    case inl =>
      cases he
      exact iff_of_false (Option.some_ne_none _) (by simpa using h.lookup?_eq_none.mp hn)
    case inr => exact h.refused _ _ _ _ _ hl
  scopes  := by
    rw [List.filterMap_append, ← List.cons_append, h.scopes]
    simp [Event.scope?, addSymbol]
  numbers := by
    rw [List.filterMap_append, h.numbers]
    simp [Event.symbol?, addSymbol, List.range_succ]
  symbols s' x' id hm := by
    obtain hm | hm := List.mem_append.mp hm
    case inl => rw [symbol?_addSymbol_of_lt (h.lt_of_mem hm), h.symbols s' x' id hm]
    case inr =>
      cases List.mem_singleton.mp hm
      exact symbol?_addSymbol_self _ _ _
  declared node       := by
    rw [declaredBy?_addSymbol, List.reverse_concat, h.declared]
    by_cases hd : x.declaration = some node <;> simp [hd, Event.declares, Event.symbol?]

theorem outcome (h : r.Lawful) (hs : s < r.table.scopes.size) (x : Symbol) :
    ∃ r', r.next? (.define s x) = some r' ∧ r.Outcome s x r' ∧ r'.Lawful := by
  cases hl : r.table.lookup? s x.kind.namespace x.name with
  | none   =>
    refine ⟨_, by rw [next?, answer?_define_added hs hl]; rfl, ?_, h.define hs hl⟩
    exact .added (h.lookup?_eq_none.mp hl) (symbol?_addSymbol_self _ _ _) (lookup?_addSymbol hs x)
  | some _ =>
    have hl := Option.isSome_of_eq_some hl
    refine ⟨_, by rw [next?, answer?_define_refused hl]; rfl, ?_, h.refuse hl⟩
    exact .refused ((h.isSome_lookup? _ _ _).mp hl)

theorem size_scopes (h : r.Lawful) :
    r.table.scopes.size = (r.log.filterMap (·.scope?)).length + 1 := by
  simpa using (congrArg List.length h.scopes).symm

theorem next (h : r.Lawful) (hc : Existing r.table.scopes.size (c :: rest)) :
    ∃ r', r.next? c = some r' ∧ r'.Lawful ∧ (∃ e, e.call = c ∧ r'.log = r.log ++ [e]) ∧
      Existing r'.table.scopes.size rest := by
  cases c with
  | addScope kind parent owner =>
    refine ⟨_, rfl, h.addScope kind parent owner, ⟨_, rfl, rfl⟩, ?_⟩
    simpa [SymbolTable.addScope, Existing] using hc
  | define s x =>
    obtain ⟨r', hr, ho, hl⟩ := h.outcome hc.1 x
    obtain ⟨id?, he⟩ := ho.log_eq
    refine ⟨r', hr, hl, ⟨_, rfl, he⟩, ?_⟩
    have hs : r'.table.scopes.size = r.table.scopes.size := by
      simp [hl.size_scopes, h.size_scopes, he, Event.scope?]
    exact hs ▸ hc.2

-- A run adds its calls to the log. So what is told by the log's beginning stays told.
theorem run (h : r.Lawful) (hc : Existing r.table.scopes.size (calls ++ rest)) :
    ∃ r', calls.foldlM next? r = some r' ∧ r'.Lawful ∧
      (∃ l, l.map Event.call = calls ∧ r'.log = r.log ++ l) ∧
      Existing r'.table.scopes.size rest := by
  induction calls generalizing r with
  | nil             => exact ⟨r, rfl, h, ⟨[], rfl, (List.append_nil _).symm⟩, hc⟩
  | cons c calls hi =>
    obtain ⟨r', hr, h, ⟨e, he, hl⟩, hc⟩ := h.next hc
    obtain ⟨r'', hr', h, ⟨l, hm, hl'⟩, hc⟩ := hi h hc
    refine ⟨r'', ?records, h, ⟨e :: l, ?events, ?appended⟩, hc⟩
    case records => rw [List.foldlM_cons, hr]; exact hr'
    case events => rw [List.map_cons, he, hm]
    case appended => rw [hl', hl, List.append_assoc, List.singleton_append]

theorem symbol?_of_subset {r' : Record} {id : SymbolId} (h : r.Lawful) (h' : r'.Lawful)
    (hl : r.log ⊆ r'.log) (hx : r.table.symbol? id = some x) : r'.table.symbol? id = some x := by
  have hm : id ∈ List.range r.table.symbols.size :=
    List.mem_range.mpr (Array.getElem?_eq_some_iff.mp hx).1
  rw [← h.numbers] at hm
  obtain ⟨e, he, hid⟩ := List.mem_filterMap.mp hm
  cases e with
  | added         => cases hid
  | defined s x' =>
    cases hid
    obtain rfl := Option.some.inj (hx.symm.trans (h.symbols _ _ _ he))
    exact h'.symbols _ _ _ (hl he)

end Lawful

end Record

-- The calls of a history tell all that the table tells after each of them. A further definition is
-- refused exactly if the name is defined already, and changes nothing then; else it has the next
-- number and changes what that name stands for, and the numbers keep their symbols ever after.
theorem record?_lawful (h : Existing empty.scopes.size (past ++ future)) :
    ∃ r r', record? past = some r ∧ record? (past ++ future) = some r' ∧
      r.log.map Event.call = past ∧ r.Lawful ∧
      r.log <+: r'.log ∧ (∀ id x, r.table.symbol? id = some x → r'.table.symbol? id = some x) ∧
      ∀ s < r.table.scopes.size, ∀ x,
        ∃ r'', r.next? (.define s x) = some r'' ∧ r.Outcome s x r'' := by
  obtain ⟨r, hr, hl, ⟨l, hm, he⟩, hc⟩ := Record.lawful_empty.run h
  have hc : Existing r.table.scopes.size (future ++ []) := by rwa [List.append_nil]
  obtain ⟨r', hr', hl', ⟨l', _, he'⟩, _⟩ := hl.run hc
  refine ⟨r, r', hr, ?past, ?events, hl, ⟨l', he'.symm⟩, ?kept, ?outcome⟩
  case past =>
    rw [record?, List.foldlM_append, show List.foldlM _ _ past = _ from hr]
    exact hr'
  case events => rw [he]; exact hm
  case kept => exact fun id x => hl.symbol?_of_subset hl' (he' ▸ List.subset_append_left _ _)
  case outcome =>
    intro s hs x
    obtain ⟨r'', hn, ho, _⟩ := hl.outcome hs x
    exact ⟨r'', hn, ho⟩

def localX (type : StaticType) : Symbol :=
  ⟨"x", .ofVariable ⟨type, .localSlot, none⟩, none⟩

def redeclaring : List Call :=
  [.addScope .ofMethod globalScope none, .define 1 (localX .int), .define 1 (localX .boolean)]

theorem log_redeclaring : (record? redeclaring).map (·.log) =
    some
      [.added .ofMethod globalScope none 1, .defined 1 (localX .int) (some 0),
        .defined 1 (localX .boolean) none] := by
  rfl

-- A local that is declared twice, and once more in a block, stands for the first declaration in its
-- own scope, whatever the block declares.
theorem record?_lawful_redeclaring :
    let future : List Call := [.addScope .ofBlock 1 none, .define 2 (localX .boolean)]
    Existing empty.scopes.size (redeclaring ++ future) ∧
      ∃ r r', record? redeclaring = some r ∧ record? (redeclaring ++ future) = some r' ∧
        r.table.lookup? 1 .variableNames "x" = some 0 ∧
        r'.table.symbol? 0 = some (localX .int) := by
  intro future
  have he : Existing empty.scopes.size (redeclaring ++ future) := by
    simp [redeclaring, future, empty, Existing]
  refine ⟨he, ?_⟩
  obtain ⟨r, r', hr, hr', -, hl, -, hs, -⟩ := record?_lawful he
  have hlog := log_redeclaring
  rw [hr, Option.map_some, Option.some_inj] at hlog
  refine ⟨r, r', hr, hr', ?_, hs 0 _ (hl.symbols 1 _ 0 (by simp [hlog]))⟩
  rw [hl.lookup, hlog]
  rfl

end SymbolTable

end MiniJava
