import MiniJava.Proofs.Binding.Statement
import MiniJava.Proofs.Resolve.Notices

namespace MiniJava

namespace SymbolTable

-- The slot of a variable, if there is one, provided that the declaration has defined it.
def slot? (t : SymbolTable) (d : VariableDeclaration) : Option (Option Nat) :=
  (((t.declaredBy? d.id).bind t.symbol?).bind Symbol.asVariable?).map (·.slot)

-- The declaration has defined a variable with that slot.
def Allots (t : SymbolTable) (d : VariableDeclaration) (slot : Option Nat) : Prop :=
  ∃ x, t.declaredBy? d.id = some x ∧ t.symbol? x = some (d.symbol slot)

theorem Allots.slot?_eq (h : Allots t d slot) : t.slot? d = some slot := by
  obtain ⟨x, hx, hs⟩ := h
  rw [slot?, hx, Option.bind_some, hs]
  rfl

theorem slot?_of_none {t : SymbolTable} (h : t.declaredBy? d.id = none) : t.slot? d = none := by
  rw [slot?, h]
  rfl

theorem Unslotted.slot?_eq_none (h : Unslotted t) (hk : t.Keeps t')
    (hd : t'.declaredBy? d.id = t.declaredBy? d.id) (slot : Option Nat)
    (hs : t'.slot? d = some slot) : slot = none := by
  obtain ⟨v, hv, rfl⟩ := Option.map_eq_some_iff.mp hs
  obtain ⟨a, ha, hav⟩ := Option.bind_eq_some_iff.mp hv
  obtain ⟨x, hx, hxa⟩ := Option.bind_eq_some_iff.mp ha
  obtain ⟨a', ha', hslot⟩ := h d.id x (hd ▸ hx)
  obtain rfl := Option.some.inj (hxa.symm.trans (hk x a' ha'))
  exact hslot v hav

end SymbolTable

namespace Binding

open Resolve Typing

-- The slot of the variable of that number.
def index (n : Nat) : Option Nat :=
  if n ≤ maxSlot then some n else none

-- A variable that is to be defined in a frame, and whether its name is free there.
structure Trial where
  declaration : VariableDeclaration
  free        : Bool

def isFree (F : Frame) (d : VariableDeclaration) : Bool :=
  F.all (·.name ≠ d.name)

def trials (F : Frame) : List VariableDeclaration → List Trial
  | []      => []
  | d :: ds => ⟨d, isFree F d⟩ :: trials (F ++ [d]) ds

mutual

-- The locals of a statement that stands in the frame `F`.
def trialsIn (F : Frame) : Statement → List Trial
  | .declare d                      => [⟨d, isFree F d⟩]
  | .block _ body _                 => trialsAll [] body
  | .ifThen _ _ s _ | .loop _ _ s _ => trialsIn F s
  | .ifThenElse _ _ s s' _          => trialsIn F s ++ trialsIn (F ++ s.declares) s'
  | .print .. | .ret .. | .assert .. | .assign .. | .call .. | .malformed _ => []

def trialsAll (F : Frame) : List Statement → List Trial
  | []      => []
  | s :: ss => trialsIn F s ++ trialsAll (F ++ s.declares) ss

end

-- The locals of a body. The formals are in the frame before them.
def localTrials (b : Body) : List Trial :=
  trialsAll b.parameters b.statements

-- A variable that asks for the slot of a number.
structure Request extends Trial where
  number : Nat
  use    : SlotUse

namespace Request

def isRefused (r : Request) : Bool :=
  (index r.number).isNone

def report (r : Request) : Diagnostic :=
  .semantic (.slotsExhausted r.use) r.declaration.position

end Request

-- The formals are numbered by where they stand.
def formalRequests (n : Nat) : List Trial → List Request
  | []      => []
  | a :: as => ⟨a, n, .parameters⟩ :: formalRequests (n + 1) as

-- The locals are numbered by those before them that have been defined.
def localRequests (n : Nat) : List Trial → List Request
  | []      => []
  | a :: as => ⟨a, n, .locals⟩ :: localRequests (if a.free then n + 1 else n) as

def requests (b : Body) : List Request :=
  formalRequests 1 (trials [] b.parameters) ++ localRequests 0 (localTrials b)

-- The first request that is refused is reported.
def refusals (rs : List Request) : List Diagnostic :=
  ((rs.find? (·.isRefused)).map Request.report).toList

theorem exists_of_mem_refusals (h : d ∈ refusals rs) : ∃ r : Request, d = r.report := by
  obtain ⟨r, _, rfl⟩ := Option.map_eq_some_iff.mp (Option.mem_toList.mp h)
  exact ⟨r, rfl⟩

theorem refusals_append (rs rs' : List Request) :
    refusals (rs ++ rs') = refusals rs ++ if rs.any (·.isRefused) then [] else refusals rs' := by
  rw [refusals, refusals, refusals, List.find?_append]
  cases h : rs.find? (·.isRefused) with
  | none   =>
    have ha : rs.any (·.isRefused) = false := by
      simpa [List.any_eq_false] using h
    rw [ha]
    rfl
  | some r =>
    have ha : rs.any (·.isRefused) = true :=
      List.any_eq_true.mpr ⟨r, List.mem_of_find?_eq_some h, List.find?_some h⟩
    rw [ha]
    rfl

theorem localRequests_append (n : Nat) (as bs : List Trial) :
    localRequests n (as ++ bs) =
      localRequests n as ++ localRequests (n + as.countP (·.free)) bs := by
  induction as generalizing n with
  | nil          => rfl
  | cons a as hi =>
    rw [List.cons_append, localRequests, hi, localRequests, List.countP_cons]
    cases a.free with
    | true  => simp [Nat.add_assoc, Nat.add_comm 1]
    | false => simp

section

variable (n : Nat) (as : List Trial)

theorem map_toTrial_formalRequests : (formalRequests n as).map (·.toTrial) = as := by
  induction as generalizing n with
  | nil          => rfl
  | cons a as hi => rw [formalRequests, List.map_cons, hi]

theorem map_toTrial_localRequests : (localRequests n as).map (·.toTrial) = as := by
  induction as generalizing n with
  | nil          => rfl
  | cons a as hi => rw [localRequests, List.map_cons, hi]

end

theorem declarations_eq (rs : List Request) :
    rs.map (·.declaration) = (rs.map (·.toTrial)).map (·.declaration) :=
  List.map_map.symm

theorem map_declaration_trials (F : Frame) (ds : List VariableDeclaration) :
    (trials F ds).map (·.declaration) = ds := by
  induction ds generalizing F with
  | nil          => rfl
  | cons d ds hi => rw [trials, List.map_cons, hi]

mutual

theorem map_declaration_trialsIn (F : Frame) (s : Statement) :
    (trialsIn F s).map (·.declaration) = s.locals := by
  match s with
  | .declare d           => rfl
  | .block _ body _      => exact map_declaration_trialsAll [] body
  | .ifThen _ _ s _      => exact map_declaration_trialsIn F s
  | .loop _ _ s _        => exact map_declaration_trialsIn F s
  | .ifThenElse _ _ s s' _ =>
    rw [trialsIn, List.map_append, map_declaration_trialsIn F s,
      map_declaration_trialsIn (F ++ s.declares) s']
    rfl
  | .print .. | .ret .. | .assert .. | .assign .. | .call .. | .malformed _ => rfl

theorem map_declaration_trialsAll (F : Frame) (ss : List Statement) :
    (trialsAll F ss).map (·.declaration) = Statement.localsOf ss := by
  match ss with
  | []      => rfl
  | s :: ss =>
    rw [trialsAll, List.map_append, map_declaration_trialsIn F s,
      map_declaration_trialsAll (F ++ s.declares) ss]
    rfl

end

-- All variables of a body ask for a slot.
theorem map_declaration_requests (b : Body) :
    (requests b).map (·.declaration) = b.parameters ++ Statement.localsOf b.statements := by
  rw [requests, declarations_eq, List.map_append, map_toTrial_formalRequests,
    map_toTrial_localRequests, List.map_append, map_declaration_trials, localTrials,
    map_declaration_trialsAll]

-- What has come of a request.
structure Granted (t : SymbolTable) (r : Request) : Prop where
  defined : r.free = true → t.Allots r.declaration (index r.number)
  left    : r.free = false → t.declaredBy? r.declaration.id = none

theorem Granted.keep (h : Granted t r) (hk : t.Keeps t')
    (hd : t'.declaredBy? r.declaration.id = t.declaredBy? r.declaration.id) : Granted t' r where
  defined hr := by
    obtain ⟨x, hx, hs⟩ := h.defined hr
    exact ⟨x, hd.trans hx, hk x _ hs⟩
  left hr    := hd.trans (h.left hr)

-- All that happens to the slots is what becomes of the requests.
structure Serves (rs : List Request) (σ σ' : State) : Prop where
  granted  : ∀ r ∈ rs, Granted σ'.table r
  notices  : σ'.notices = σ.notices ++ if σ.slotsReported then [] else refusals rs
  reported : σ'.slotsReported = (σ.slotsReported || rs.any (·.isRefused))

namespace Serves

theorem nil (hn : Quiet σ σ') (hr : σ'.slotsReported = σ.slotsReported) : Serves [] σ σ' where
  granted  := nofun
  notices  := by
    rw [hn]
    cases σ.slotsReported <;> exact (List.append_nil _).symm
  reported := by rw [hr]; exact (Bool.or_false _).symm

theorem append (h : Serves rs σ σ₁) (h' : Serves rs' σ₁ σ')
    (hk : ∀ r ∈ rs, Granted σ₁.table r → Granted σ'.table r) : Serves (rs ++ rs') σ σ' where
  granted  := List.forall_mem_append.mpr ⟨fun r hr => hk r hr (h.granted r hr), h'.granted⟩
  notices  := by
    rw [h'.notices, h.notices, h.reported, refusals_append, List.append_assoc]
    cases σ.slotsReported with
    | true  => rfl
    | false => rfl
  reported := by rw [h'.reported, h.reported, List.any_append, Bool.or_assoc]

end Serves

-- The scope has the variables of the frame.
def Framed (t : SymbolTable) (s : ScopeId) (F : Frame) : Prop :=
  ∃ b, t.scope? s = some b ∧ Holds t b F

theorem Framed.of_empty (h : t.scope? s = some (.empty kind parent owner)) : Framed t s [] := by
  refine ⟨_, h, fun name => ?_⟩
  rw [Scope.lookup_empty]
  exact .none

theorem Framed.annotate (h : Framed σ.table s F) (ha : Annotates ids σ σ') :
    Framed σ'.table s F := by
  obtain ⟨b, hb, hh⟩ := h
  exact ⟨b, (congrArg (·[s]?) ha.scopes).trans hb, hh.keep ha.symbol?⟩

theorem Framed.keep (h : Framed σ.table i F) (hg : Grows ids s σ σ') (hi : i ≠ s) :
    Framed σ'.table i F := by
  obtain ⟨b, hb, hh⟩ := h
  exact ⟨b, hg.scope? hi hb, hh.keep hg.symbols⟩

-- What has come of the request of one variable.
structure Served (s : ScopeId) (F : Frame) (r : Request) (σ : State)
    (out : Option SymbolId × State) : Prop where
  frame     : Framed out.2.table s (F ++ [r.declaration])
  isSome    : out.1.isSome = r.free
  nextLocal : out.2.nextLocal = σ.nextLocal
  serves    : Serves [r] σ out.2

theorem isFree_iff : isFree F d = true ↔ ∀ d' ∈ F, d'.name ≠ d.name := by
  simp [isFree]

-- A slot that is chosen, and the report that there is none.
structure Chosen (n : Nat) (use : SlotUse) (p : Position) (σ : State) (out : Option Nat × State) :
    Prop where
  slot      : out.1 = index n
  table     : out.2.table = σ.table
  nextLocal : out.2.nextLocal = σ.nextLocal
  notices   : out.2.notices = σ.notices ++ if σ.slotsReported || (index n).isSome then []
    else [.semantic (.slotsExhausted use) p]
  reported  : out.2.slotsReported = (σ.slotsReported || (index n).isNone)

theorem chosen_slotOf (n : Nat) (use : SlotUse) (p : Position) (σ : State) :
    Chosen n use p σ (slotOf n use p σ) := by
  by_cases hn : n ≤ maxSlot
  case pos =>
    rw [slotOf_of_le hn]
    have hi : index n = some n := if_pos hn
    exact ⟨hi.symm, rfl, rfl, by simp [hi], by simp [hi]⟩
  case neg =>
    have hi : index n = none := if_neg hn
    unfold slotOf
    rw [if_neg hn, run_bind, run_get]
    split
    case isTrue hr  =>
      have hr : σ.slotsReported = true := hr
      refine ⟨hi.symm, rfl, rfl, ?notices, ?reported⟩
      case notices => rw [hr]; exact (List.append_nil _).symm
      case reported => rw [hr]; exact hr
    case isFalse hr =>
      refine ⟨hi.symm, rfl, rfl, ?firstNotice, ?firstReport⟩
      case firstNotice =>
        refine (State.notices_report (.slotsExhausted use) p { σ with slotsReported := true }).trans ?_
        rw [Bool.of_not_eq_true hr, hi]
        rfl
      case firstReport => rw [hi, Option.isNone_none, Bool.or_true]; rfl

theorem allots_define {σ : State} (ha : σ.table.accepts s (d.symbol slot) = true) :
    (define s (d.symbol slot) σ).2.table.Allots d slot := by
  rw [define_of_accepts ha]
  refine ⟨σ.table.symbols.size, ?_, SymbolTable.symbol?_addSymbol_self ..⟩
  exact (SymbolTable.declaredBy?_addSymbol ..).trans (if_pos rfl)

-- What the definition of a variable comes to, in a scope that has the variables of the frame `F`.
structure Tried (s : ScopeId) (F : Frame) (d : VariableDeclaration) (slot : Option Nat) (σ : State)
    (out : Option SymbolId × State) : Prop where
  frame     : Framed out.2.table s (F ++ [d])
  isSome    : out.1.isSome = isFree F d
  allots    : isFree F d = true → out.2.table.Allots d slot
  left      : isFree F d = false → out.2.table.declaredBy? d.id = none
  nextLocal : out.2.nextLocal = σ.nextLocal
  reported  : out.2.slotsReported = σ.slotsReported
  quiet     : Quiet σ out.2

theorem tried_defineVariable {σ : State} (hF : Framed σ.table s F) (d : VariableDeclaration)
    (slot : Option Nat) (hd : σ.table.declaredBy? d.id = none) :
    Tried s F d slot σ (defineVariable d s slot σ) := by
  obtain ⟨b, hb, hh⟩ := hF
  have hg : Grows [d.id] s σ (defineVariable d s slot σ).2 :=
    .defineVariable (List.mem_singleton_self d.id) slot σ
  obtain ⟨names, hb', _⟩ := hg.scopes s b hb
  have hframe : Framed _ s (F ++ [d]) := ⟨_, hb', holds_defineVariable hb hh d slot hb'⟩
  have hquiet := Quiet.defineVariable d s slot σ
  have hc : Annotates [] σ (checkTypeName d.type.name d.position σ).2 :=
    .checkTypeName d.type.name d.position σ
  have ht := table_checkTypeName d.type.name d.position σ
  rw [defineVariable_eq] at hframe hquiet ⊢
  generalize hσ : (modifyTable (·.bindScope d.id s) (checkTypeName d.type.name d.position σ).2).2 = σ₁
    at hframe hquiet ⊢
  have hd₁ : σ₁.table.declaredBy? d.id = none := by
    rw [← hσ, ← hd, ← ht]
    rfl
  have ha : σ₁.table.accepts s (d.symbol slot) = true ↔ isFree F d = true := by
    rw [isFree_iff]
    have ht₁ : σ₁.table = σ.table.bindScope d.id s := by
      rw [← hσ, ← ht]
      rfl
    rw [ht₁]
    exact accepts_variable hb hh _ _
  have hnext : σ₁.nextLocal = σ.nextLocal :=
    (congrArg State.nextLocal hσ).symm.trans hc.nextLocal
  have hreported : σ₁.slotsReported = σ.slotsReported :=
    (congrArg State.slotsReported hσ).symm.trans hc.reported
  by_cases hf : isFree F d = true
  case pos =>
    have hallots := allots_define (ha.mpr hf)
    rw [define_of_accepts (ha.mpr hf)] at hframe hquiet hallots ⊢
    rw [if_neg (by simp)] at hframe hquiet ⊢
    exact ⟨hframe, hf.symm, fun _ => hallots, fun hn => (by cases hn.symm.trans hf), hnext,
      hreported, hquiet⟩
  case neg =>
    rw [define_of_not_accepts (mt ha.mp hf)] at hframe hquiet ⊢
    exact ⟨hframe, (Bool.of_not_eq_true hf).symm, fun h => absurd h hf, fun _ => hd₁, hnext,
      hreported, hquiet⟩

-- The variable asks for the slot `m`, which is one if that of the request is.
theorem served_variable {σ : State} (hF : Framed σ.table s F) (d : VariableDeclaration)
    (hm : index m = index n) (use : SlotUse) (hd : σ.table.declaredBy? d.id = none) :
    Served s F ⟨⟨d, isFree F d⟩, n, use⟩ σ
      (defineVariable d s (slotOf m use d.position σ).1 (slotOf m use d.position σ).2) := by
  have hc := chosen_slotOf m use d.position σ
  generalize slotOf m use d.position σ = out at hc ⊢
  have ht := tried_defineVariable (hc.table ▸ hF) d out.1 (hc.table ▸ hd)
  rw [hc.slot, hm] at ht ⊢
  refine ⟨ht.frame, ht.isSome, ht.nextLocal.trans hc.nextLocal, ?allots, ?notices, ?reported⟩
  case allots => exact List.forall_mem_singleton.mpr ⟨ht.allots, ht.left⟩
  case notices =>
    rw [ht.quiet, hc.notices, hm]
    congr 1
    cases σ.slotsReported with
    | true  => rfl
    | false =>
      cases hi : index n with
      | some _ => simp [refusals, Request.isRefused, hi]
      | none   => simp [refusals, Request.isRefused, Request.report, hi]
  case reported =>
    rw [ht.reported, hc.reported, hm]
    simp [Request.isRefused]

-- The counter of the locals stops past the last slot.
def counted (n : Nat) : Nat :=
  min n (maxSlot + 1)

theorem index_counted (n : Nat) : index (counted n) = index n := by
  rw [index, index, counted]
  by_cases hn : n ≤ maxSlot
  case pos => rw [Nat.min_eq_left (Nat.le_succ_of_le hn)]
  case neg =>
    rw [Nat.min_eq_right (Nat.lt_of_not_le hn), if_neg hn, if_neg (Nat.not_succ_le_self _)]

-- The locals `as` have been tried in the scope `s`, the first of them as the local of number `n`.
structure Takes (s : ScopeId) (F : Frame) (n : Nat) (as : List Trial) (σ σ' : State) : Prop where
  frame  : Framed σ'.table s F
  next   : σ'.nextLocal = counted (n + as.countP (·.free))
  serves : Serves (localRequests n as) σ σ'

namespace Takes

theorem expression {σ : State} (hF : Framed σ.table place.scope F) (hl : σ.nextLocal = counted n)
    (e : Expression) : Takes place.scope F n [] σ (Resolve.expression place e σ).2 :=
  have ha := Annotates.expression place e σ
  ⟨hF.annotate ha, ha.nextLocal.trans hl, .nil (.expression place e σ) ha.reported⟩

theorem after (h : Takes s F n [] σ σ₁) (h' : Takes s F' n as σ₁ σ') : Takes s F' n as σ σ' :=
  ⟨h'.frame, h'.next, h.serves.append h'.serves nofun⟩

theorem append (h : Takes s F n as σ σ₁) (h' : Takes s F' (n + as.countP (·.free)) bs σ₁ σ')
    (hk : σ₁.table.Keeps σ'.table) (hd : Declares ids σ₁ σ')
    (hi : ∀ d ∈ as.map (·.declaration), d.id ∉ ids) : Takes s F' n (as ++ bs) σ σ' where
  frame  := h'.frame
  next   := by rw [h'.next, List.countP_append, Nat.add_assoc]
  serves := by
    rw [localRequests_append]
    refine h.serves.append h'.serves fun r hr hg => ?_
    have hm : r.declaration ∈ (localRequests n as).map (·.declaration) := List.mem_map_of_mem hr
    rw [declarations_eq, map_toTrial_localRequests] at hm
    exact hg.keep hk (hd.declaredBy? _ (hi _ hm))

end Takes

theorem takes_declareLocal {σ : State} (place : Place) (hF : Framed σ.table place.scope F)
    (hl : σ.nextLocal = counted n) (d : VariableDeclaration)
    (hd : σ.table.declaredBy? d.id = none) :
    Takes place.scope (F ++ [d]) n [⟨d, isFree F d⟩] σ (declareLocal place d σ).2 := by
  have hm : index σ.nextLocal = index n := hl ▸ index_counted n
  have hs := served_variable hF d hm .locals hd
  have hslot := (chosen_slotOf σ.nextLocal .locals d.position σ).slot.trans hm
  rw [declareLocal_eq]
  generalize slotOf σ.nextLocal .locals d.position σ = slot at hs hslot ⊢
  dsimp only
  rw [hslot] at hs ⊢
  rw [hs.isSome]
  have hnext : σ.nextLocal + (if (isFree F d && (index n).isSome) = true then 1 else 0) =
      counted (n + [Trial.mk d (isFree F d)].countP (·.free)) := by
    rw [hl, index, counted, counted]
    cases isFree F d with
    | false => simp
    | true  =>
      by_cases hn : n ≤ maxSlot
      case pos => simp [hn]; omega
      case neg => simp [hn]; omega
  split
  case isTrue hi  =>
    rw [if_pos hi] at hnext
    exact ⟨hs.frame, (congrArg (· + 1) hs.nextLocal).trans hnext, { hs.serves with }⟩
  case isFalse hi =>
    rw [if_neg hi] at hnext
    exact ⟨hs.frame, hs.nextLocal.trans hnext, hs.serves⟩

-- None of the declarations has defined anything so far.
def Fresh (t : SymbolTable) (ds : List VariableDeclaration) : Prop :=
  ∀ i ∈ ds.map (·.id), t.declaredBy? i = none

theorem Fresh.append_iff : Fresh t (ds ++ ds') ↔ Fresh t ds ∧ Fresh t ds' := by
  rw [Fresh, List.map_append, List.forall_mem_append]
  rfl

theorem Fresh.keep (h : Fresh σ.table ds) (hd : Declares ids σ σ')
    (hi : (ds.map (·.id)).Disjoint ids) : Fresh σ'.table ds :=
  fun i hm => (hd.declaredBy? i (hi hm)).trans (h i hm)

theorem Fresh.annotate (h : Fresh σ.table ds) (ha : Annotates ids σ σ') : Fresh σ'.table ds :=
  fun i hm => (congrArg (·[i]?) ha.declared).trans (h i hm)

mutual

theorem takes_statement (place : Place) (s : Statement) (σ : State)
    (hF : Framed σ.table place.scope F) (hl : σ.nextLocal = counted n)
    (hn : (s.locals.map (·.id)).Nodup) (hu : Fresh σ.table s.locals) :
    Takes place.scope (F ++ s.declares) n (trialsIn F s) σ (statement place s σ).2 := by
  have he (e : Expression) := Takes.expression (n := n) hF hl e
  have hfresh (e : Expression) : Fresh (expression place e σ).2.table s.locals :=
    hu.annotate (Annotates.expression place e σ)
  match s with
  | .declare d => exact takes_declareLocal place hF hl d (hu d.id (List.mem_singleton_self _))
  | .print i e p | .ret i e p | .assert i e p =>
    rw [Statement.declares, List.append_nil]
    exact he e
  | .call i receiver name arguments p =>
    rw [Statement.declares, List.append_nil]
    exact he (.call i receiver name arguments p)
  | .malformed p =>
    rw [Statement.declares, List.append_nil]
    exact ⟨hF, hl, .nil (.refl σ) rfl⟩
  | .assign i target value p =>
    rw [Statement.declares, List.append_nil]
    have hv (σ₀ : State) (hF : Framed σ₀.table place.scope F) (hl : σ₀.nextLocal = counted n) :
        Takes place.scope F n [] σ₀ (expression place value (expression place target σ₀).2).2 :=
      have ht := Takes.expression hF hl target
      ht.after (.expression ht.frame ht.next value)
    rw [statement]
    split
    case isTrue  => exact hv σ hF hl
    case isFalse =>
      let σ₁ := (report (.cannotAssign target.form) target.position σ).2
      have hr : Takes place.scope F n [] σ σ₁ :=
        ⟨hF, hl, .nil (.report (.cannotAssign target.form) target.position σ) rfl⟩
      exact hr.after (hv σ₁ hF hl)
  | .block i body p =>
    let inner : Place := ⟨σ.table.scopes.size, place.inMain⟩
    let σ₁ := (addScope .ofBlock place.scope none σ).2
    let σ₂ := (modifyTable (·.bindScope i inner.scope) σ₁).2
    have hb : Annotates [i] σ₁ σ₂ := .bindScope (List.mem_singleton_self i) inner.scope σ₁
    have hg : Grows (Statement.nodeIdsOf body ++ [i]) inner.scope σ (statements inner body σ₂).2 :=
      .of_addScope (.trans ((hb.grows _).mono (List.subset_append_right _ _))
        ((Grows.statements inner body σ₂).mono (List.subset_append_left _ _)))
    have hF₂ : Framed σ₂.table inner.scope [] :=
      .of_empty ((SymbolTable.scope?_addScope ..).trans (if_pos rfl))
    obtain ⟨F', hs⟩ := takes_statements (n := n) inner body σ₂ hF₂ hl hn hu
    rw [statement, Statement.declares, List.append_nil]
    obtain ⟨b, hb, hh⟩ := hF
    have hne : place.scope ≠ inner.scope := Nat.ne_of_lt (SymbolTable.lt_of_scope? hb)
    exact ⟨Framed.keep ⟨b, hb, hh⟩ hg hne, hs.next, hs.serves.granted, hs.serves.notices,
      hs.serves.reported⟩
  | .ifThen i e onTrue p =>
    exact (he e).after (takes_statement place onTrue _ (he e).frame (he e).next hn (hfresh e))
  | .loop i e body p =>
    exact (he e).after (takes_statement place body _ (he e).frame (he e).next hn (hfresh e))
  | .ifThenElse i e onTrue onFalse p =>
    rw [Statement.locals, List.map_append] at hn
    obtain ⟨hnt, hnf, hd⟩ := List.nodup_append'.mp hn
    obtain ⟨hut, huf⟩ := Fresh.append_iff.mp (hfresh e)
    have hdecl := Declares.statement place onFalse (statement place onTrue (expression place e σ).2).2
      hnf
    have ht := takes_statement place onTrue _ (he e).frame (he e).next hnt hut
    have hf := takes_statement place onFalse _ ht.frame ht.next hnf
      (huf.keep (Declares.statement place onTrue _ hnt) fun _ h h' => hd h' h)
    rw [Statement.declares, ← List.append_assoc]
    refine (he e).after (ht.append hf (Grows.statement place onFalse _).symbols hdecl fun d hm => ?_)
    rw [map_declaration_trialsIn] at hm
    exact hd (List.mem_map_of_mem hm)

theorem takes_statements (place : Place) (ss : List Statement) (σ : State)
    (hF : Framed σ.table place.scope F) (hl : σ.nextLocal = counted n)
    (hn : ((Statement.localsOf ss).map (·.id)).Nodup) (hu : Fresh σ.table (Statement.localsOf ss)) :
    ∃ F', Takes place.scope F' n (trialsAll F ss) σ (statements place ss σ).2 := by
  match ss with
  | []      => exact ⟨F, hF, hl, .nil (.refl σ) rfl⟩
  | s :: ss =>
    rw [Statement.localsOf, List.map_append] at hn
    obtain ⟨hns, hnss, hd⟩ := List.nodup_append'.mp hn
    obtain ⟨hus, huss⟩ := Fresh.append_iff.mp hu
    have hs := takes_statement place s σ hF hl hns hus
    obtain ⟨F', hss⟩ := takes_statements place ss _ hs.frame hs.next hnss
      (huss.keep (Declares.statement place s σ hns) fun _ h h' => hd h' h)
    have hdecl := Declares.statements place ss (statement place s σ).2 hnss
    refine ⟨F', hs.append hss (Grows.statements place ss _).symbols hdecl fun d hm => ?_⟩
    rw [map_declaration_trialsIn] at hm
    exact hd (List.mem_map_of_mem hm)

end

theorem serves_parameters (ds : List VariableDeclaration) {σ : State} (hF : Framed σ.table s F)
    (hn : (ds.map (·.id)).Nodup) (hu : Fresh σ.table ds) :
    Framed (parameters s n ds σ).2.table s (F ++ ds) ∧
      (parameters s n ds σ).2.nextLocal = σ.nextLocal ∧
        Serves (formalRequests n (trials F ds)) σ (parameters s n ds σ).2 := by
  induction ds generalizing n σ F with
  | nil          =>
    rw [List.append_nil]
    exact ⟨hF, rfl, .nil (.refl σ) rfl⟩
  | cons d ds hi =>
    obtain ⟨hd, hn⟩ := List.nodup_cons.mp hn
    obtain ⟨hud, hu⟩ := List.forall_mem_cons.mp hu
    have hs := served_variable hF d (rfl : index n = index n) .parameters hud
    have hdecl : Declares [d.id] σ (defineVariable d s (slotOf n .parameters d.position σ).1
        (slotOf n .parameters d.position σ).2).2 :=
      (Declares.slotOf n .parameters d.position σ).before (.defineVariable d s _ _)
    rw [parameters]
    simp only [run_bind]
    generalize defineVariable d s (slotOf n .parameters d.position σ).1
      (slotOf n .parameters d.position σ).2 = out at hs hdecl ⊢
    have hu : Fresh out.2.table ds :=
      Fresh.keep hu hdecl (List.disjoint_singleton.mpr hd)
    obtain ⟨hF', hl, hss⟩ := hi (n := n + 1) hs.frame hn hu
    rw [List.append_assoc] at hF'
    refine ⟨hF', hl.trans hs.nextLocal, hs.serves.append hss fun r hr hg => ?_⟩
    obtain rfl := List.mem_singleton.mp hr
    exact hg.keep (Grows.parameters s (n + 1) ds out.2).symbols
      ((Declares.parameters s (n + 1) ds out.2 hn).declaredBy? d.id hd)

-- What has come of the requests of a body.
structure Provides (b : Body) (σ σ' : State) : Prop where
  granted : ∀ r ∈ requests b, Granted σ'.table r
  notices : σ'.notices = σ.notices ++ refusals (requests b)

theorem provides_methodBody (b : MethodBody) {σ : State} (hF : Framed σ.table b.scope [])
    (hn : b.variableIds.Nodup) (hu : ∀ i ∈ b.variableIds, σ.table.declaredBy? i = none) :
    Provides b.toBody σ (methodBody b σ).2 := by
  obtain ⟨hp, hs, hd⟩ := List.nodup_append'.mp hn
  obtain ⟨hup, hus⟩ := List.forall_mem_append.mp hu
  let σ₁ : State := { σ with nextLocal := 0, slotsReported := false }
  let σ₂ := (parameters b.scope 1 b.parameters σ₁).2
  obtain ⟨hF₂, hl, hps⟩ : Framed σ₂.table b.scope b.parameters ∧ _ ∧ Serves _ σ₁ σ₂ :=
    serves_parameters (σ := σ₁) b.parameters hF hp hup
  have hu₁ : Fresh σ₁.table (Statement.localsOf b.statements) := hus
  have hu₂ : Fresh σ₂.table (Statement.localsOf b.statements) :=
    hu₁.keep (Declares.parameters b.scope 1 b.parameters σ₁ hp) fun _ h h' => hd h' h
  obtain ⟨_, hss⟩ := takes_statements (n := 0) ⟨b.scope, b.isMain⟩ b.statements σ₂ hF₂ hl hs hu₂
  have hserves := hps.append hss.serves fun r hr hg => by
    have hm : r.declaration ∈ (formalRequests 1 (trials [] b.parameters)).map (·.declaration) :=
      List.mem_map_of_mem hr
    rw [declarations_eq, map_toTrial_formalRequests, map_declaration_trials] at hm
    have hdecl := Declares.statements ⟨b.scope, b.isMain⟩ b.statements σ₂ hs
    exact hg.keep (Grows.statements _ b.statements σ₂).symbols
      (hdecl.declaredBy? _ (hd (List.mem_map_of_mem hm)))
  exact ⟨hserves.granted, hserves.notices⟩

theorem keeps_bodies (bs : List MethodBody) (σ : State) :
    σ.table.Keeps (bs.forM methodBody σ).2.table := by
  induction bs generalizing σ with
  | nil          => exact fun _ _ => id
  | cons b bs hi => exact fun x a hx => hi _ x a ((Grows.methodBody b σ).symbols x a hx)

theorem declares_bodies (bs : List MethodBody) {σ : State}
    (hn : (bs.flatMap MethodBody.variableIds).Nodup) :
    Declares (bs.flatMap MethodBody.variableIds) σ (bs.forM methodBody σ).2 :=
  .forM Declares.methodBody bs σ hn

theorem provides_bodies (bs : List MethodBody) {σ : State} (hs : (bs.map (·.scope)).Nodup)
    (hF : ∀ b ∈ bs, Framed σ.table b.scope []) (hn : (bs.flatMap MethodBody.variableIds).Nodup)
    (hu : ∀ i ∈ bs.flatMap MethodBody.variableIds, σ.table.declaredBy? i = none) :
    (∀ b ∈ bs, ∀ r ∈ requests b.toBody, Granted (bs.forM methodBody σ).2.table r) ∧
      (bs.forM methodBody σ).2.notices =
        σ.notices ++ bs.flatMap fun b => refusals (requests b.toBody) := by
  induction bs generalizing σ with
  | nil          => exact ⟨nofun, (List.append_nil _).symm⟩
  | cons b bs hi =>
    obtain ⟨hsb, hs⟩ := List.nodup_cons.mp hs
    obtain ⟨hFb, hF⟩ := List.forall_mem_cons.mp hF
    obtain ⟨hnb, hn, hd⟩ := List.nodup_append'.mp hn
    obtain ⟨hub, hu⟩ := List.forall_mem_append.mp hu
    have hb := provides_methodBody b hFb hnb hub
    have hdecl := Declares.methodBody b σ hnb
    have hF (b') (hb' : b' ∈ bs) : Framed (methodBody b σ).2.table b'.scope [] :=
      (hF b' hb').keep (Grows.methodBody b σ) fun he => hsb (List.mem_map.mpr ⟨b', hb', he⟩)
    obtain ⟨hg, hns⟩ := hi hs hF hn fun i hm =>
      (hdecl.declaredBy? i fun h => hd h hm).trans (hu i hm)
    rw [run_forM_cons]
    refine ⟨List.forall_mem_cons.mpr ⟨fun r hr => ?granted, hg⟩, ?notices⟩
    case granted =>
      have hm : r.declaration ∈ (requests b.toBody).map (·.declaration) := List.mem_map_of_mem hr
      rw [map_declaration_requests] at hm
      have hi : r.declaration.id ∈ b.variableIds := by
        rw [MethodBody.variableIds, ← List.map_append]
        exact List.mem_map_of_mem hm
      exact (hb.granted r hr).keep (keeps_bodies bs _) ((declares_bodies bs hn).declaredBy? _ (hd hi))
    case notices => rw [hns, hb.notices, List.flatMap_cons, List.append_assoc]

section

variable {t : SymbolTable} {b : Body}

theorem getElem?_formalRequests (n : Nat) (F : Frame) (ds : List VariableDeclaration) (i : Nat) :
    (formalRequests n (trials F ds))[i]? =
      ds[i]?.map fun d => ⟨⟨d, isFree (F ++ ds.take i) d⟩, n + i, .parameters⟩ := by
  induction ds generalizing n F i with
  | nil          => rfl
  | cons d ds hi =>
    cases i with
    | zero   => simp [trials, formalRequests]
    | succ i =>
      rw [trials, formalRequests, List.getElem?_cons_succ, List.getElem?_cons_succ, hi,
        List.take_succ_cons, List.append_assoc, Nat.add_assoc, Nat.add_comm 1]
      rfl

theorem Granted.slot?_eq (h : Granted t r) :
    t.slot? r.declaration = if r.free then some (index r.number) else none := by
  cases hr : r.free with
  | true  => exact (h.defined hr).slot?_eq
  | false => exact SymbolTable.slot?_of_none (h.left hr)

-- The locals that are defined have the slots in order.
theorem filterMap_slot? (as : List Trial) (h : ∀ r ∈ localRequests n as, Granted t r) :
    (as.map (·.declaration)).filterMap t.slot? =
      (List.range' n (as.countP (·.free))).map index := by
  induction as generalizing n with
  | nil          => rfl
  | cons a as hi =>
    obtain ⟨ha, h⟩ := List.forall_mem_cons.mp h
    have ha : t.slot? a.declaration = if a.free then some (index n) else none := ha.slot?_eq
    have has := hi h
    rw [List.map_cons]
    cases hf : a.free with
    | true  =>
      rw [hf] at ha has
      rw [List.filterMap_cons_some ha, has, List.countP_cons_of_pos hf, List.range'_succ]
      rfl
    | false =>
      rw [hf] at ha has
      rw [List.filterMap_cons_none ha, has, List.countP_cons_of_neg (by simp [hf])]
      rfl

end

end Binding

end MiniJava
