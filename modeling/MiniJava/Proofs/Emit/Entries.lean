import MiniJava.Proofs.Emit.Accepted

namespace MiniJava

namespace Emit

section

variable {f : β → α → Except ε β} {as : List α}

-- What one step of a run brings about and the others keep, the run brings about.
theorem foldlM_ok_of_mem {b b' : β} {Q : β → Prop} (hk : ∀ a ∈ as, ∀ b b', Q b → f b a = .ok b' → Q b')
    (ha : a ∈ as) (hq : ∀ b b', f b a = .ok b' → Q b') (h : as.foldlM f b = .ok b') : Q b' := by
  induction as generalizing b with
  | nil           => cases ha
  | cons a' as hi =>
    have hk' : ∀ a ∈ as, ∀ b b', Q b → f b a = .ok b' → Q b' :=
      fun a ha => hk a (List.mem_cons_of_mem _ ha)
    rw [List.foldlM_cons] at h
    rcases List.mem_cons.mp ha with rfl | ha
    case inl =>
      obtain ⟨b₁, hb₁, h⟩ := bind_eq_ok.mp h
      exact foldlM_ok (Q := Q) hk' (hq b b₁ hb₁) h
    case inr =>
      obtain ⟨b₁, hb₁, h⟩ := bind_eq_ok.mp h
      exact hi hk' ha h

end

-- There is an entry under the handle of a method.
def HasEntry (g : Context) (code : ProgramCode) (t : MethodTask) : Prop :=
  ∃ h m, g.environment.methodHandle t.symbol = .ok h ∧ code[h.number]? = some m

section

variable {g : Context} {p : Program} {code : ProgramCode}

-- What the code of one method brings about and that of the others keeps, the code of a program
-- brings about.
theorem program_brings {Q : ProgramCode → Prop} (ht : IsTask g p t)
    (hk : ∀ t' code code', Q code → method g code t' = .ok code' → Q code')
    (hq : ∀ code code', method g code t = .ok code' → Q code') (h : program g p = .ok code) :
    Q code := by
  have hmember (name m code code') (hc : Q code) (h : member g name code m = .ok code') :
      Q code' := by
    cases m with
    | field _     => exact Except.ok.inj h ▸ hc
    | malformed _ => cases h
    | method m    =>
      obtain ⟨s, _, h⟩ := bind_eq_ok.mp h
      exact hk _ _ _ hc h
  have hclass (c code code') (hc : Q code) (h : classCode g code c = .ok code') : Q code' :=
    foldlM_ok (fun _ _ _ _ hc h => hmember _ _ _ _ hc h) hc h
  simp only [program, bind_eq_ok, orMissing_eq_ok] at h
  obtain ⟨main, hmain, s, hs, code₁, h₁, h⟩ := h
  cases ht with
  | main hc hs' =>
    obtain rfl := Option.some.inj (hmain.symm.trans hc)
    obtain rfl := Except.ok.inj (hs.symm.trans hs')
    exact foldlM_ok (fun _ _ _ _ hc h => hclass _ _ _ hc h) (hq _ _ h₁) h
  | @method c s' m hc hm hs' =>
    refine foldlM_ok_of_mem (fun _ _ _ _ hc h => hclass _ _ _ hc h) hc (fun _ _ h => ?_) h
    refine foldlM_ok_of_mem (fun _ _ _ _ hc h => hmember _ _ _ _ hc h) hm (fun _ _ h => ?_) h
    obtain ⟨s, hs, h⟩ := bind_eq_ok.mp h
    obtain rfl := Option.some.inj (hs'.symm.trans (orMissing_eq_ok.mp hs))
    exact hq _ _ h

-- The generation gives every method an entry.
theorem hasEntry_program (ht : IsTask g p t) (h : program g p = .ok code) : HasEntry g code t := by
  refine program_brings (Q := fun code => HasEntry g code t) ht (fun t' code code' he h => ?kept)
    (fun code code' h => ?brought) h
  case kept =>
    obtain ⟨handle, c, _, _, rfl⟩ := method_eq_ok.mp h
    obtain ⟨k, m, hk, hm⟩ := he
    by_cases hc : compare handle.number k.number = .eq
    case pos => exact ⟨k, _, hk, by rw [Std.TreeMap.getElem?_insert, if_pos hc]⟩
    case neg => exact ⟨k, m, hk, by rw [Std.TreeMap.getElem?_insert, if_neg hc, hm]⟩
  case brought =>
    obtain ⟨handle, c, hh, _, rfl⟩ := method_eq_ok.mp h
    exact ⟨handle, _, hh, by rw [Std.TreeMap.getElem?_insert_self]⟩

-- The generation has a handle and a chunk for every method, even if the entry is replaced.
theorem exists_chunk_of_program (ht : IsTask g p t) (h : program g p = .ok code) :
    ∃ handle c, g.environment.methodHandle t.symbol = .ok handle ∧
      chunk g t.statements = .ok c := by
  refine program_brings (Q := fun _ => _) ht (fun _ _ _ hq _ => hq) (fun code code' h => ?_) h
  obtain ⟨handle, c, hh, hc, _⟩ := method_eq_ok.mp h
  exact ⟨handle, c, hh, hc⟩

end

-- The name of a method together with that of its class.
def MethodTask.title (g : Context) (t : MethodTask) : String :=
  t.className ++ "." ++ ((g.table.symbol? t.symbol).map (·.name)).getD ""

-- Every entry so far bears the name of its method.
def Titled (g : Context) (p : Program) (code : ProgramCode) : Prop :=
  ∀ handle m, code[handle]? = some m →
    ∃ t, IsTask g p t ∧ g.environment.methodHandle t.symbol = .ok ⟨handle⟩ ∧ m.name = t.title g

namespace Titled

variable {g : Context} {p : Program}

theorem method (hs : Titled g p code) (ht : IsTask g p t) (h : Emit.method g code t = .ok code') :
    Titled g p code' := by
  obtain ⟨handle, c, hh, _, rfl⟩ := method_eq_ok.mp h
  intro k m hk
  rw [Std.TreeMap.getElem?_insert] at hk
  split at hk
  case isTrue he =>
    obtain rfl := Option.some.inj hk
    exact ⟨t, ht, Std.LawfulEqCmp.eq_of_compare he ▸ hh, rfl⟩
  case isFalse => exact hs k m hk

theorem member (hs : Titled g p code) (hc : c ∈ p.classes) (hm : m ∈ c.members)
    (h : Emit.member g c.name code m = .ok code') : Titled g p code' := by
  cases m with
  | field _     => exact Except.ok.inj h ▸ hs
  | malformed _ => cases h
  | method m    =>
    obtain ⟨s, hs', h⟩ := bind_eq_ok.mp h
    exact hs.method (.method hc hm (orMissing_eq_ok.mp hs')) h

theorem program (h : Emit.program g p = .ok code) : Titled g p code := by
  simp only [Emit.program, bind_eq_ok, orMissing_eq_ok] at h
  obtain ⟨main, hmain, s, hs, code₁, h₁, h⟩ := h
  have hmain : Titled g p code₁ := by
    refine Titled.method (fun k m hk => ?_) (.main hmain hs) h₁
    simp at hk
  refine foldlM_ok (fun c hc _ _ hs h => ?_) hmain h
  exact foldlM_ok (fun m hm _ _ hs h => hs.member hc hm h) hs h

end Titled

end Emit

theorem eq_of_nodup_flatMap {f : α → List β} {l : List α} (h : (l.flatMap f).Nodup) (ha : a ∈ l)
    (hb : b ∈ l) (hxa : x ∈ f a) (hxb : x ∈ f b) : a = b := by
  induction l with
  | nil         => cases ha
  | cons c l hi =>
    rw [List.flatMap_cons, List.nodup_append] at h
    obtain ⟨_, hl, hd⟩ := h
    have hd {b} (hb : b ∈ l) (hxa : x ∈ f c) (hxb : x ∈ f b) : False :=
      hd x hxa x (List.mem_flatMap.mpr ⟨b, hb, hxb⟩) rfl
    cases ha with
    | head      =>
      cases hb with
      | head      => rfl
      | tail _ hb => exact (hd hb hxa hxb).elim
    | tail _ ha =>
      cases hb with
      | head      => exact (hd ha hxb hxa).elim
      | tail _ hb => exact hi hl ha hb

namespace Accepted

variable {p : Program} {t : SymbolTable}

theorem declarationOf?_mainSymbol (h : Accepted p t) (hc : p.mainClass = some c)
    (hs : Emit.mainSymbol (.sequential t) c = .ok s) : t.declarationOf? s = none := by
  obtain ⟨s', hs', _, _, hx⟩ := h.exists_mainSymbol hc
  obtain rfl := Except.ok.inj (hs.symm.trans hs')
  rw [SymbolTable.declarationOf?, hx]
  rfl

theorem declarationOf?_methodSymbol (h : Accepted p t) (hc : c ∈ p.classes)
    (hm : .method m ∈ c.members) (hs : t.declaredBy? m.id = some s) :
    t.declarationOf? s = some m.id := by
  obtain ⟨s', hs', _, _, hx⟩ := h.exists_methodSymbol hc hm
  obtain rfl := Option.some.inj (hs.symm.trans hs')
  rw [SymbolTable.declarationOf?, hx]
  rfl

-- No two methods have a symbol in common.
theorem eq_of_symbol (h : Accepted p t) (ht : Emit.IsTask (.sequential t) p task)
    (ht' : Emit.IsTask (.sequential t) p task') (he : task.symbol = task'.symbol) :
    task = task' := by
  cases ht with
  | main hc hs =>
    have hn := h.declarationOf?_mainSymbol hc hs
    cases ht' with
    | main hc' hs'       =>
      obtain rfl := Option.some.inj (hc.symm.trans hc')
      obtain rfl := Except.ok.inj (hs.symm.trans hs')
      rfl
    | method hc' hm' hs' =>
      obtain rfl := he
      cases hn.symm.trans (h.declarationOf?_methodSymbol hc' hm' hs')
  | method hc hm hs =>
    have hn := h.declarationOf?_methodSymbol hc hm hs
    cases ht' with
    | main hc' hs'       =>
      obtain rfl := he
      cases hn.symm.trans (h.declarationOf?_mainSymbol hc' hs')
    | method hc' hm' hs' =>
      obtain rfl := he
      have hi := Option.some.inj (hn.symm.trans (h.declarationOf?_methodSymbol hc' hm' hs'))
      have hnodup := h.nodup.of_append_right
      have hmem {m : MethodDeclaration} : m.id ∈ (Member.method m).nodeIds := by
        simp [Member.nodeIds, MethodDeclaration.nodeIds]
      have hmem' {c : ClassDeclaration} {m : Member} {i} (hm : m ∈ c.members) (hi : i ∈ m.nodeIds) :
          i ∈ c.nodeIds :=
        List.mem_append_left _ (List.mem_flatMap.mpr ⟨m, hm, hi⟩)
      obtain rfl := eq_of_nodup_flatMap hnodup hc hc' (hmem' hm hmem) (hi ▸ hmem' hm' hmem)
      have hnodup := ((List.nodup_flatMap.mp hnodup).1 _ hc).of_append_left
      obtain ⟨⟩ := eq_of_nodup_flatMap hnodup hm hm' hmem (hi ▸ hmem)
      rfl

-- The entry under the handle of a method is the one of the method.
theorem exists_entry (h : Accepted p t) (hcode : ProgramCode.generate t (.sequential t) p = .ok code)
    (ht : Emit.IsTask (.sequential t) p task) :
    ∃ handle m, (Environment.sequential t).methodHandle task.symbol = .ok handle ∧
      code[handle.number]? = some m ∧ Emit.CodeOf (.sequential t) p handle.number m task := by
  have hprogram := ProgramCode.generate_eq_ok.mp hcode
  obtain ⟨handle, m, hh, hm⟩ := Emit.hasEntry_program ht hprogram
  obtain ⟨task', hof⟩ := Emit.Sourced.program hprogram _ m hm
  obtain rfl := h.eq_of_symbol ht hof.task (Environment.methodHandle_inj hh hof.handle)
  exact ⟨handle, m, hh, hm, hof⟩

theorem name_of_entry (h : Accepted p t) (hcode : ProgramCode.generate t (.sequential t) p = .ok code)
    (ht : Emit.IsTask (.sequential t) p task)
    (hh : (Environment.sequential t).methodHandle task.symbol = .ok handle)
    (hm : code[handle.number]? = some m) : m.name = task.title (.sequential t) := by
  obtain ⟨task', ht', hh', hn⟩ := Emit.Titled.program (ProgramCode.generate_eq_ok.mp hcode) _ m hm
  obtain rfl := h.eq_of_symbol ht ht' (Environment.methodHandle_inj hh hh')
  exact hn

end Accepted

end MiniJava
