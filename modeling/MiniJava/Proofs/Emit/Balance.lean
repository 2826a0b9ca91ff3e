import MiniJava.Proofs.Emit.Direction
import MiniJava.Proofs.Emit.Effect

namespace MiniJava.Emit

open Typing

-- An instruction with its effect.
structure Annotated where
  instruction : Instruction
  effect      : Effect

-- The height of the stack behind an instruction. What follows a return starts with an empty stack.
def Annotated.after (x : Annotated) (height : Nat) : Nat :=
  if x.instruction.opcode = .ret then 0 else height - x.effect.pops + x.effect.pushes

-- The height of the stack behind instructions.
def level (height : Nat) (xs : List Annotated) : Nat :=
  xs.foldl (fun height x => x.after height) height

@[simp]
theorem level_nil : level h [] = h := rfl

@[simp]
theorem level_cons : level h (x :: xs) = level (x.after h) xs := rfl

@[simp]
theorem level_append : level h (xs ++ ys) = level (level h xs) ys :=
  List.foldl_append

-- An instruction at which the stack has that height.
structure Fit (g : Context) (height : Nat) (x : Annotated) : Prop where
  effect   : HasEffect g x.instruction.opcode x.effect
  operands : x.effect.pops ≤ height
  branch   : x.instruction.opcode.target?.isSome → x.after height = 0
  ret      : x.instruction.opcode = .ret → height = if x.instruction.position.isSome then 1 else 0

-- Instructions that start with a stack of that height.
def Fits (g : Context) (height : Nat) : List Annotated → Prop
  | []      => True
  | x :: xs => Fit g height x ∧ Fits g (x.after height) xs

namespace Fits

@[simp]
theorem nil : Fits g h [] := trivial

@[simp]
theorem cons : Fits g h (x :: xs) ↔ Fit g h x ∧ Fits g (x.after h) xs := Iff.rfl

@[simp]
theorem append : Fits g h (xs ++ ys) ↔ Fits g h xs ∧ Fits g (level h xs) ys := by
  induction xs generalizing h with
  | nil          => simp
  | cons x xs hi => simp [hi, and_assoc]

theorem getElem? (hf : Fits g h xs) (hx : xs[n]? = some x) : Fit g (level h (xs.take n)) x := by
  induction xs generalizing h n with
  | nil          => cases hx
  | cons y ys hi =>
    cases n with
    | zero   => exact Option.some.inj hx ▸ hf.1
    | succ n => exact hi hf.2 hx

end Fits

-- Instructions without branches and returns that leave so many values more on any stack.
structure Pushes (g : Context) (count : Nat) (is : List Instruction) (xs : List Annotated) :
    Prop where
  instructions : xs.map (·.instruction) = is
  fits         : ∀ h, Fits g h xs
  level        : ∀ h, level h xs = h + count

-- Instructions from an index on that leave an empty stack empty, and at the targets have an empty
-- stack.
structure Neutral (g : Context) (n : Nat) (is : List Instruction) (ts : List Nat)
    (xs : List Annotated) : Prop where
  instructions : xs.map (·.instruction) = is
  fits         : Fits g 0 xs
  level        : level 0 xs = 0
  targets      : ∀ t ∈ ts, ∃ k ≤ xs.length, n + k = t ∧ Emit.level 0 (xs.take k) = 0

namespace Pushes

theorem nil : Pushes g 0 [] [] where
  instructions := rfl
  fits _       := .nil
  level _      := rfl

theorem append (h : Pushes g m is xs) (h' : Pushes g n js ys) :
    Pushes g (m + n) (is ++ js) (xs ++ ys) where
  instructions := by simp [h.instructions, h'.instructions]
  fits k       := by simp [h.fits, h'.fits]
  level k      := by simp [h.level, h'.level, Nat.add_assoc]

-- An instruction that takes all of the values and leaves others.
theorem apply (h : Pushes g m is xs) (he : HasEffect g o ⟨m, n⟩) (ht : o.target? = none)
    (hr : o ≠ .ret) : Pushes g n (is ++ [⟨o, p⟩]) (xs ++ [⟨⟨o, p⟩, ⟨m, n⟩⟩]) where
  instructions := by simp [h.instructions]
  fits k       := by
    simp only [Fits.append, h.fits, h.level, true_and]
    exact ⟨⟨he, Nat.le_add_left _ _, by simp [ht], fun ho => absurd ho hr⟩, .nil⟩
  level k      := by simp [h.level, Annotated.after, hr]

theorem neutral (h : Pushes g 0 is xs) : Neutral g n is [] xs where
  instructions := h.instructions
  fits         := h.fits 0
  level        := h.level 0
  targets      := nofun

end Pushes

namespace Neutral

theorem nil : Neutral g n [] [] [] :=
  Pushes.nil.neutral

theorem append (h : Neutral g n is ts xs) (h' : Neutral g m js us ys) (hm : m = n + is.length) :
    Neutral g n (is ++ js) (ts ++ us) (xs ++ ys) where
  instructions := by simp [h.instructions, h'.instructions]
  fits         := by simp [h.fits, h.level, h'.fits]
  level        := by simp [h.level, h'.level]
  targets t ht := by
    have hlen : xs.length = is.length := by simp [← h.instructions]
    rcases List.mem_append.mp ht with ht | ht
    case inl =>
      obtain ⟨k, hk, rfl, hl⟩ := h.targets t ht
      exact ⟨k, by simp; omega, rfl, by rwa [List.take_append_of_le_length hk]⟩
    case inr =>
      obtain ⟨k, hk, rfl, hl⟩ := h'.targets t ht
      refine ⟨xs.length + k, by simp [hk], by omega, ?_⟩
      rw [List.take_length_add_append, level_append, h.level, hl]

-- Branches may also go to where the instructions start, and to where they end.
theorem atStart (h : Neutral g n is ts xs) : Neutral g n is (n :: ts) xs :=
  { h with targets := List.forall_mem_cons.mpr ⟨⟨0, Nat.zero_le _, rfl, rfl⟩, h.targets⟩ }

theorem atEnd (h : Neutral g n is ts xs) : Neutral g n is ((n + is.length) :: ts) xs := by
  have hlen : xs.length = is.length := by simp [← h.instructions]
  refine { h with targets := List.forall_mem_cons.mpr ⟨⟨xs.length, le_rfl, by rw [hlen], ?_⟩,
    h.targets⟩ }
  rw [List.take_length, h.level]

theorem subset (h : Neutral g n is ts xs) (hs : us ⊆ ts) : Neutral g n is us xs :=
  { h with targets := fun t ht => h.targets t (hs ht) }

end Neutral

-- An instruction that takes all of the values and leaves nothing may also branch or return.
theorem Pushes.use (h : Pushes g m is xs) (hf : Fit g m ⟨⟨o, p⟩, ε⟩)
    (hl : Annotated.after ⟨⟨o, p⟩, ε⟩ m = 0) :
    Neutral g n (is ++ [⟨o, p⟩]) [] (xs ++ [⟨⟨o, p⟩, ε⟩]) where
  instructions := by simp [h.instructions]
  fits         := by simp [h.fits, h.level, hf]
  level        := by simp [h.level, hl]
  targets      := nofun

theorem Pushes.branch (h : Pushes g m is xs) (he : o.effect? = some ⟨m, 0⟩) (hr : o ≠ .ret) :
    Neutral g n (is ++ [⟨o, p⟩]) [] (xs ++ [⟨⟨o, p⟩, ⟨m, 0⟩⟩]) :=
  have hl : Annotated.after ⟨⟨o, p⟩, ⟨m, 0⟩⟩ m = 0 := by simp [Annotated.after]
  h.use ⟨.plain he, le_rfl, fun _ => hl, fun ho => absurd ho hr⟩ hl

theorem typeOf?_eq {t : SymbolTable} (h : HasType t.notes Γ e τ) (hi : e.id? = some i) :
    t.typeOf? i = some τ := by
  obtain ⟨j, hj, ht⟩ := exists_typeOf? h
  obtain rfl := Option.some.inj (hi.symm.trans hj)
  exact ht

section

variable {g : Context} {Γ : Typing.Context}

-- The code of a call that passes the typing rules, with what the table knows of the method.
inductive CallCode (g : Context) (Γ : Typing.Context) (i : NodeId) (receiver : Expression)
    (name : String) (arguments : List Expression) (p : Position) :
    StaticType → List Instruction → Prop
  | length (hn : name = "length") (hr : Value g receiver is)
      (hr' : HasType g.table.notes Γ receiver (.array τ)) :
      CallCode g Γ i receiver name arguments p .int (is ++ [⟨.arrayLength, some p⟩])
  | method (hn : name ≠ "length") (hr : Value g receiver is)
      (hr' : HasType g.table.notes Γ receiver τ)
      (ha : Values g arguments js) (ha' : HaveTypes g.table.notes Γ arguments)
      (hs : g.table.referenced? i = some s) (hh : g.environment.methodHandle s = .ok h)
      (hm : g.table.method? s = some m) (hl : m.parameters.length = arguments.length) :
      CallCode g Γ i receiver name arguments p m.returns (is ++ js ++ [⟨.call h, some p⟩])

theorem callCode (h : Value g (.call i receiver name arguments p) is)
    (ht : HasType g.table.notes Γ (.call i receiver name arguments p) τ) :
    CallCode g Γ i receiver name arguments p τ is := by
  cases h with
  | length hr hi hj =>
    cases ht with
    | length hr' _ _ => exact .length rfl hr hr'
    | call hr' =>
      have := hj.symm.trans (typeOf?_eq hr' hi)
      cases this
  | call hr hi hj hτ ha hs hm =>
    cases ht with
    | length hr' _ _ => exact absurd (Option.some.inj (hj.symm.trans (typeOf?_eq hr' hi))) (hτ _)
    | call hr' ha' hn _ hl hc _ =>
      obtain ⟨s', hs', scope, owner, hx⟩ := hc
      obtain rfl := Option.some.inj (hs.symm.trans hs')
      refine .method (m := ⟨_, _, scope, owner⟩) hn hr hr' ha ha' hs hm ?_ hl
      rw [SymbolTable.method?, hx]
      rfl

theorem CallCode.pushes (h : CallCode g Γ i receiver name arguments p τ is)
    (hr : ∀ {is τ}, Value g receiver is → HasType g.table.notes Γ receiver τ →
      ∃ xs, Pushes g 1 is xs)
    (ha : ∀ {is}, Values g arguments is → HaveTypes g.table.notes Γ arguments →
      ∃ xs, Pushes g arguments.length is xs) :
    ∃ xs, Pushes g (if τ = .void then 0 else 1) is xs := by
  cases h with
  | length _ hv hv' =>
    obtain ⟨xs, hx⟩ := hr hv hv'
    exact ⟨_, hx.apply (.plain rfl) rfl nofun⟩
  | method _ hv hv' hvs hvs' _ hh hm hl =>
    obtain ⟨xs, hx⟩ := hr hv hv'
    obtain ⟨ys, hy⟩ := ha hvs hvs'
    have he := HasEffect.call hh hm
    rw [MethodSymbol.effect, hl] at he
    exact ⟨_, (hx.append hy).apply he rfl nofun⟩

-- A call that is needed for its value has one.
theorem CallCode.ne_void (h : CallCode g Γ i receiver name arguments p τ is)
    (hv : g.table.callsVoid i = false) : τ ≠ .void := by
  cases h with
  | length                   => exact nofun
  | method _ _ _ _ _ hs _ hm => simpa [SymbolTable.callsVoid, hs, hm] using hv

theorem effect?_binaryOpcode (op : BinaryOperator) : (binaryOpcode op).effect? = some ⟨2, 1⟩ := by
  cases op <;> rfl

mutual

-- The code of an expression leaves its value.
theorem Value.pushes (h : Value g e is) (ht : HasType g.table.notes Γ e τ)
    (hv : e.valued g.table) : ∃ xs, Pushes g 1 is xs := by
  match e with
  | .call i receiver name arguments p =>
    simp only [Expression.valued, Bool.and_eq_true, Bool.not_eq_true'] at hv
    have hc := callCode h ht
    have hp := hc.pushes (fun hr hr' => Value.pushes hr hr' hv.1.2)
      fun ha ha' => Values.pushes ha ha' hv.2
    rwa [if_neg (hc.ne_void hv.1.1)] at hp
  | .newObject i name p =>
    cases h with | newObject => exact ⟨_, Pushes.nil.apply (.plain rfl) rfl nofun⟩
  | .newArray i name size p =>
    cases h with | newArray _ hs =>
    cases ht with | newArray hs' =>
    obtain ⟨xs, hx⟩ := Value.pushes hs hs' hv
    exact ⟨_, hx.apply (.plain rfl) rfl nofun⟩
  | .not i operand p =>
    cases h with | not he =>
    cases ht with | not he' =>
    obtain ⟨xs, hx⟩ := Value.pushes he he' hv
    have hz : Pushes g 1 [⟨.pushInt 0, some p⟩] _ := Pushes.nil.apply (.plain rfl) rfl nofun
    have hx := (hx.append hz).apply (o := .equal) (p := some p) (.plain rfl) rfl nofun
    rw [List.append_assoc] at hx
    exact ⟨_, hx⟩
  | .binary i op left right p =>
    simp only [Expression.valued, Bool.and_eq_true] at hv
    cases h with | binary hl hr =>
    cases ht with
    | arithmetic hk hr' | logical hk hr' =>
      obtain ⟨xs, hx⟩ := Value.pushes hl hk hv.1
      obtain ⟨ys, hy⟩ := Value.pushes hr hr' hv.2
      exact ⟨_, (hx.append hy).apply (.plain (effect?_binaryOpcode op)) (target?_binaryOpcode op)
        (binaryOpcode_ne_ret op)⟩
  | .boolean .. =>
    cases h with | boolean => exact ⟨_, Pushes.nil.apply (.plain rfl) rfl nofun⟩
  | .integer .. =>
    cases h with | integer => exact ⟨_, Pushes.nil.apply (.plain rfl) rfl nofun⟩
  | .self .. =>
    cases h with | self => exact ⟨_, Pushes.nil.apply (.plain rfl) rfl nofun⟩
  | .index i array subscript p =>
    simp only [Expression.valued, Bool.and_eq_true] at hv
    cases h with | index ha hs =>
    cases ht with | index ha' hs' =>
    obtain ⟨xs, hx⟩ := Value.pushes ha ha' hv.1
    obtain ⟨ys, hy⟩ := Value.pushes hs hs' hv.2
    exact ⟨_, (hx.append hy).apply (.plain rfl) rfl nofun⟩
  | .reference i name p =>
    cases h with
    | field =>
      have hz : Pushes g 1 [⟨.loadArg 0, some p⟩] _ := Pushes.nil.apply (.plain rfl) rfl nofun
      exact ⟨_, hz.apply (.plain rfl) rfl nofun⟩
    | formal | localSlot => exact ⟨_, Pushes.nil.apply (.plain rfl) rfl nofun⟩

theorem Values.pushes (h : Values g es is) (ht : HaveTypes g.table.notes Γ es)
    (hv : Expression.allValued g.table es) : ∃ xs, Pushes g es.length is xs := by
  match es with
  | []      =>
    cases h with | nil => exact ⟨_, .nil⟩
  | e :: es =>
    simp only [Expression.allValued, Bool.and_eq_true] at hv
    cases h with | cons he hes =>
    cases ht with | cons he' hes' =>
    obtain ⟨xs, hx⟩ := Value.pushes he he' hv.1
    obtain ⟨ys, hy⟩ := Values.pushes hes hes' hv.2
    rw [List.length_cons, Nat.add_comm]
    exact ⟨_, hx.append hy⟩

end

-- The store into a target takes what the target has left, and the value.
theorem Address.pushes (h : Address g e is) (hs : Store g e o) (ht : HasType g.table.notes Γ e τ)
    (hv : e.valued g.table) : ∃ k xs, Pushes g k is xs ∧ o.effect? = some ⟨k + 1, 0⟩ := by
  cases h with
  | field ha hd =>
    cases hs with
    | field => exact ⟨1, _, Pushes.nil.apply (.plain rfl) rfl nofun, rfl⟩
    | formal ha' hd' | localSlot ha' hd' =>
      obtain ⟨rfl, rfl⟩ := Prod.mk.inj (Except.ok.inj (ha.symm.trans ha'))
      cases hd.symm.trans hd'
  | slot ha hd =>
    cases hs with
    | field ha' hd' =>
      obtain ⟨rfl, rfl⟩ := Prod.mk.inj (Except.ok.inj (ha.symm.trans ha'))
      exact absurd hd' hd
    | formal | localSlot => exact ⟨0, _, .nil, rfl⟩
  | element ha hb =>
    simp only [Expression.valued, Bool.and_eq_true] at hv
    cases ht with | index ha' hb' =>
    cases hs with | element =>
    obtain ⟨xs, hx⟩ := ha.pushes ha' hv.1
    obtain ⟨ys, hy⟩ := hb.pushes hb' hv.2
    exact ⟨2, _, hx.append hy, rfl⟩

theorem Pushes.ret (h : Pushes g 1 is xs) :
    Neutral g n (is ++ [⟨.ret, some p⟩]) [] (xs ++ [⟨⟨.ret, some p⟩, ⟨0, 0⟩⟩]) :=
  h.use ⟨.plain rfl, Nat.zero_le 1, nofun, fun _ => rfl⟩ rfl

end

section

variable {g : Context}

theorem Neutral.branch : Neutral g n [⟨.branch l, p⟩] [] [⟨⟨.branch l, p⟩, ⟨0, 0⟩⟩] :=
  Pushes.nil.branch rfl nofun

theorem Neutral.ifThen {p : Option Position} (hx : Pushes g 1 is xs)
    (hy : Neutral g (n + is.length + 1) js ts ys) :
    ∃ zs, Neutral g n (is ++ [⟨.branchIfFalse l, p⟩] ++ js ++ [⟨.branch k, p⟩])
      ((n + is.length + js.length + 2) :: ts) zs := by
  have hb := hx.branch (n := n) (o := .branchIfFalse l) (p := p) rfl nofun
  have h := ((hb.append hy (by simp +arith)).append (.branch (l := k) (p := p)) rfl).atEnd
  exact ⟨_, h.subset (by simp +arith)⟩

theorem Neutral.ifThenElse {p : Option Position} (hx : Pushes g 1 is xs)
    (hy : Neutral g (n + is.length + 1) js ts ys)
    (hz : Neutral g (n + is.length + js.length + 2) ks us zs) :
    ∃ zs, Neutral g n (is ++ [⟨.branchIfFalse l, p⟩] ++ js ++ [⟨.branch k, p⟩] ++ ks)
      ((n + is.length + js.length + ks.length + 2) :: (n + is.length + js.length + 2) ::
        (ts ++ us)) zs := by
  obtain ⟨ws, hw⟩ := Neutral.ifThen (l := l) (k := k) (p := p) hx hy
  refine ⟨_, (hw.append hz (by simp +arith)).atEnd.subset ?_⟩
  simp +arith

theorem Neutral.loop {p : Option Position} (hx : Neutral g (n + 1) is ts xs)
    (hy : Pushes g 1 js ys) :
    ∃ zs, Neutral g n ([⟨.branch l, p⟩] ++ is ++ js ++ [⟨.branchIfTrue k, p⟩])
      ((n + is.length + 1) :: (n + 1) :: ts) zs := by
  have hb := hy.branch (n := n + 1 + is.length) (o := .branchIfTrue k) (p := p) rfl nofun
  have h := (Neutral.branch (l := l) (p := p)).append (hx.atStart.append hb.atStart rfl) rfl
  simp only [List.append_assoc] at h ⊢
  refine ⟨_, h.subset ?_⟩
  simp +arith

mutual

-- The code of a statement leaves the stack as empty as it has found it.
theorem Code.neutral {Γ : Typing.Context} : Code g s n l is ts →
    Checks g.table.notes Γ F s F' → s.valued g.table → ∃ xs, Neutral g n is ts xs
  | .declare, _, _ => ⟨_, .nil⟩
  | .print he, .print he', hv => by
    obtain ⟨xs, hx⟩ := he.pushes he' hv
    exact ⟨_, hx.branch rfl nofun⟩
  | .ret he, .ret he', hv => by
    obtain ⟨xs, hx⟩ := he.pushes he' hv
    exact ⟨_, hx.ret⟩
  | .assert he, .assert he', hv => by
    obtain ⟨xs, hx⟩ := he.pushes he' hv
    exact ⟨_, hx.branch rfl nofun⟩
  | .block hss, .block hss', hv => hss.neutral hss' hv
  | .assign ht hval hs, .assign _ ht' hvak, hv => by
    simp only [Statement.valued, Bool.and_eq_true] at hv
    obtain ⟨k, xs, hx, ho⟩ := ht.pushes hs ht' hv.1
    obtain ⟨ys, hy⟩ := hval.pushes hvak hv.2
    exact ⟨_, (hx.append hy).branch ho fun hr => by simp [hr, Opcode.effect?] at ho⟩
  | .ifThen hc ht, .ifThen hc' ht', hv => by
    simp only [Statement.valued, Bool.and_eq_true] at hv
    obtain ⟨xs, hx⟩ := hc.pushes hc' hv.1
    obtain ⟨ys, hy⟩ := ht.neutral ht' hv.2
    exact Neutral.ifThen hx hy
  | .ifThenElse hc ht hf, .ifThenElse hc' ht' hf', hv => by
    simp only [Statement.valued, Bool.and_eq_true] at hv
    obtain ⟨xs, hx⟩ := hc.pushes hc' hv.1.1
    obtain ⟨ys, hy⟩ := ht.neutral ht' hv.1.2
    obtain ⟨zs, hz⟩ := hf.neutral hf' hv.2
    exact Neutral.ifThenElse hx hy hz
  | .loop hb hc, .loop hc' hb', hv => by
    simp only [Statement.valued, Bool.and_eq_true] at hv
    obtain ⟨xs, hx⟩ := hb.neutral hb' hv.2
    obtain ⟨ys, hy⟩ := hc.pushes hc' hv.1
    exact Neutral.loop hx hy
  | .drop hc hi hτ, .call hc', hv => by
    simp only [Statement.valued, Bool.and_eq_true] at hv
    obtain ⟨xs, hx⟩ := (callCode hc hc').pushes (·.pushes · hv.1) (·.pushes · hv.2)
    rw [if_neg (Option.some.inj (hi.symm.trans (typeOf?_eq hc' rfl)) ▸ hτ)] at hx
    exact ⟨_, hx.branch rfl nofun⟩
  | .call hc hi, .call hc', hv => by
    simp only [Statement.valued, Bool.and_eq_true] at hv
    obtain ⟨xs, hx⟩ := (callCode hc hc').pushes (·.pushes · hv.1) (·.pushes · hv.2)
    rw [if_pos (Option.some.inj ((typeOf?_eq hc' rfl).symm.trans hi))] at hx
    exact ⟨_, hx.neutral⟩

theorem CodeAll.neutral {Γ : Typing.Context} : CodeAll g ss n l is ts →
    ChecksAll g.table.notes Γ F ss F' → Statement.allValued g.table ss → ∃ xs, Neutral g n is ts xs
  | .nil, _, _ => ⟨_, .nil⟩
  | .cons hs hss, .cons hs' hss', hv => by
    simp only [Statement.allValued, Bool.and_eq_true] at hv
    obtain ⟨xs, hx⟩ := hs.neutral hs' hv.1
    obtain ⟨ys, hy⟩ := hss.neutral hss' hv.2
    exact ⟨_, hx.append hy rfl⟩

end

end

end MiniJava.Emit
