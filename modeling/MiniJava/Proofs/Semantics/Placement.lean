import MiniJava.Proofs.Semantics.Expression
import MiniJava.Proofs.Semantics.Simulation

namespace MiniJava

open Typing Machine MiniJava.Computation
open Emit (Value Values Code CodeAll variableAt slotOf Plain)

variable {V W X : Type} {t : SymbolTable} {b : Body}

section

variable {Γ : Typing.Context} {r : Runtime (.sequential t) V W X} {object : V} {c : Chunk}
  {σ : Memory V} {f : Registers V}

theorem yields_of_value (hs : Slotted t b) (hc : Covers b Γ) (h : Value (.sequential t) e is)
    (ht : HasType t.notes Γ e τ) (hv : e.valued t) (hi : Has c n is) :
    Yields r object (Agrees t b object) c e n (n + is.length) is where
  has          := hi
  plain        := h.plain
  length       := rfl
  value _ _ ha := execute_value hs hc ha h ht hv

theorem alike_assign_reference (hs : Slotted t b) (hc : Covers b Γ) (ha : Agrees t b object σ f)
    (hadr : Emit.Address (.sequential t) (.reference i name q) is)
    (hst : Emit.Store (.sequential t) (.reference i name q) o) (hd : Γ.lookup? name = some d)
    (hr : t.notes.refersTo i d)
    (hx : ∀ st, execute r js (f, st) = r.evaluate object σ value >>= fun v => pure (f, v :: st))
    (w : W) :
    Alike (Settled (Agrees t b object)) (r.act object σ (.assign k (.reference i name q) value p) w)
      (execute r (is ++ js ++ [⟨o, some p⟩]) (f, []) w) := by
  cases hst with
  | @field _ s v fh _ _ hv hf hh =>
    have hr := refers hc hd hr hv
    have hact : r.act object σ (.assign k (.reference i name q) value p) = (do
        let v ← r.evaluate object σ value
        perform (r.storeField fh object v)
        pure σ) := by
      simp [Runtime.act, hr.place?_field hf hh, required]
    cases hadr with
    | field =>
      have hexec : execute r ([⟨.loadArg 0, some q⟩] ++ js ++ [⟨.storeField fh, some p⟩]) (f, []) =
          (do
            let v ← r.evaluate object σ value
            perform (r.storeField fh object v)
            pure (f, [])) := by
        simp [operate, hx, ha.object]
      rw [hact, hexec]
      exact .bind (fun v => .bind fun _ => .pure ⟨ha, rfl⟩) w
    | slot hv' hf' =>
      obtain ⟨rfl, rfl⟩ := Prod.mk.inj (Except.ok.inj (hv.symm.trans hv'))
      exact absurd hf hf'
  | @formal _ s v slot _ _ hv hf hk =>
    have hr := refers hc hd hr hv
    have hact : r.act object σ (.assign k (.reference i name q) value p) =
        r.evaluate object σ value >>= fun v => pure (Function.update σ d.id v) := by
      simp [Runtime.act, hr.place?_memory (by simp [hf]), required]
    cases hadr with
    | field hv' hf' =>
      obtain ⟨rfl, rfl⟩ := Prod.mk.inj (Except.ok.inj (hv.symm.trans hv'))
      cases hf.symm.trans hf'
    | slot =>
      have hexec : execute r ([] ++ js ++ [⟨.storeArg slot, some p⟩]) (f, []) =
          r.evaluate object σ value >>= fun v => pure (f.setArgument slot v, []) := by
        simp [operate, hx]
      rw [hact, hexec]
      exact .bind (fun v => .pure ⟨ha.setArgument hs (hr.mem_parameters hs hf) (hr.hasSlot hk) v,
        rfl⟩) w
  | @localSlot _ s v slot _ _ hv hf hk =>
    have hr := refers hc hd hr hv
    have hact : r.act object σ (.assign k (.reference i name q) value p) =
        r.evaluate object σ value >>= fun v => pure (Function.update σ d.id v) := by
      simp [Runtime.act, hr.place?_memory (by simp [hf]), required]
    cases hadr with
    | field hv' hf' =>
      obtain ⟨rfl, rfl⟩ := Prod.mk.inj (Except.ok.inj (hv.symm.trans hv'))
      cases hf.symm.trans hf'
    | slot =>
      have hexec : execute r ([] ++ js ++ [⟨.storeLocal slot, some p⟩]) (f, []) =
          r.evaluate object σ value >>= fun v => pure (f.setLocal slot v, []) := by
        simp [operate, hx]
      rw [hact, hexec]
      exact .bind (fun v => .pure ⟨ha.setLocal hs (hr.mem_locals hs hf) (hr.hasSlot hk) v, rfl⟩) w

theorem alike_assign_index (ha : Agrees t b object σ f)
    (hst : Emit.Store (.sequential t) (.index i array subscript q) o)
    (hx : ∀ st, execute r is (f, st) = r.evaluate object σ array >>= fun v => pure (f, v :: st))
    (hy : ∀ st,
      execute r js (f, st) = r.evaluate object σ subscript >>= fun v => pure (f, v :: st))
    (hz : ∀ st, execute r ks (f, st) = r.evaluate object σ value >>= fun v => pure (f, v :: st))
    (w : W) :
    Alike (Settled (Agrees t b object)) (r.act object σ (.assign k (.index i array subscript q) value p) w)
      (execute r (is ++ js ++ ks ++ [⟨o, some p⟩]) (f, []) w) := by
  cases hst with
  | @element _ kind _ _ _ hk =>
    have hact : r.act object σ (.assign k (.index i array subscript q) value p) = (do
        let x ← r.evaluate object σ array
        let y ← r.evaluate object σ subscript
        let v ← r.evaluate object σ value
        perform (r.storeElement kind x y v)
        pure σ) := by
      simp [Runtime.act, Emit.Context.elementKind?_eq_some.mpr hk, required]
    have hexec : execute r (is ++ js ++ ks ++ [⟨.storeElement kind, some p⟩]) (f, []) = (do
        let x ← r.evaluate object σ array
        let y ← r.evaluate object σ subscript
        let v ← r.evaluate object σ value
        perform (r.storeElement kind x y v)
        pure (f, [])) := by
      simp [operate, hx, hy, hz]
    rw [hact, hexec]
    exact .bind (fun x => .bind fun y => .bind fun v => .bind fun _ => .pure ⟨ha, rfl⟩) w

theorem plain_concat (h : ∀ i ∈ is, Plain i) (ht : o.target? = none) (hr : o ≠ .ret) :
    ∀ i ∈ is ++ [⟨o, some p⟩], Plain i := by
  intro i hi
  rcases List.mem_append.mp hi with hi | hi
  case inl => exact h i hi
  case inr =>
    obtain rfl := List.mem_singleton.mp hi
    exact ⟨ht, hr, rfl⟩

-- The value of an expression and an opcode that uses it up.
theorem acts_of_value (hs : Slotted t b) (hc : Covers b Γ) (h : Value (.sequential t) e is)
    (ht : HasType t.notes Γ e τ) (hv : e.valued t) (hi : Has c n (is ++ [⟨o, some p⟩]))
    (hp : o.target? = none) (hr : o ≠ .ret) {k : V → Computation W X Unit}
    (hact : ∀ σ, r.act object σ s = r.evaluate object σ e >>= fun v => k v >>= fun _ => pure σ)
    (ho : ∀ f v, operate r o (f, [v]) = k v >>= fun _ => pure (f, [])) :
    Acts r object (Agrees t b object) c s n (n + (is ++ [⟨o, some p⟩] : List Instruction).length)
      (is ++ [⟨o, some p⟩]) where
  has    := hi
  plain  := plain_concat h.plain hp hr
  length := rfl
  effect σ f ha w := by
    have hexec : execute r (is ++ [⟨o, some p⟩]) (f, []) =
        r.evaluate object σ e >>= fun v => k v >>= fun _ => pure (f, []) := by
      simp [execute_value hs hc ha h ht hv, ho]
    rw [hact, hexec]
    exact .bind (fun v => .bind fun _ => .pure ⟨ha, rfl⟩) w

theorem Emit.Store.ne_ret (h : Emit.Store g e o) : o ≠ .ret := by
  cases h <;> exact nofun

-- An assignment stands where its code is.
theorem acts_of_assign (hs : Slotted t b) (hc : Covers b Γ)
    (hadr : Emit.Address (.sequential t) target is) (hval : Value (.sequential t) value js)
    (hst : Emit.Store (.sequential t) target o) (ht : HasType t.notes Γ target τ)
    (hval' : HasType t.notes Γ value υ) (hvt : target.valued t) (hv : value.valued t)
    (hi : Has c n (is ++ js ++ [⟨o, some p⟩])) :
    Acts r object (Agrees t b object) c (.assign i target value p) n
      (n + (is ++ js ++ [⟨o, some p⟩] : List Instruction).length)
      (is ++ js ++ [⟨o, some p⟩]) where
  has    := hi
  plain  := plain_concat (List.forall_mem_append.mpr ⟨hadr.plain, hval.plain⟩) hst.target? hst.ne_ret
  length := rfl
  effect σ f ha w := by
    have hz (st) := execute_value (r := r) hs hc ha hval hval' hv st
    cases ht with
    | reference hd hr _ => exact alike_assign_reference hs hc ha hadr hst hd hr hz w
    | index hx' hy' _   =>
      cases hadr with | element hx hy =>
      simp only [Expression.valued, Bool.and_eq_true] at hvt
      exact alike_assign_index ha hst (execute_value hs hc ha hx hx' hvt.1)
        (execute_value hs hc ha hy hy' hvt.2) hz w
    | _ => cases hadr

-- A call that is a statement drops what the method gives, if anything.
theorem execute_call_statement (h : Emit.CallCode (.sequential t) Γ i receiver name arguments p τ is)
    (hr : ∀ {is τ}, Value (.sequential t) receiver is → HasType t.notes Γ receiver τ → ∀ st,
      execute r is (f, st) = r.evaluate object σ receiver >>= fun v => pure (f, v :: st))
    (ha : ∀ {is}, Values (.sequential t) arguments is → HaveTypes t.notes Γ arguments → ∀ st,
      execute r is (f, st) =
        r.evaluateAll object σ arguments >>= fun vs => pure (f, vs.reverse ++ st)) :
    execute r (is ++ if τ = .void then [] else [⟨.pop, some q⟩]) (f, []) = (do
      let x ← r.evaluate object σ receiver
      if name = "length" then
        let _ ← perform (r.arrayLength x)
        pure (f, [])
      else
        let xs ← r.evaluateAll object σ arguments
        let _ ← r.send i x xs
        pure (f, [])) := by
  rw [execute_append, execute_call h hr ha []]
  cases h with
  | length hn => simp [hn, operate]
  | @method _ _ _ _ _ m hn _ _ _ _ hs hh hm _ =>
    have hcallee := Emit.Context.callee?_sequential hh hm
    simp only [hn, if_false, bind_assoc, send_eq (t := t) hs hh]
    congr 1
    funext x
    congr 1
    funext xs
    refine call_bind_congr r hcallee fun v hv => ?_
    by_cases hτ : m.returns = .void
    case pos =>
      obtain rfl : v = none := by simpa [hτ] using hv
      simp [hτ]
    case neg =>
      obtain ⟨v, rfl⟩ := Option.isSome_iff_exists.mp (hv.mpr hτ)
      simp [hτ, operate]

theorem acts_of_call (hs : Slotted t b) (hc : Covers b Γ)
    (h : Value (.sequential t) (.call i receiver name arguments p) is)
    (ht : HasType t.notes Γ (.call i receiver name arguments p) τ) (hv : receiver.valued t)
    (hva : Expression.allValued t arguments)
    (hi : Has c n (is ++ if τ = .void then [] else [⟨.pop, some p⟩])) :
    Acts r object (Agrees t b object) c (.call i receiver name arguments p) n
      (n + (is ++ if τ = .void then [] else [⟨.pop, some p⟩] : List Instruction).length)
      (is ++ if τ = .void then [] else [⟨.pop, some p⟩]) where
  has    := hi
  plain  := by
    split
    case isTrue  => simpa using h.plain
    case isFalse => exact plain_concat h.plain rfl (Opcode.noConfusion ·)
  length := rfl
  effect σ f ha w := by
    have hexec := execute_call_statement (r := r) (q := p) (Emit.callCode h ht)
      (execute_value hs hc ha · · hv) (execute_values hs hc ha · · hva)
    rw [hexec, Runtime.act]
    refine .bind (fun x => ?_) w
    split
    case isTrue  => exact .bind fun _ => .pure ⟨ha, rfl⟩
    case isFalse => exact .bind fun xs => .bind fun _ => .pure ⟨ha, rfl⟩

end

section

variable {r : Runtime (.sequential t) V W X} {object : V} {c : Chunk}

mutual

-- A statement stands where its code is.
theorem stands_of_code {Γ : Typing.Context} (hs : Slotted t b) :
    Code (.sequential t) s n l is ts → Checks t.notes Γ F s F' → s.valued t → Covers b Γ →
      (∀ d ∈ F, d ∈ b.variables) → (∀ d ∈ s.locals, d ∈ b.variables) → Bound c.target? l ts →
      Has c n is → Stands r object (Agrees t b object) c s n (n + is.length)
  | .declare, _, _, _, _, _, _, _ => by
    refine ⟨[], .nil, nofun, rfl, fun σ f ha w => ?_⟩
    exact .pure ⟨ha, rfl⟩ w
  | .print he, .print he', hv, hΓ, hF, _, _, hi =>
    ⟨_, acts_of_value hs (hΓ.push hF) he he' hv hi rfl nofun (fun _ => rfl) fun _ _ => rfl⟩
  | .ret he, .ret he', hv, hΓ, hF, _, _, hi => by
    obtain ⟨hi, hr, _⟩ := Each.append.mp hi
    refine ⟨_, _, yields_of_value hs (hΓ.push hF) he he' hv hi, ⟨_, hr⟩, ?_⟩
    simp [Nat.add_assoc]
  | .assert he, .assert he', hv, hΓ, hF, _, _, hi =>
    ⟨_, acts_of_value hs (hΓ.push hF) he he' hv hi rfl nofun (fun _ => rfl) fun _ _ => rfl⟩
  | .block hb, .block hb', hv, hΓ, hF, hl, hT, hi =>
    standsAll_of_code hs hb hb' hv (hΓ.push hF) nofun hl hT hi
  | .assign ht hval hst, .assign _ ht' hval', hv, hΓ, hF, _, _, hi => by
    simp only [Statement.valued, Bool.and_eq_true] at hv
    exact ⟨_, acts_of_assign hs (hΓ.push hF) ht hval hst ht' hval' hv.1 hv.2 hi⟩
  | .ifThen hc ht, .ifThen hc' ht', hv, hΓ, hF, hl, hT, hi => by
    simp only [Statement.valued, Bool.and_eq_true] at hv
    obtain ⟨hexit, hT⟩ := hT
    simp only [Each.append, Each.cons, Each.nil, List.length_append, List.length_singleton,
      ← Nat.add_assoc, and_true, and_assoc] at hi
    obtain ⟨hi, hb, hj, hb'⟩ := hi
    refine ⟨_, _, _, _, yields_of_value hs (hΓ.push hF) hc hc' hv.1 hi, ⟨_, hb⟩,
      stands_of_code hs ht ht' hv.2 hΓ hF hl hT hj, ⟨_, hb'⟩, ?_⟩
    simpa +arith using hexit
  | .ifThenElse hc ht hf, .ifThenElse hc' ht' hf', hv, hΓ, hF, hl, hT, hi => by
    simp only [Statement.valued, Bool.and_eq_true] at hv
    obtain ⟨hlt, hlf⟩ := List.forall_mem_append.mp hl
    obtain ⟨hexit, hother, hT⟩ := hT
    obtain ⟨hTt, hTf⟩ := Bound.append.mp hT
    simp only [Each.append, Each.cons, Each.nil, List.length_append, List.length_singleton,
      ← Nat.add_assoc, and_true, and_assoc] at hi
    obtain ⟨hi, hb, hj, hb', hk⟩ := hi
    have hF' : ∀ d ∈ _, d ∈ b.variables := fun d hd => (ht'.mem hd).elim (hlt d) (hF d)
    have hsf := stands_of_code hs hf hf' hv.2 hΓ hF' hlf (by simpa +arith using hTf)
      (by simpa +arith using hk)
    refine ⟨_, _, _, _, _, yields_of_value hs (hΓ.push hF) hc hc' hv.1.1 hi, ⟨_, hb⟩, ?otherwise,
      stands_of_code hs ht ht' hv.1.2 hΓ hF hlt hTt hj, ⟨_, hb'⟩, ?exit, ?onFalse⟩
    case otherwise => simpa +arith using hother
    case exit => simpa +arith using hexit
    case onFalse => simpa +arith using hsf
  | .loop hb hc, .loop hc' hb', hv, hΓ, hF, hl, hT, hi => by
    simp only [Statement.valued, Bool.and_eq_true] at hv
    obtain ⟨htest, hagain, hT⟩ := hT
    simp only [Each.append, Each.cons, Each.nil, List.length_append, List.length_singleton,
      ← Nat.add_assoc, and_true, and_assoc] at hi
    obtain ⟨hbr, hi, hj, hbt⟩ := hi
    refine ⟨_, _, _, _, _, ⟨_, hbr⟩, ?test, stands_of_code hs hb hb' hv.2 hΓ hF hl hT hi,
      yields_of_value hs (hΓ.push hF) hc hc' hv.1 hj, ⟨_, hbt⟩, hagain, ?size, ?again⟩
    case test => simpa +arith using htest
    case size => simp +arith
    case again => simp +arith
  | .drop hc hi hτ, .call hc', hv, hΓ, hF, _, _, hi' => by
    simp only [Statement.valued, Bool.and_eq_true] at hv
    rw [← Option.some.inj ((Emit.typeOf?_eq hc' rfl).symm.trans hi)] at hτ
    have h : Acts r object _ c _ n _ _ := acts_of_call hs (hΓ.push hF) hc hc' hv.1 hv.2
      (by rwa [if_neg hτ])
    rw [if_neg hτ] at h
    exact ⟨_, h⟩
  | .call hc hi, .call hc', hv, hΓ, hF, _, _, hi' => by
    simp only [Statement.valued, Bool.and_eq_true] at hv
    have hτ := Option.some.inj ((Emit.typeOf?_eq hc' rfl).symm.trans hi)
    have h : Acts r object _ c _ n _ _ := acts_of_call hs (hΓ.push hF) hc hc' hv.1 hv.2
      (by rwa [if_pos hτ, List.append_nil])
    rw [if_pos hτ, List.append_nil] at h
    exact ⟨_, h⟩

theorem standsAll_of_code {Γ : Typing.Context} (hs : Slotted t b) :
    CodeAll (.sequential t) ss n l is ts → ChecksAll t.notes Γ F ss F' →
      Statement.allValued t ss → Covers b Γ → (∀ d ∈ F, d ∈ b.variables) →
      (∀ d ∈ Statement.localsOf ss, d ∈ b.variables) → Bound c.target? l ts → Has c n is →
      StandsAll r object (Agrees t b object) c ss n (n + is.length)
  | .nil, _, _, _, _, _, _, _ => rfl
  | .cons h hss, .cons h' hss', hv, hΓ, hF, hl, hT, hi => by
    simp only [Statement.allValued, Bool.and_eq_true] at hv
    obtain ⟨hls, hlss⟩ := List.forall_mem_append.mp hl
    obtain ⟨hT, hT'⟩ := Bound.append.mp hT
    obtain ⟨hi, hj⟩ := Each.append.mp hi
    have hF' : ∀ d ∈ _, d ∈ b.variables := fun d hd => (h'.mem hd).elim (hls d) (hF d)
    refine ⟨_, stands_of_code hs h h' hv.1 hΓ hF hls hT hi, ?_⟩
    rw [List.length_append, ← Nat.add_assoc]
    exact standsAll_of_code hs hss hss' hv.2 hΓ hF' hlss hT' hj

end

end

end MiniJava
