import MiniJava.Proofs.Emit.Direction

namespace MiniJava

structure Chunk.Sound (c : Chunk) (body : List Statement) : Prop where
  unmarked  : c.unmarked = []
  last?     : c.last? = some .ret
  branches  : ∀ n i l, c.instructions[n]? = some i → i.opcode.target? = some l →
    ∃ t, c.target? l = some t ∧ t < c.instructions.size ∧
      if i.opcode = .branchIfTrue l then t < n else n < t
  -- Only the return that is not in the source has no place there.
  positions : ∀ n i, c.instructions[n]? = some i →
    (i.position = none ↔
      n + 1 = c.instructions.size ∧ ¬∃ i value p, body.getLast? = some (.ret i value p))

namespace Emit

theorem endsInReturn_iff :
    endsInReturn ss = true ↔ ∃ i value p, ss.getLast? = some (.ret i value p) := by
  unfold endsInReturn
  cases ss.getLast? with
  | none   => simp
  | some s => cases s <;> simp [Statement.isReturn]

theorem CodeAll.of_endsInReturn (h : CodeAll g ss n l is ts) (hr : endsInReturn ss = true) :
    (∃ js p, is = js ++ [⟨.ret, some p⟩]) ∧ ∀ t ∈ ts, t < n + is.length := by
  match h with
  | .cons hs .nil =>
    rename_i s _ _
    cases s <;> simp [endsInReturn, Statement.isReturn] at hr
    cases hs with | ret he => simp
  | .cons hs (.cons hs' hss) =>
    rename_i is _ _ _ js _ ks _
    obtain ⟨⟨ls, p, hls⟩, hlt⟩ :=
      (CodeAll.cons hs' hss).of_endsInReturn (by simpa [endsInReturn] using hr)
    refine ⟨⟨is ++ ls, p, by simp [hls]⟩, fun t ht => ?_⟩
    have hlen := congrArg List.length hls
    simp at hlen ⊢
    rcases List.mem_append.mp ht with ht | ht
    case inl =>
      have := (hs.targets_le t ht).2
      omega
    case inr => simpa +arith using hlt t ht

theorem mem_of_target? (h : (Chunk.empty.extend is ts).target? l = some t) : t ∈ ts := by
  simp [Chunk.target?, Chunk.extend, Chunk.empty] at h
  cases hk : ts[l.number]? with
  | none   => simp [hk] at h
  | some u =>
    simp [hk] at h
    exact h ▸ List.mem_of_getElem? hk

-- Either the body ends in a return, or there is one behind it.
theorem CodeAll.ending (h : CodeAll g ss 0 0 is ts) :
    (∃ js p, is = js ++ [⟨.ret, some p⟩] ∧ endsInReturn ss = true ∧ trailing ss = [] ∧
      ∀ t ∈ ts, t < is.length) ∨
    (endsInReturn ss = false ∧ trailing ss = [⟨.ret, none⟩] ∧ ∀ t ∈ ts, t ≤ is.length) := by
  cases he : endsInReturn ss with
  | true  =>
    obtain ⟨⟨js, p, hjs⟩, hlt⟩ := h.of_endsInReturn he
    exact .inl ⟨js, p, hjs, rfl, by simp [trailing, he], by simpa using hlt⟩
  | false =>
    exact .inr ⟨rfl, by simp [trailing, he], fun t ht => by simpa using (h.targets_le t ht).2⟩

theorem getElem?_append_trailing (h : (is ++ trailing ss)[n]? = some i) :
    is[n]? = some i ∨ n = is.length ∧ endsInReturn ss = false ∧ i = ⟨.ret, none⟩ := by
  rw [List.getElem?_append] at h
  split at h
  case isTrue  => exact .inl h
  case isFalse =>
    cases he : endsInReturn ss with
    | true  => simp [trailing, he] at h
    | false =>
      simp [trailing, he, List.getElem?_singleton] at h
      exact .inr ⟨by omega, rfl, h.2.symm⟩

theorem CodeAll.sound (h : CodeAll g ss 0 0 is ts) :
    (Chunk.empty.extend (is ++ trailing ss) ts).Sound ss := by
  have hT : Bound (Chunk.empty.extend (is ++ trailing ss) ts).target? 0 ts := Chunk.bound_extend
  have hp := h.placed hT
  have hsize : (Chunk.empty.extend (is ++ trailing ss) ts).instructions.size =
      (is ++ trailing ss).length := by
    simp
  constructor
  case unmarked => exact unmarked_extend
  case last? =>
    rcases h.ending with ⟨js, p, rfl, -, ht, -⟩ | ⟨-, ht, -⟩ <;> simp [Chunk.last?, ht]
  case branches =>
    intro n i l hi hl
    rw [Chunk.instructions_extend_empty, List.getElem?_toArray] at hi
    have hlt {t} (ht : (Chunk.empty.extend (is ++ trailing ss) ts).target? l = some t) :
        t < (Chunk.empty.extend (is ++ trailing ss) ts).instructions.size := by
      rw [hsize]
      rcases h.ending with ⟨js, p, -, -, htr, hts⟩ | ⟨-, htr, hts⟩
      case inl => simpa [htr] using hts t (mem_of_target? ht)
      case inr => simpa [htr, Nat.lt_succ_iff] using hts t (mem_of_target? ht)
    rcases getElem?_append_trailing hi with hi | ⟨-, -, rfl⟩
    case inl =>
      have ha := (hp.getElem? hi).aims
      rw [Nat.zero_add] at ha
      cases ho : i.opcode <;> simp [ho, Opcode.target?] at hl <;> subst hl
      case branch =>
        obtain ⟨t, ht, hn⟩ := ha.branch ho
        exact ⟨t, ht, hlt ht, by simpa using hn⟩
      case branchIfFalse =>
        obtain ⟨t, ht, hn⟩ := ha.branchIfFalse ho
        exact ⟨t, ht, hlt ht, by simpa using hn⟩
      case branchIfTrue =>
        obtain ⟨t, ht, hn⟩ := ha.branchIfTrue ho
        exact ⟨t, ht, hlt ht, by simpa using hn⟩
    case inr => cases hl
  case positions =>
    intro n i hi
    rw [Chunk.instructions_extend_empty, List.getElem?_toArray] at hi
    rw [hsize, ← endsInReturn_iff]
    rcases getElem?_append_trailing hi with hi | ⟨rfl, he, rfl⟩
    case inl =>
      have hpos := (hp.getElem? hi).position
      have hn := (List.getElem?_eq_some_iff.mp hi).1
      refine iff_of_false (fun hnone => by simp [hnone] at hpos) ?_
      rintro ⟨hlast, he⟩
      simp [trailing, he] at hlast
      omega
    case inr => simp [trailing, he]

end Emit

end MiniJava
