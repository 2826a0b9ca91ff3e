import MiniJava.Proofs.Emit.Statement

namespace MiniJava.Emit

-- The return behind a body.
def trailing (ss : List Statement) : List Instruction :=
  if endsInReturn ss then [] else [⟨.ret, none⟩]

theorem unmarked_extend : (Chunk.empty.extend is ts).unmarked = [] := by
  rw [Chunk.unmarked, Chunk.labelsWhere, List.filterMap_eq_nil_iff]
  rintro ⟨target, number⟩ h
  have ht := List.fst_mem_of_mem_zipIdx h
  simp [Chunk.extend, Chunk.empty] at ht
  obtain ⟨t, _, rfl⟩ := ht
  rfl

theorem body_eq_ok {a : Unit} (hn : (Statement.nodeIdsOf ss).Nodup) :
    body g ss .empty = .ok (a, d) ↔
      ∃ is ts, CodeAll g ss 0 0 is ts ∧ ⟨Chunk.empty.extend (is ++ trailing ss) ts, ∅⟩ = d := by
  have hi {a d} : statements g ss .empty = .ok (a, d) ↔ _ :=
    statements_eq_ok hn (c := .empty) fun _ _ => Std.ExtTreeMap.not_mem_empty
  simp only [body]
  cases he : endsInReturn ss <;> simp [hi, he, trailing, Draft.emit, Chunk.emit_eq_extend] <;> rfl

theorem finish_extend :
    finish ⟨Chunk.empty.extend is ts, ∅⟩ = .ok (Chunk.empty.extend is ts) := by
  simp [finish, unmarked_extend]

theorem chunk_eq_ok (hn : (Statement.nodeIdsOf ss).Nodup) :
    chunk g ss = .ok c ↔
      ∃ is ts, CodeAll g ss 0 0 is ts ∧ Chunk.empty.extend (is ++ trailing ss) ts = c := by
  show (body g ss .empty >>= fun r => finish r.2) = _ ↔ _
  simp only [bind_eq_ok, Prod.exists, body_eq_ok hn]
  constructor
  case mp =>
    rintro ⟨_, _, ⟨is, ts, h, rfl⟩, hc⟩
    exact ⟨is, ts, h, Except.ok.inj (finish_extend.symm.trans hc)⟩
  case mpr =>
    rintro ⟨is, ts, h, rfl⟩
    exact ⟨(), _, ⟨is, ts, h, rfl⟩, finish_extend⟩

end MiniJava.Emit
