import MiniJava.Proofs.Typing.Basic
import MiniJava.Tree.Nodes

namespace MiniJava.Typing

-- What is noted of these nodes stays noted.
structure Notes.Keeps (ids : List NodeId) (N N' : Notes) : Prop where
  type     : ∀ i ∈ ids, ∀ τ, N.type i τ → N'.type i τ
  refersTo : ∀ i ∈ ids, ∀ d, N.refersTo i d → N'.refersTo i d
  calls    : ∀ i ∈ ids, ∀ m, N.calls i m → N'.calls i m

theorem Notes.Keeps.mono (h : Keeps ids N N') (hs : ids' ⊆ ids) : Keeps ids' N N' where
  type i hi     := h.type i (hs hi)
  refersTo i hi := h.refersTo i (hs hi)
  calls i hi    := h.calls i (hs hi)

theorem Notes.keeps_any (ids : List NodeId) (N : Notes) : Keeps ids N .any :=
  ⟨fun _ _ _ _ => trivial, fun _ _ _ _ => trivial, fun _ _ _ _ => trivial⟩

mutual

theorem HasType.keep : HasType N Γ e τ → N.Keeps e.nodeIds N' → HasType N' Γ e τ
  | .length hr ha ht, h =>
    .length (hr.keep (h.mono (by simp [Expression.nodeIds])))
      (ha.keep (h.mono (by simp [Expression.nodeIds])))
      (h.type _ (by simp [Expression.nodeIds]) _ ht)
  | .call hr ha hn hm hl hc ht, h =>
    .call (hr.keep (h.mono (by simp [Expression.nodeIds])))
      (ha.keep (h.mono (by simp [Expression.nodeIds]))) hn hm hl
      (h.calls _ (by simp [Expression.nodeIds]) _ hc)
      (h.type _ (by simp [Expression.nodeIds]) _ ht)
  | .newObject hk ht, h => .newObject hk (h.type _ (by simp [Expression.nodeIds]) _ ht)
  | .newArray hs hk ht, h =>
    .newArray (hs.keep (h.mono (by simp [Expression.nodeIds]))) hk
      (h.type _ (by simp [Expression.nodeIds]) _ ht)
  | .not ho ht, h =>
    .not (ho.keep (h.mono (by simp [Expression.nodeIds])))
      (h.type _ (by simp [Expression.nodeIds]) _ ht)
  | .arithmetic hl hr ho ht, h =>
    .arithmetic (hl.keep (h.mono (by simp [Expression.nodeIds])))
      (hr.keep (h.mono (by simp [Expression.nodeIds]))) ho
      (h.type _ (by simp [Expression.nodeIds]) _ ht)
  | .logical hl hr ho ht, h =>
    .logical (hl.keep (h.mono (by simp [Expression.nodeIds])))
      (hr.keep (h.mono (by simp [Expression.nodeIds]))) ho
      (h.type _ (by simp [Expression.nodeIds]) _ ht)
  | .boolean ht, h => .boolean (h.type _ (by simp [Expression.nodeIds]) _ ht)
  | .integer ht, h => .integer (h.type _ (by simp [Expression.nodeIds]) _ ht)
  | .self hm ht, h => .self hm (h.type _ (by simp [Expression.nodeIds]) _ ht)
  | .index ha hs ht, h =>
    .index (ha.keep (h.mono (by simp [Expression.nodeIds])))
      (hs.keep (h.mono (by simp [Expression.nodeIds])))
      (h.type _ (by simp [Expression.nodeIds]) _ ht)
  | .reference hd hr ht, h =>
    .reference hd (h.refersTo _ (by simp [Expression.nodeIds]) _ hr)
      (h.type _ (by simp [Expression.nodeIds]) _ ht)

theorem HaveTypes.keep : HaveTypes N Γ es → N.Keeps (Expression.nodeIdsOf es) N' → HaveTypes N' Γ es
  | .nil, _ => .nil
  | .cons he hes, h =>
    .cons (he.keep (h.mono (by simp [Expression.nodeIdsOf])))
      (hes.keep (h.mono (by simp [Expression.nodeIdsOf])))

end

mutual

theorem Checks.keep : Checks N Γ F s F' → N.Keeps s.nodeIds N' → Checks N' Γ F s F'
  | .declare hd hk, _ => .declare hd hk
  | .print he, h  => .print (he.keep (h.mono (by simp [Statement.nodeIds])))
  | .ret he, h    => .ret (he.keep (h.mono (by simp [Statement.nodeIds])))
  | .assert he, h => .assert (he.keep (h.mono (by simp [Statement.nodeIds])))
  | .block hb, h  => .block (hb.keep (h.mono (by simp [Statement.nodeIds])))
  | .assign ha ht hv, h =>
    .assign ha (ht.keep (h.mono (by simp [Statement.nodeIds])))
      (hv.keep (h.mono (by simp [Statement.nodeIds])))
  | .ifThen he ht, h =>
    .ifThen (he.keep (h.mono (by simp [Statement.nodeIds])))
      (ht.keep (h.mono (by simp [Statement.nodeIds])))
  | .ifThenElse he ht hf, h =>
    .ifThenElse (he.keep (h.mono (by simp [Statement.nodeIds])))
      (ht.keep (h.mono (by simp [Statement.nodeIds])))
      (hf.keep (h.mono fun _ hi => by simp [Statement.nodeIds, hi]))
  | .loop he hb, h =>
    .loop (he.keep (h.mono (by simp [Statement.nodeIds])))
      (hb.keep (h.mono (by simp [Statement.nodeIds])))
  | .call he, h => .call (he.keep (h.mono (by simp [Statement.nodeIds, Expression.nodeIds])))

theorem ChecksAll.keep :
    ChecksAll N Γ F ss F' → N.Keeps (Statement.nodeIdsOf ss) N' → ChecksAll N' Γ F ss F'
  | .nil, _ => .nil
  | .cons hs hss, h =>
    .cons (hs.keep (h.mono (by simp [Statement.nodeIdsOf])))
      (hss.keep (h.mono (by simp [Statement.nodeIdsOf])))

end

theorem ChecksBody.keep (h : ChecksBody N Γ b) (hk : N.Keeps (Statement.nodeIdsOf b.statements) N') :
    ChecksBody N' Γ b :=
  have ⟨F, hF⟩ := h.statements
  { h with statements := ⟨F, hF.keep hk⟩ }

end MiniJava.Typing
