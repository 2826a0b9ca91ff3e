import Mathlib.Data.List.Basic

namespace MiniJava

namespace Line

def natOf (digits : List Char) : Nat :=
  Nat.ofDigitChars 10 digits 0

def intOf : List Char → Int
  | '-' :: digits => -natOf digits
  | digits        => natOf digits

theorem natOf_toString (n : Nat) : natOf (toString n).toList = n := by
  have hs : (toString n).toList = Nat.toDigits 10 n := Nat.toList_repr
  rw [hs]
  exact Nat.ofDigitChars_ten_toDigits

theorem isDigit_of_mem_toString {n : Nat} {c : Char} (h : c ∈ (toString n).toList) :
    c.isDigit = true := by
  have hs : (toString n).toList = Nat.toDigits 10 n := Nat.toList_repr
  exact Nat.isDigit_of_mem_toDigits (by decide) (by decide) (hs ▸ h)

theorem intOf_toString (i : Int) : intOf (toString i).toList = i := by
  cases i with
  | ofNat n   =>
    show intOf (toString n).toList = n
    have hd : ∀ digits, (toString n).toList ≠ '-' :: digits := fun _ he =>
      absurd (isDigit_of_mem_toString (he ▸ List.mem_cons_self)) (by decide)
    rw [intOf]
    · rw [natOf_toString]
    · exact hd
  | negSucc n =>
    have hs : (toString (Int.negSucc n)).toList = '-' :: (toString (n + 1)).toList :=
      String.toList_append
    rw [hs, intOf, natOf_toString]
    rfl

theorem newline_notMem_toDigits (n : Nat) : '\n' ∉ Nat.toDigits 10 n := fun h =>
  absurd (Nat.isDigit_of_mem_toDigits (by decide) (by decide) h) (by decide)

theorem newline_notMem_repr (i : Int) : '\n' ∉ i.repr.toList := by
  cases i with
  | ofNat n   =>
    show '\n' ∉ n.repr.toList
    rw [Nat.toList_repr]
    exact newline_notMem_toDigits n
  | negSucc n =>
    show '\n' ∉ ("-" ++ (n + 1).repr).toList
    simp [newline_notMem_toDigits]

-- The first element without a property parts a list.
theorem append_cons_inj {P : α → Prop} {k l m n : List α} {a b : α} (hk : ∀ x ∈ k, P x)
    (hl : ∀ x ∈ l, P x) (ha : ¬P a) (hb : ¬P b) (h : k ++ a :: m = l ++ b :: n) :
    k = l ∧ a = b ∧ m = n := by
  induction k generalizing l with
  | nil         =>
    cases l with
    | nil      =>
      obtain ⟨rfl, rfl⟩ := List.cons.inj h
      exact ⟨rfl, rfl, rfl⟩
    | cons y l =>
      obtain ⟨rfl, _⟩ := List.cons.inj h
      exact absurd (hl _ List.mem_cons_self) ha
  | cons x k hi =>
    cases l with
    | nil      =>
      obtain ⟨rfl, _⟩ := List.cons.inj h
      exact absurd (hk _ List.mem_cons_self) hb
    | cons y l =>
      obtain ⟨rfl, hm⟩ := List.cons.inj h
      obtain ⟨rfl, rfl, rfl⟩ := hi (fun x hx => hk x (List.mem_cons_of_mem _ hx))
        (fun x hx => hl x (List.mem_cons_of_mem _ hx)) hm
      exact ⟨rfl, rfl, rfl⟩

-- Lists without the property, each closed by elements that have it.
theorem flatMap_append_inj {P : α → Prop} {bs cs : List (List α × α)} {k l : List α}
    (hbs : ∀ b ∈ bs, (∀ x ∈ b.1, P x) ∧ ¬P b.2) (hcs : ∀ c ∈ cs, (∀ x ∈ c.1, P x) ∧ ¬P c.2)
    (hk : ∀ x ∈ k, P x) (hl : ∀ x ∈ l, P x)
    (h : bs.flatMap (fun b => b.1 ++ [b.2]) ++ k = cs.flatMap (fun c => c.1 ++ [c.2]) ++ l) :
    bs = cs ∧ k = l := by
  have hend {b : List α × α} {r k : List α} (hb : ¬P b.2) (hk : ∀ x ∈ k, P x) :
      k ≠ b.1 ++ [b.2] ++ r := fun he =>
    hb (hk _ (by simp [he]))
  induction bs generalizing cs with
  | nil          =>
    cases cs with
    | nil       => exact ⟨rfl, h⟩
    | cons c cs =>
      rw [List.flatMap_cons, List.append_assoc] at h
      exact absurd h (hend (hcs c List.mem_cons_self).2 hk)
  | cons b bs hi =>
    cases cs with
    | nil       =>
      rw [List.flatMap_cons, List.append_assoc] at h
      exact absurd h.symm (hend (hbs b List.mem_cons_self).2 hl)
    | cons c cs =>
      obtain ⟨hb, hbs⟩ := List.forall_mem_cons.mp hbs
      obtain ⟨hc, hcs⟩ := List.forall_mem_cons.mp hcs
      simp only [List.flatMap_cons, List.append_assoc, List.singleton_append] at h
      obtain ⟨h₁, h₂, h⟩ := append_cons_inj hb.1 hc.1 hb.2 hc.2 h
      obtain ⟨rfl, rfl⟩ := hi hbs hcs h
      exact ⟨congrArg (· :: bs) (Prod.ext h₁ h₂), rfl⟩

theorem toList_join_lines (ls : List String) :
    (String.join (ls.map (· ++ "\n"))).toList =
      (ls.map fun l => (l.toList, '\n')).flatMap fun b => b.1 ++ [b.2] := by
  induction ls with
  | nil          => rfl
  | cons l ls hi => simp [String.toList_append, ← hi]

theorem join_lines_inj {ls ls' : List String} (h : ∀ l ∈ ls, '\n' ∉ l.toList)
    (h' : ∀ l ∈ ls', '\n' ∉ l.toList)
    (he : String.join (ls.map (· ++ "\n")) = String.join (ls'.map (· ++ "\n"))) : ls = ls' := by
  have hp {ls : List String} (h : ∀ l ∈ ls, '\n' ∉ l.toList) :
      ∀ b ∈ ls.map fun l => (l.toList, '\n'), (∀ c ∈ b.1, c ≠ '\n') ∧ ¬b.2 ≠ '\n' := by
    intro b hb
    obtain ⟨l, hl, rfl⟩ := List.mem_map.mp hb
    exact ⟨fun c hc he => h l hl (he ▸ hc), fun hn => hn rfl⟩
  have he := congrArg String.toList he
  rw [toList_join_lines, toList_join_lines] at he
  have hm := (flatMap_append_inj (hp h) (hp h') (k := []) (l := []) nofun nofun (by simpa using he)).1
  have hi : Function.Injective fun l : String => (l.toList, '\n') := fun _ _ he =>
    String.toList_inj.mp (Prod.mk.inj he).1
  exact List.map_injective_iff.mpr hi hm

end Line

end MiniJava
