import MiniJava.Proofs.Grammar.Start

namespace MiniJava.Grammar

-- `P` holds of the tokens between `l` and `r` in front of any others.
def Frames (P : List Token → List Token → Prop) (l r : List Token) : Prop :=
  ∃ m, l = m ++ r ∧ ∀ r', P (m ++ r') r'

namespace Frames

variable {P Q R : List Token → List Token → Prop} {l m r : List Token}

-- A phrase that starts with the tokens `a`.
theorem under (a : List Token) (h : Frames (fun l r => P (a ++ l) r) l r) : Frames P (a ++ l) r := by
  obtain ⟨m, rfl, hm⟩ := h
  exact ⟨a ++ m, by simp, fun r' => by simpa using hm r'⟩

-- The token that a phrase starts with.
theorem head (h : Frames P (t :: l) r) (hn : ¬ P [] []) :
    Frames (fun l r => ∃ m, l = t :: m ∧ P (t :: m) r) (t :: l) r := by
  obtain ⟨_ | ⟨u, m⟩, hl, hm⟩ := h
  case nil  => exact absurd (hm []) hn
  case cons =>
    obtain ⟨rfl, rfl⟩ := List.cons.inj hl
    exact ⟨t :: m, rfl, fun r' => ⟨m ++ r', rfl, hm r'⟩⟩

-- A phrase with the tokens behind it.
theorem close (a : List Token) (h : Frames P l (a ++ r)) : Frames (fun l r => P l (a ++ r)) l r := by
  obtain ⟨m, rfl, hm⟩ := h
  exact ⟨m ++ a, by simp, fun r' => by simpa using hm (a ++ r')⟩

theorem append (h : Frames P l m) (h' : Frames Q m r) (hR : ∀ l m r, P l m → Q m r → R l r) :
    Frames R l r := by
  obtain ⟨a, rfl, ha⟩ := h
  obtain ⟨b, rfl, hb⟩ := h'
  refine ⟨a ++ b, by simp, fun r' => ?_⟩
  simpa using hR _ _ _ (ha (b ++ r')) (hb r')

theorem imp (h : Frames P l r) (hQ : ∀ l r, P l r → Q l r) : Frames Q l r := by
  obtain ⟨m, rfl, hm⟩ := h
  exact ⟨m, rfl, fun r' => hQ _ _ (hm r')⟩

end Frames

mutual

theorem IsTerm.frames : IsTerm l e r → Frames (IsTerm · e ·) l r
  | .self h                   => ⟨[_], rfl, fun _ => .self h⟩
  | .yes h                    => ⟨[_], rfl, fun _ => .yes h⟩
  | .no h                     => ⟨[_], rfl, fun _ => .no h⟩
  | .integer h                => ⟨[_], rfl, fun _ => .integer h⟩
  | .reference h              => ⟨[_], rfl, fun _ => .reference h⟩
  | .newObject ht hu hv hw    => ⟨[_, _, _, _], rfl, fun _ => .newObject ht hu hv hw⟩
  | .parentheses ht h hu      =>
    .under [_] ((h.frames.close [_]).imp fun _ _ h => .parentheses ht h hu)
  | .newArray ht hu hv h hw   =>
    .under [_, _, _] ((h.frames.close [_]).imp fun _ _ h => .newArray ht hu hv h hw)
  | .index ha ht h hu         =>
    (ha.frames.close [_]).append (h.frames.close [_]) fun _ _ _ ha h => .index ha ht h hu
  | .length h ht hu           => (h.frames.close [_, _]).imp fun _ _ h => .length h ht hu
  | .call h ht hu hv ha hw    =>
    (h.frames.close [_, _, _]).append (ha.frames.close [_]) fun _ _ _ h ha => .call h ht hu hv ha hw

theorem IsLevel.frames : IsLevel k l e r → Frames (IsLevel k · e ·) l r
  | .term h             => h.frames.imp fun _ _ => .term
  | .not ht h           => .under [_] (h.frames.imp fun _ _ => .not ht)
  | .tighter h          => h.frames.imp fun _ _ => .tighter
  | .binary hl ht hm h  =>
    (hl.frames.close [_]).append h.frames fun _ _ _ hl h => .binary hl ht hm h

theorem IsArguments.frames : IsArguments l es r → Frames (IsArguments · es ·) l r
  | .none   => ⟨[], rfl, fun _ => .none⟩
  | .some h => h.frames.imp fun _ _ => .some

theorem IsArgumentList.frames : IsArgumentList l es r → Frames (IsArgumentList · es ·) l r
  | .one h        => h.frames.imp fun _ _ => .one
  | .more h ht h' => (h.frames.close [_]).append h'.frames fun _ _ _ h h' => .more h ht h'

end

theorem IsType.frames : IsType l type r → Frames (IsType · type ·) l r
  | .plain h       => ⟨[_], rfl, fun _ => .plain h⟩
  | .array h hu hv => ⟨[_, _, _], rfl, fun _ => .array h hu hv⟩

theorem IsLevel.not_nil : ¬ IsLevel k [] e r :=
  fun h => by simpa using h.start

theorem IsVariable.frames (h : IsVariable storage l d r) :
    Frames (IsVariable storage · d ·) l r := by
  cases h with | intro h hu =>
  refine ((h.frames.close [_]).head fun h => ?start).imp ?frames
  case start => simpa using h.start
  case frames =>
    rintro _ r ⟨m, rfl, h⟩
    exact .intro h hu

theorem IsCondition.frames : IsCondition l e r → Frames (IsCondition · e ·) l r
  | .intro ht h hu => .under [_] ((h.frames.close [_]).imp fun _ _ h => .intro ht h hu)

-- The two statements behind the condition of an `if`.
theorem Frames.branches (h : Frames (IsStatement true · onTrue ·) l (t :: m))
    (ht : t.kind = .keyword .elseWord) (h' : Frames (IsStatement closed · onFalse ·) m r) :
    Frames (fun l r => ∃ m u, IsStatement true l onTrue (u :: m) ∧
      u.kind = .keyword .elseWord ∧ IsStatement closed m onFalse r) l r :=
  (h.close [_]).append h' fun _ _ _ h h' => ⟨_, _, h, ht, h'⟩

mutual

theorem IsStatement.frames : IsStatement closed l st r → Frames (IsStatement closed · st ·) l r
  | .declare h ht              => (h.frames.close [_]).imp fun _ _ h => .declare h ht
  | .print ht hu hv hw hx h hy =>
    .under [_, _, _, _, _] ((h.frames.close [_]).imp fun _ _ h => .print ht hu hv hw hx h hy)
  | .ret ht h hu               => .under [_] ((h.frames.close [_]).imp fun _ _ h => .ret ht h hu)
  | .assert ht h hu            => .under [_] ((h.frames.close [_]).imp fun _ _ h => .assert ht h hu)
  | .block ht h hu             => .under [_] ((h.frames.close [_]).imp fun _ _ h => .block ht h hu)
  | .assign hk h hu h' hv      => by
    refine ((h.frames.close [_]).head IsLevel.not_nil).append (h'.frames.close [_]) ?_
    rintro _ m r ⟨l, rfl, h⟩ h'
    exact .assign hk h hu h' hv
  | .call hk h hu              => by
    refine ((h.frames.close [_]).head IsLevel.not_nil).imp ?_
    rintro _ r ⟨l, rfl, h⟩
    exact .call hk h hu
  | .ifThen ht he h            =>
    .under [_] (he.frames.append h.frames fun _ _ _ he h => .ifThen ht he h)
  | .ifThenElse ht he h hu h'  => by
    refine .under [_] (he.frames.append (h.frames.branches hu h'.frames) ?_)
    rintro _ _ _ he ⟨_, _, h, hu, h'⟩
    exact .ifThenElse ht he h hu h'
  | .loop ht he h              =>
    .under [_] (he.frames.append h.frames fun _ _ _ he h => .loop ht he h)

theorem IsStatements.frames : IsStatements l ss r → Frames (IsStatements · ss ·) l r
  | .nil       => ⟨[], rfl, fun _ => .nil⟩
  | .cons h h' => h.frames.append h'.frames fun _ _ _ => .cons

end

end MiniJava.Grammar
