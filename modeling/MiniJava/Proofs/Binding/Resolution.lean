import MiniJava.Proofs.Binding.Program
import MiniJava.Proofs.Reading.Places
import MiniJava.Proofs.Token.Partition

namespace MiniJava

def Resolve.AnyClass.places : AnyClass → List Position
  | main c    => c.places
  | regular c => c.places

namespace Binding

open Resolve (AnyClass allClasses stages)
open Typing

theorem site_mem (h : use? Γ e = some u) : u.site ∈ (Visit.expression Γ e).sites := by
  cases e with
  | newObject => cases h
  | newArray  => cases h
  | _         =>
    show u.site ∈ (use? Γ _).toList.map Use.site
    simp [h]

-- Of every place there are no more names than in `ps`.
def Within (ss : List Site) (ps : List Position) : Prop :=
  ∀ p, (ss.map (·.position)).count p ≤ ps.count p

namespace Within

theorem nil : Within [] ps :=
  fun _ => Nat.zero_le _

theorem append (h : Within a ps) (h' : Within b qs) : Within (a ++ b) (ps ++ qs) := by
  intro p
  have := h p
  have := h' p
  simp only [List.map_append, List.count_append]
  omega

theorem perm (h : Within a ps) (ha : b.Perm a) (hp : ps.Perm qs) : Within b qs := by
  intro p
  rw [(ha.map _).count_eq, ← hp.count_eq]
  exact h p

theorem of_sublist (h : Within a ps) (hb : b.Sublist a) : Within b ps :=
  fun p => ((hb.map _).count_le p).trans (h p)

theorem flatMap {l : List α} {f : α → List Site} {g : α → List Position}
    (h : ∀ a ∈ l, Within (f a) (g a)) : Within (l.flatMap f) (l.flatMap g) := by
  induction l with
  | nil         => exact nil
  | cons a l hi =>
    obtain ⟨ha, h⟩ := List.forall_mem_cons.mp h
    exact ha.append (hi h)

theorem nodup (h : Within a ps) (hn : ps.Nodup) : (a.map (·.position)).Nodup :=
  List.nodup_iff_count_le_one.mpr fun p => (h p).trans (List.nodup_iff_count_le_one.mp hn p)

end Within

theorem use?_position (h : use? Γ e = some u) : u.position = e.position := by
  cases e with
  | reference                    => exact Option.some.inj h ▸ rfl
  | call i receiver name args pos =>
    obtain ⟨τ, _, hu⟩ := Option.bind_eq_some_iff.mp h
    cases τ with
    | object =>
      rw [called?] at hu
      split at hu
      case isTrue  => cases hu
      case isFalse =>
        obtain ⟨c, _, rfl⟩ := Option.map_eq_some_iff.mp hu
        rfl
    | _      => cases hu
  | _                            => cases h

theorem within_use? (Γ : Context) (e : Expression) :
    Within ((use? Γ e).toList.map Use.site) [e.position] := by
  cases hu : use? Γ e with
  | none   => exact .nil
  | some u =>
    intro p
    simp [Use.site, use?_position hu]

mutual

-- The places come in another order than the parts: the name of a method before its arguments.
theorem within_visits (Γ : Context) :
    ∀ e : Expression, Within ((visits Γ e).flatMap Visit.sites) e.places
  | .call i receiver name arguments p => fun q => by
    have := within_visits Γ receiver q
    have := within_visitsOf Γ arguments q
    have := within_use? Γ (.call i receiver name arguments p) q
    simp only [visits, Expression.parts, Expression.places, Expression.position, Visit.sites,
      List.map_append, List.map_cons, List.map_nil, List.flatMap_append, List.flatMap_cons,
      List.flatMap_nil, List.append_nil, List.count_append] at *
    omega
  | .newArray i name size p           => fun q => by
    have := within_visits Γ size q
    simp only [visits, Expression.parts, Expression.places, Visit.sites, Site.ofType,
      List.map_append, List.map_cons, List.map_nil, List.flatMap_append, List.flatMap_cons,
      List.flatMap_nil, List.append_nil, List.count_append] at *
    omega
  | .not _ operand _                  => by
    simpa [visits, Expression.parts, Expression.places, Visit.sites, use?] using within_visits Γ operand
  | .binary _ _ left right _          => by
    have h := (within_visits Γ left).append (within_visits Γ right)
    simpa [visits, Expression.parts, Expression.places, Visit.sites, use?] using h
  | .index _ array subscript _        => by
    have h := (within_visits Γ array).append (within_visits Γ subscript)
    simpa [visits, Expression.parts, Expression.places, Visit.sites, use?] using h
  | .newObject ..                     => fun _ => Nat.le_refl _
  | .reference ..                     => fun _ => Nat.le_refl _
  | .boolean .. | .integer .. | .self .. | .malformed _ => .nil

theorem within_visitsOf (Γ : Context) :
    ∀ es : List Expression,
      Within (((Expression.partsOf es).map (Visit.expression Γ)).flatMap Visit.sites)
        (Expression.placesOf es)
  | []      => .nil
  | e :: es => by
    have h := (within_visits Γ e).append (within_visitsOf Γ es)
    simpa [visits, Expression.partsOf, Expression.placesOf] using h

end

mutual

theorem within_visitsIn (Γ : Context) (F : Frame) :
    ∀ s : Statement, Within ((visitsIn Γ F s).flatMap Visit.sites) s.places
  | .declare _                         => fun _ => Nat.le_refl _
  | .print _ e _ | .ret _ e _ | .assert _ e _ => within_visits _ e
  | .block _ body _                    => within_visitsAll _ [] body
  | .assign _ target value _           => by
    have h := (within_visits (Γ.push F) target).append (within_visits (Γ.push F) value)
    simpa [visitsIn, Statement.places] using h
  | .ifThen _ e s _ | .loop _ e s _    => by
    have h := (within_visits (Γ.push F) e).append (within_visitsIn Γ F s)
    simpa [visitsIn, Statement.places] using h
  | .ifThenElse _ e s s' _             => by
    have h := ((within_visits (Γ.push F) e).append (within_visitsIn Γ F s)).append
      (within_visitsIn Γ (F ++ s.declares) s')
    simpa [visitsIn, Statement.places] using h
  | .call i receiver name arguments p  => within_visits _ (.call i receiver name arguments p)
  | .malformed _                       => .nil

theorem within_visitsAll (Γ : Context) (F : Frame) :
    ∀ ss : List Statement, Within ((visitsAll Γ F ss).flatMap Visit.sites) (Statement.placesOf ss)
  | []      => .nil
  | s :: ss => by
    have h := (within_visitsIn Γ F s).append (within_visitsAll Γ (F ++ s.declares) ss)
    simpa [visitsAll, Statement.placesOf] using h

end

theorem within_visitsOf_body (Γ : Context) (b : Body) :
    Within ((visitsOf Γ b).flatMap Visit.sites)
      (b.parameters.map (·.position) ++ Statement.placesOf b.statements) := by
  rw [visitsOf, List.flatMap_append]
  refine .append (fun q => ?_) (within_visitsAll Γ b.parameters b.statements)
  rw [List.flatMap_map]
  exact Nat.le_of_eq (congrArg _ (by induction b.parameters <;> simp_all [Visit.sites, Site.ofType]))

variable {p : Program}

theorem within_members (Γ : Body → Context) (ms : List Member) :
    Within (ms.flatMap (memberSites p) ++
      ((ms.filterMap Member.method?).map (·.toBody)).flatMap fun b =>
        (visitsOf (Γ b) b).flatMap Visit.sites) (ms.flatMap Member.places) := by
  induction ms with
  | nil          => exact .nil
  | cons m ms hi =>
    cases m with
    | field d     => exact Within.append (a := [.ofType p d.type.name d.position]) (fun _ => Nat.le_refl _) hi
    | malformed _ => exact hi
    | method m    =>
      intro q
      have hi := hi q
      have hb : _ ≤ (m.parameters.map (·.position) ++ Statement.placesOf m.body).count q :=
        within_visitsOf_body (Γ m.toBody) m.toBody q
      have hm : (Member.method m :: ms).filterMap Member.method? =
        m :: ms.filterMap Member.method? := rfl
      simp only [hm, memberSites, Member.places, Site.ofType, List.flatMap_cons, List.map_append,
        List.map_cons, List.map_nil, List.count_append] at hi hb ⊢
      omega

theorem within_class (c : AnyClass) :
    Within (superclassSites p c ++ classSites p c ++
      (bodies c).flatMap fun b => (visitsOf (context p c b) b).flatMap Visit.sites) c.places := by
  cases c with
  | main c    =>
    have h := within_visitsOf_body (context p (.main c) ⟨[], c.body, true⟩) ⟨[], c.body, true⟩
    simpa [superclassSites, AnyClass.superclass, classSites, bodies, AnyClass.places,
      MainClass.places] using h
  | regular c =>
    have hm := within_members (p := p) (context p (.regular c)) c.members
    have hs : Within (superclassSites p (.regular c)) [c.position] := by
      cases hn : c.superclass <;> intro q <;>
        simp [superclassSites, AnyClass.superclass, hn, AnyClass.position]
    have hb : ((bodies (.regular c)).flatMap fun b =>
        (visitsOf (context p (.regular c) b) b).flatMap Visit.sites).Sublist
        ((c.methods.map (·.toBody)).flatMap fun b =>
          (visitsOf (context p (.regular c) b) b).flatMap Visit.sites) :=
      ((accepted_sublist _ _ _).map _).flatMap _
    rw [List.append_assoc]
    exact (hs.append hm).of_sublist ((List.Sublist.refl _).append ((List.Sublist.refl _).append hb))

theorem within_sites (p : Program) : Within (sites p) p.places := by
  have h : Within ((classes p).flatMap fun c => superclassSites p c ++ classSites p c ++
      (bodies c).flatMap fun b => (visitsOf (context p c b) b).flatMap Visit.sites)
      ((classes p).flatMap AnyClass.places) := .flatMap fun c _ => within_class c
  have hv : (allVisits p).flatMap Visit.sites = (classes p).flatMap fun c =>
      (bodies c).flatMap fun b => (visitsOf (context p c b) b).flatMap Visit.sites := by
    simp only [allVisits, List.flatMap_assoc]
  have hs : (sites p).Perm ((classes p).flatMap fun c => superclassSites p c ++ classSites p c ++
      (bodies c).flatMap fun b => (visitsOf (context p c b) b).flatMap Visit.sites) := by
    rw [sites, outerSites, hv]
    exact ((List.flatMap_append_perm ..).append_right _).trans (List.flatMap_append_perm ..)
  have hp : (allClasses p).flatMap AnyClass.places = p.places := by
    rw [Program.places, allClasses, List.flatMap_append, List.flatMap_map, List.flatMap_map]
    cases p.mainClass <;> rfl
  have hc : ((classes p).flatMap AnyClass.places).Sublist p.places :=
    hp ▸ (accepted_sublist _ _ _).flatMap _
  exact fun q => (h.perm hs (.refl _) q).trans (hc.count_le q)

theorem filter_position {l : List Site} (hn : (l.map (·.position)).Nodup) (hs : s ∈ l) :
    l.filter (·.position = s.position) = [s] := by
  induction l with
  | nil         => cases hs
  | cons a l hi =>
    obtain ⟨ha, hn⟩ := List.nodup_cons.mp hn
    rcases List.mem_cons.mp hs with rfl | hs
    case inl =>
      have hl : l.filter (·.position = s.position) = [] :=
        List.filter_eq_nil_iff.mpr fun b hb he => ha (List.mem_map.mpr ⟨b, hb, of_decide_eq_true he⟩)
      rw [List.filter_cons_of_pos (by simp), hl]
    case inr =>
      have hp : a.position ≠ s.position := fun he => ha (List.mem_map.mpr ⟨s, hs, he.symm⟩)
      rw [List.filter_cons_of_neg (by simpa using hp), hi hn hs]

-- There is a report at the place of a name that is not found, and no other one.
theorem filter_missing {l : List Site} (hn : (l.map (·.position)).Nodup) (hs : s ∈ l) :
    (missing l).filter (·.position = some s.position) = if s.found then [] else [s.report] := by
  have hp (a : Site) : decide (a.report.position = some s.position) =
      decide (a.position = s.position) := by
    simp [Site.report, Diagnostic.semantic]
  rw [missing, List.filter_map, Function.comp_def, funext hp, List.filter_filter]
  simp only [Bool.and_comm]
  rw [← List.filter_filter, filter_position hn hs]
  cases hf : s.found <;> simp [hf]

-- What is found out about an expression: its type, and what its name stands for. If it stands for
-- something the name is bound to that. Otherwise it is reported at its place, where nothing else is.
structure Settled (r : ResolvedProgram) (Γ : Context) (e : Expression) : Prop where
  type    : ∀ i, e.id? = some i → r.table.typeOf? i = typeOf? Γ e
  found   : ∀ u x, use? Γ e = some u → u.target = some x →
    ∃ s, r.table.referenced? u.node = some s ∧ Denotes r.table s x
  missing : ∀ u, use? Γ e = some u →
    (u.target = none ↔ r.table.referenced? u.node = none ∧
      r.diagnostics.filter (fun d => d.isUnresolved && d.position = some u.position) =
        [.semantic (.unresolved u.entity u.name) u.position])

theorem filter_ofProgram (hn : p.nodeIds.Nodup) (hp : p.places.Nodup) (hs : s ∈ sites p) :
    (ResolvedProgram.ofProgram p).diagnostics.filter
        (fun d => d.isUnresolved && d.position = some s.position) =
      if s.found then [] else [s.report] := by
  have hm : (ResolvedProgram.ofProgram p).diagnostics.filter (·.isUnresolved) =
      missing (sites p) := missing_final hn
  have hf := filter_missing ((within_sites p).nodup hp) hs
  rw [← hm, List.filter_filter] at hf
  rw [← hf]
  exact List.filter_congr fun d _ => Bool.and_comm ..

theorem settled_ofProgram (hn : p.nodeIds.Nodup) (hp : p.places.Nodup)
    (hv : .expression Γ e ∈ allVisits p) : Settled (ResolvedProgram.ofProgram p) Γ e := by
  have ht := Resolve.final_stages p
  obtain ⟨htype, hbound⟩ := noted_final hn hv
  rw [ht] at htype hbound
  constructor
  case type    => exact htype
  case found   =>
    intro u x hu hx
    have h := hbound u hu
    rw [hx] at h
    cases hr : (ResolvedProgram.ofProgram p).table.referenced? u.node with
    | none   => rw [hr] at h; cases h
    | some s =>
      rw [hr] at h
      cases h with
      | some hd => exact ⟨s, rfl, hd⟩
  case missing =>
    intro u hu
    have h := hbound u hu
    have hs : u.site ∈ sites p :=
      List.mem_append_right _ (List.mem_flatMap.mpr ⟨_, hv, site_mem hu⟩)
    have hf := filter_ofProgram hn hp hs
    constructor
    case mp  =>
      intro hx
      rw [hx] at h
      have hu : u.site.found = false := congrArg Option.isSome hx
      rw [hu] at hf
      refine ⟨?_, hf⟩
      cases hr : (ResolvedProgram.ofProgram p).table.referenced? u.node with
      | none   => rfl
      | some s => rw [hr] at h; cases h
    case mpr =>
      rintro ⟨hr, -⟩
      rw [hr] at h
      cases hx : u.target with
      | none   => rfl
      | some x => rw [hx] at h; cases h

end Binding

open Binding Typing

theorem ParsedProgram.nodup_places (text : String) :
    (ofStream (.ofText text)).program.places.Nodup := by
  have ht := (Scan.consists_ofText text).pairwise_before
  have hn : ((TokenStream.ofText text).tokens.map (·.position)).Nodup :=
    List.pairwise_map.mpr ((List.pairwise_append.mp ht).1.imp Position.Before.ne)
  exact hn.sublist (places_sublist _)

-- What a name in a body stands for is told by its environment alone, whatever is wrong with the text.
theorem ResolvedProgram.settled_ofText (text : String) :
    let p := (ParsedProgram.ofStream (.ofText text)).program
    ∀ c ∈ classes p, ∀ b ∈ bodies c, ∀ Γ e, .expression Γ e ∈ visitsOf (context p c b) b →
      Settled (ofProgram p) Γ e := by
  intro p c hc b hb Γ e he
  refine settled_ofProgram (ParsedProgram.nodup_nodeIds _) (ParsedProgram.nodup_places text) ?_
  exact List.mem_flatMap.mpr ⟨c, hc, List.mem_flatMap.mpr ⟨b, hb, he⟩⟩

-- `y` stands for nothing.
theorem ResolvedProgram.settled_ofText_unknown :
    let p := (ParsedProgram.ofStream (.ofText "class A{public static void main(){int x;x=y;}}")).program
    ∃ c ∈ classes p, ∃ b ∈ bodies c, ∃ Γ e, .expression Γ e ∈ visitsOf (context p c b) b ∧
      (use? Γ e).any (·.target.isNone) ∧ Settled (ofProgram p) Γ e := by
  intro p
  have h : ((classes p).any fun c => (bodies c).any fun b =>
      (visitsOf (context p c b) b).any fun
        | .expression Γ e => (use? Γ e).any (·.target.isNone)
        | .declaration .. => false) = true := by decide +kernel
  obtain ⟨c, hc, h⟩ := List.any_eq_true.mp h
  obtain ⟨b, hb, h⟩ := List.any_eq_true.mp h
  obtain ⟨v, hv, h⟩ := List.any_eq_true.mp h
  cases v with
  | declaration    => cases h
  | expression Γ e =>
    exact ⟨c, hc, b, hb, Γ, e, hv, h, settled_ofText _ c hc b hb Γ e hv⟩

end MiniJava
