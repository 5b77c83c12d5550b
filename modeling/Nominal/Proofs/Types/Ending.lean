import Nominal.Proofs.Store.Scoped
import Nominal.Proofs.Store.Single
import Nominal.Proofs.Types.Circling
import Nominal.Proofs.Types.Founded
/-!
The search for a supertype comes to an end wherever chains of bounds do. Inheritance may have circles, and arguments
may grow along them without bound: each element is followed once, and from one new element to the next a search only
follows the bounds of type variables, in a store that stays as it is.
-/

namespace Nominal

open Store StoreM

namespace Store

variable {s : Store} {t u : TypeId} {e : ElementId} {ts : List TypeId}

def Stops (s : Store) (t : TypeId) : Prop := ∀ u, ¬ s.Walk s.types.size t u

theorem Consistent.stops (h : s.Consistent) (known : s.HasType t) (each : ∀ u ∈ s.follow t, s.Stops u) : s.Stops t := by
  refine h.walks_end (n := s.types.size + 1) known fun u walk => ?_
  cases walk with
  | next step rest => exact each _ step u rest

theorem Sound.follow_variable (h : s.Sound) (single : s.Singly) {upper : TypeId}
    (shape : s.shape? t = some (.typeVariable e upper)) : ∃ r, s.record? e = some r ∧ s.follow t = r.bounds := by
  obtain ⟨r, complete, kind, rfl⟩ := h.variable_recorded shape
  obtain ⟨slot, _, fits⟩ := h.fits complete
  obtain ⟨_, _, upper', shape', bounds⟩ := fits.bound (fits.kind ▸ kind)
  cases shape.symm.trans shape'
  refine ⟨r, complete, ?_⟩
  rw [follow, shape_of_shape? shape]
  dsimp only
  rcases bounds with one | several
  · obtain ⟨shape'', found, other, -⟩ := (single.records e r complete).2 upper (by simp [one])
    rw [one, shape_of_shape? found]
    cases shape'' with
    | intersection ts => exact absurd rfl other
    | _ => rfl
  · rw [shape_of_shape? several]

theorem variable_stops (h : s.Sound) (single : s.Singly) (ends : s.ChainsEnd) (e : ElementId) :
    ∀ t, s.IsVariable e t → s.Stops t := by
  induction e using ends.known.induction with
  | _ e ih =>
    rintro t ⟨upper, shape⟩
    obtain ⟨r, complete, follows⟩ := h.follow_variable single shape
    refine h.toConsistent.stops (has_type_iff.mpr ⟨_, shape⟩) fun b mem => ?_
    rw [follows] at mem
    obtain ⟨shape', found, other, -⟩ := (single.records e r complete).2 b mem
    have known : s.HasType b := has_type_iff.mpr ⟨shape', found⟩
    cases shape' with
    | typeVariable e' upper' => exact ih e' ⟨r, complete, b, mem, upper', found⟩ b ⟨upper', found⟩
    | intersection ts => exact absurd rfl other
    | _ => exact h.toConsistent.stops known (by simp [follow, shape_of_shape? found])

theorem type_stops (h : s.Sound) (single : s.Singly) (ends : s.ChainsEnd) (known : s.HasType t) : s.Stops t := by
  obtain ⟨i⟩ := t
  induction i using Nat.strong_induction_on with
  | _ i ih =>
    obtain ⟨shape, found⟩ := has_type_iff.mp known
    cases shape with
    | typeVariable e upper => exact variable_stops h single ends e _ ⟨upper, found⟩
    | intersection ts =>
      have fits := h.shapes _ _ found
      refine h.toConsistent.stops known fun u mem => ?_
      have part : u ∈ ts := by simpa [follow, shape_of_shape? found] using mem
      exact ih u.index (fits.older u part) (fits.part_known known part)
    | _ => exact h.toConsistent.stops known (by simp [follow, shape_of_shape? found])

theorem level_stops (each : ∀ t ∈ ts, s.Stops t) : s.level s.types.size ts = [] := by
  refine List.eq_nil_iff_forall_not_mem.mpr fun u mem => ?_
  obtain ⟨t, there, walk⟩ := mem_level.mp mem
  exact each t there u walk

end Store

namespace StoreM

variable {s s₁ : Store} {target : ElementId} {t : TypeId} {f f₁ : Frontier}

/-- The search comes to an end, with all that it completes and adds on the way: cut off after so many levels, it does
the same whatever is put in the place of the rest. -/
def SearchEnds (s : Store) (target : ElementId) (f : Frontier) (answer : Option TypeId) (s' : Store) : Prop :=
  ∃ levels, ∀ last, ((searchStep target)^[levels] last f).run s = (some answer, s')

theorem SearchEnds.on {answer : Option TypeId} {s' : Store} (more : f.next ≠ [])
    (visits : visitAll target { f with next := [] } f.next s = (.inr f₁, s₁))
    (rest : SearchEnds s₁ target f₁ answer s') : SearchEnds s target f answer s' := by
  obtain ⟨levels, ends⟩ := rest
  refine ⟨levels + 1, fun last => ?_⟩
  rw [Function.iterate_succ_apply', searchStep_on more visits, ends]

theorem search_level (h : s.Sound) (known : f.Known s) (target : ElementId) :
    (∃ answer s', SearchEnds s target f answer s') ∨
      f.next ≠ [] ∧ ∃ f₁ s₁, visitAll target { f with next := [] } f.next s = (.inr f₁, s₁) ∧ s.Advances s₁ ∧
        f₁.Known s₁ ∧ (s₁ = s ∧ f₁ = ⟨f.seen, f.next.flatMap s.follow⟩ ∨ f.seen.length < f₁.seen.length) := by
  by_cases done : f.next = []
  · exact .inl ⟨none, s, 1, fun last => searchStep_end done⟩
  obtain ⟨x, s₁, visits⟩ : ∃ x s₁, visitAll target { f with next := [] } f.next s = (x, s₁) := ⟨_, _, rfl⟩
  cases x with
  | inl u => exact .inl ⟨some u, s₁, 1, fun last => searchStep_found done visits⟩
  | inr f₁ =>
    have begins : Frontier.Known s { f with next := [] } := ⟨nofun, known.seen, known.once⟩
    obtain ⟨move, known₁, _⟩ := (visitAll_ensures h begins known.next).result visits
    have learned := ((visitAll_learned target { f with next := [] } f.next s).result visits).2
    refine .inr ⟨done, f₁, s₁, visits, move, known₁, ?_⟩
    rcases learned with ⟨_, same, unmoved⟩ | ⟨_, longer⟩
    · exact .inl ⟨unmoved, Sum.inr.inj same⟩
    · exact .inr (longer f₁ rfl)

/-- Between two new elements a search takes as many levels as bounds can be followed, and there are only so many type
elements. -/
theorem search_ends (h : s.Sound) (single : s.Singly) (ends : s.ChainsEnd) (known : f.Known s) {n : Nat}
    (left : s.typeElements.length = n + f.seen.length) : ∃ answer s', SearchEnds s target f answer s' := by
  -- The outer induction is on the type elements that were not seen yet, the inner one on the bounds left to follow.
  induction n using Nat.strong_induction_on generalizing s f with
  | _ n fewer =>
    have stops := level_stops fun t mem => type_stops h single ends (known.next t mem)
    generalize s.types.size = k at stops
    induction k generalizing f with
    | zero => exact ⟨none, s, 1, fun last => searchStep_end stops⟩
    | succ k shorter =>
      rcases search_level h known target with ended | ⟨more, f₁, s₁, visits, move, known₁, ⟨rfl, rfl⟩ | longer⟩
      · exact ended
      · obtain ⟨answer, s', rest⟩ := shorter known₁ left stops
        exact ⟨answer, s', rest.on more visits⟩
      · have kept : s.StaysSingle True (visitAll target { f with next := [] } f.next s).2 :=
          keeping_visitAll target { f with next := [] } f.next s
        rw [visits] at kept
        have keeps := kept single
        have few := known₁.few move.sound.toConsistent
        have same : s₁.typeElements = s.typeElements := move.moves.typeElements
        rw [same] at few
        obtain ⟨answer, s', rest⟩ := fewer (s.typeElements.length - f₁.seen.length) (by omega) move.sound keeps.singly
          (keeps.ends trivial ends) known₁ (by rw [same]; omega)
        exact ⟨answer, s', rest.on more visits⟩

end StoreM

/-- In every store that one comes to, unless a chain of bounds comes back to its beginning, the search for a supertype
comes to an end from every type and for every element. -/
theorem supertype_search_ends {s : Store} (reachable : s.Reachable) (acyclic : s.BoundsAcyclic) {t : TypeId}
    (known : s.HasType t) (target : ElementId) :
    ∃ answer s', SearchEnds s target ⟨[], [t]⟩ answer s' ∧ (asSuper? t target).run s = (some answer, s') ∧
      (asSuper t target).run s = (answer, s') := by
  have h := reachable.sound
  have seeks := Frontier.known_from known
  have few : s.typeElements.length = s.typeElements.length + (Frontier.mk [] [t]).seen.length := rfl
  obtain ⟨answer, s', levels, ends⟩ : ∃ answer s', SearchEnds s target ⟨[], [t]⟩ answer s' :=
    search_ends h reachable.singly acyclic.chainsEnd seeks few
  obtain ⟨j, outcome⟩ := asSuper?_outcome h known target
  have found : (asSuper? t target).run s = (some answer, s') := by
    rw [← outcome levels, searching, Function.iterate_add_apply]
    exact ends _
  refine ⟨answer, s', ⟨levels, ends⟩, found, ?_⟩
  change ((asSuper? t target).run s).map Option.join id = _
  rw [found]
  rfl

section sample

def TypeShape.parameter? : TypeShape → Option ElementId
  | .typeVariable e _ => some e
  | _ => none

namespace Store

def shellProgram : PackageDecl :=
  { package := commonPackage
    types :=
      [.mk { kind := .classType, name := "Object" } [],
        .mk { kind := .classType, name := "Ring", typeParameters := [{ name := "T" }]
              superclass := some (.named "lang.Bow" [.named "lang.Ring" [.named "lang.Ring" [.var "T"]]]) } [],
        .mk { kind := .classType, name := "Bow", typeParameters := [{ name := "T" }]
              superclass := some (.named "lang.Ring" [.var "T"]), interfaces := [.named "lang.Mark" []] } [],
        .mk { kind := .interfaceType, name := "Mark" } [],
        .mk { kind := .classType, name := "Shell"
              typeParameters :=
                [{ name := "S", bounds := [.var "T"] }, { name := "T", bounds := [.named "lang.Ring" [.var "S"]] }]
              superclass := some (.var "S") } []] }

@[irreducible] def shellDeclared : Store := (Request.run (.enterDeclarations shellProgram) .empty).2

@[irreducible] def shell : Store := (Request.run (.complete ⟨5⟩) shellDeclared).2

theorem reachable_shell : shell.Reachable := by
  have declared : shellDeclared.Reachable := by
    unfold shellDeclared
    exact .ask (.enterDeclarations shellProgram) .rest ⟨nofun, nofun⟩
  have there : shellDeclared.HasElement ⟨5⟩ := show 5 < shellDeclared.elements.size by decide +kernel
  unfold shell
  exact .ask (.complete ⟨5⟩) declared ⟨by simpa [Request.elements] using there, nofun⟩

theorem boundsAcyclic_of_later {s : Store}
    (later : ∀ i < s.elements.size, ∀ r ∈ s.record? ⟨i⟩, ∀ b ∈ r.bounds, ∀ e ∈ (s.shape b).parameter?, i < e.index)
    (unbounded : ∀ i < s.elements.size, ∀ h ∈ s.header? ⟨i⟩, ∀ ps ∈ h.parameterLists, ∀ p ∈ ps, p.bounds.isEmpty) :
    s.BoundsAcyclic where
  known e circle := by
    have rises (e e' : ElementId) (leans : s.LeansOn e e') : e.index < e'.index := by
      obtain ⟨r, complete, b, mem, upper, shape⟩ := leans
      obtain ⟨slot, found, _⟩ := record?_eq_some_iff.mp complete
      refine later e.index (has_element_iff.mpr ⟨slot, found⟩) r complete b mem e' ?_
      rw [shape_of_shape? shape]
      rfl
    have risen : Relation.TransGen (· < ·) e.index e.index := circle.lift ElementId.index rises
    rw [Relation.transGen_eq_self] at risen
    exact Nat.lt_irrefl _ risen
  declared e slot h found state ps mem p circle := by
    obtain ⟨_, ⟨listed, x, bound, _⟩, _⟩ := Relation.TransGen.head'_iff.mp circle
    have waits : s.header? e = some h := header?_eq_some_iff.mpr ⟨slot, found, state⟩
    have none := unbounded e.index (has_element_iff.mpr ⟨slot, found⟩) h waits ps mem p listed
    rw [List.isEmpty_iff.mp none] at bound
    cases bound

theorem boundsAcyclic_shell : shell.BoundsAcyclic :=
  boundsAcyclic_of_later (by decide +kernel) (by decide +kernel)

end Store

/-- From the shell's usage the search leads through its type parameter and around the ring, which it completes: to the
interface, and to an end where there is nothing to find. -/
theorem shell_search_ends :
    (∃ r, shell.record? ⟨5⟩ = some r ∧ shell.IsVariable ⟨6⟩ r.superclass) ∧ shell.LeansOn ⟨6⟩ ⟨7⟩ ∧
      shell.record? ⟨2⟩ = none ∧
      (∃ s', SearchEnds shell ⟨4⟩ ⟨[], [⟨16⟩]⟩ (some ⟨29⟩) s' ∧ (s'.record? ⟨2⟩).isSome) ∧
      ∃ s', SearchEnds shell ⟨0⟩ ⟨[], [⟨16⟩]⟩ none s' := by
  have known : shell.HasType ⟨16⟩ := show 16 < shell.types.size by decide +kernel
  obtain ⟨answer, s₁, ends, found, -⟩ := supertype_search_ends reachable_shell boundsAcyclic_shell known ⟨4⟩
  obtain ⟨answer', s₂, ends', found', -⟩ := supertype_search_ends reachable_shell boundsAcyclic_shell known ⟨0⟩
  have mark : ((asSuper? ⟨16⟩ ⟨4⟩).run shell).1 = some (some ⟨29⟩) := by decide +kernel
  have nothing : ((asSuper? ⟨16⟩ ⟨0⟩).run shell).1 = some none := by decide +kernel
  have completes : (((asSuper? ⟨16⟩ ⟨4⟩).run shell).2.record? ⟨2⟩).isSome := by decide +kernel
  rw [found] at mark completes
  rw [found'] at nothing
  cases mark
  cases nothing
  have superclass : (shell.record? ⟨5⟩).map (·.superclass) = some ⟨13⟩ := by decide +kernel
  have bounds : (shell.record? ⟨6⟩).map (·.bounds) = some [⟨14⟩] := by decide +kernel
  have first : shell.IsVariable ⟨6⟩ ⟨13⟩ := ⟨⟨14⟩, by decide +kernel⟩
  have second : shell.IsVariable ⟨7⟩ ⟨14⟩ := ⟨⟨15⟩, by decide +kernel⟩
  obtain ⟨r, complete, same⟩ := Option.map_eq_some_iff.mp superclass
  obtain ⟨p, complete', same'⟩ := Option.map_eq_some_iff.mp bounds
  have leans : shell.LeansOn ⟨6⟩ ⟨7⟩ := ⟨p, complete', ⟨14⟩, by simp [same'], second⟩
  exact ⟨⟨r, complete, same ▸ first⟩, leans, by decide +kernel, ⟨s₁, ends, completes⟩, s₂, ends'⟩

end sample

end Nominal
