import Nominal.Proofs.Recipe.Describing
import Nominal.Proofs.Store.Reachable
/-!
Describing comes to an end. A type variable leads to its method, the method to its parameters and these to types
in which the variable may stand again, but it is their erasures that are described, and in them no variable is
left. So an element takes a fixed number of levels, and a type as many more as there are types that are not younger.
-/

namespace Nominal

open Store StoreM

namespace Describing

open Describer

variable {s : Store} {own : Recipe} {e : ElementId} {t : TypeId} {fuel : Nat}

theorem at_depth {m : Describing Recipe} {f : Nat → Describing Recipe} {x : Option Recipe}
    (each : FindAlike s m (f (depth s)) x) : FindAlike s m (do f (depth (← get))) x :=
  ⟨each.same, each.finds⟩

theorem element_ends (h : s.Sound) (there : s.HasElement e) (last : Describer) (enough : elementLevels ≤ fuel) :
    FindAlike s (((step own)^[fuel] last).element e) (element own e) (s.recipe own e) := by
  refine .lift (complete_record h there) fun r s' move recorded => ?_
  have bounded : elementLevels ≤ depth s' := by
    simp only [elementLevels, memberLevels, depth]
    omega
  exact at_depth (f := fun n => recordN own n r)
    (record_alike move there recorded (.iterate enough last) (deep_nothing own bounded))

theorem type_ends (h : s.Sound) (known : s.HasType t) (last : Describer)
    (enough : t.index + 1 + elementLevels ≤ fuel) :
    FindAlike s (((step own)^[fuel] last).type t) (type own t) (s.typeRecipe own t) := by
  refine .lift (inspect_ensures h t) fun shape s' move same => ?_
  have older : t.index < s'.types.size := move.moves.grows.has_type known
  have bounded : t.index + 1 + elementLevels ≤ depth s' := by
    simp only [elementLevels, memberLevels, depth]
    omega
  rw [same]
  exact at_depth (f := fun n => shapeN own n (s.shape t))
    (shape_alike move known (.iterate enough last) (deep_nothing own bounded))

end Describing

/-- Describing an element or a type of a store that one comes to ends at a depth known beforehand, with all that it
completes on the way: cut off there, or anywhere below, it does the same whatever is put in the place of the rest. -/
theorem describing_ends {s : Store} (reachable : s.Reachable) (own : Recipe) :
    (∀ e, s.HasElement e → ∀ fuel last, Describing.elementLevels ≤ fuel →
      (((Describer.step own)^[fuel] last).element e).run s = (Describing.element own e).run s) ∧
    ∀ t, s.HasType t → ∀ fuel last, t.index + 1 + Describing.elementLevels ≤ fuel →
      (((Describer.step own)^[fuel] last).type t).run s = (Describing.type own t).run s := by
  have h := reachable.sound
  constructor
  · intro e there fuel last enough
    exact (Describing.element_ends h there last enough).same
  · intro t known fuel last enough
    exact (Describing.type_ends h known last enough).same

section sample

namespace Store

def entwinedProgram : PackageDecl :=
  let node (argument : String) : TypeExpr := .named "Node" [.var argument]
  let pick : ExecutableDecl :=
    { name := "pick", returnType := .void
      typeParameters := [{ name := "A", bounds := [node "B"] }, { name := "B", bounds := [node "A"] }]
      parameters := [("a", .var "A"), ("b", .array (node "A"))] }
  { package := commonPackage
    types :=
      [.mk { kind := .classType, name := "Object" } [],
        .mk { kind := .classType, name := "Node", typeParameters := [{ name := "T", bounds := [node "T"] }]
              members := [.method pick] } []] }

def entwining : Store := (Request.run (.enterDeclarations entwinedProgram) .empty).2

@[irreducible] def entwined : Store := (Request.run (.complete ⟨2⟩) entwining).2

theorem reachable_entwined : entwined.Reachable := by
  have entered : entwining.Reachable := .ask (.enterDeclarations entwinedProgram) .rest ⟨nofun, nofun⟩
  unfold entwined
  refine .ask (.complete ⟨2⟩) entered ⟨?_, nofun⟩
  intro e mem
  cases List.mem_singleton.mp mem
  exact show 2 < entwining.elements.size by decide +kernel

end Store

/-- The variable A of the method stands in the bound of B, in the type of the parameter b and behind its own bound.
Yet A is described within 70 levels, through the method, and an array of `Node<A>` within 93. -/
theorem describing_entwined_ends :
    entwined.shape? ⟨17⟩ = some (.typeVariable ⟨5⟩ ⟨19⟩) ∧
      entwined.shape? ⟨19⟩ = some (.declared .none ⟨2⟩ [⟨18⟩]) ∧
      entwined.shape? ⟨18⟩ = some (.typeVariable ⟨6⟩ ⟨20⟩) ∧
      entwined.shape? ⟨20⟩ = some (.declared .none ⟨2⟩ [⟨17⟩]) ∧
      entwined.parameters ⟨4⟩ = [⟨7⟩, ⟨8⟩] ∧ (entwined.record? ⟨7⟩).map (·.asType) = some ⟨17⟩ ∧
      (entwined.record? ⟨8⟩).map (·.asType) = some ⟨22⟩ ∧ entwined.shape? ⟨22⟩ = some (.array ⟨21⟩) ∧
      entwined.shape? ⟨21⟩ = some (.declared .none ⟨2⟩ [⟨17⟩]) ∧
      (∀ last, ((((Describer.step .runtime)^[70] last).element ⟨5⟩).run entwined).1.isSome) ∧
      ∀ last, ((((Describer.step .runtime)^[93] last).type ⟨22⟩).run entwined).1.isSome := by
  obtain ⟨elements, types⟩ := describing_ends reachable_entwined .runtime
  have there : entwined.HasElement ⟨5⟩ := show 5 < entwined.elements.size by decide +kernel
  have known : entwined.HasType ⟨22⟩ := show 22 < entwined.types.size by decide +kernel
  refine ⟨by decide +kernel, by decide +kernel, by decide +kernel, by decide +kernel, by decide +kernel,
    by decide +kernel, by decide +kernel, by decide +kernel, by decide +kernel, fun last => ?_, fun last => ?_⟩
  · rw [elements ⟨5⟩ there 70 last (by decide)]
    decide +kernel
  · rw [types ⟨22⟩ known 93 last (by decide)]
    decide +kernel

end sample

end Nominal
