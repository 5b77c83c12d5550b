import Mathlib.Logic.Function.Iterate
import Nominal.Proofs.Recipe.Naming
/-!
Describing an element or a type comes to what is read off the store. Whatever is completed or erased on
the way changes none of it, and the depth that describing allows itself is never used up: it does not matter
what would be done beyond it.
-/

namespace Nominal

open Store StoreM

def Finds {α : Type} (s : Store) (m : OptionT StoreM α) (x : Option α) : Prop :=
  Ensures Advances s m.run fun r _ => r = x

namespace Finds

variable {α β : Type} {s : Store}

theorem pure (h : s.Sound) (a : α) : Finds s (Pure.pure a) (some a) :=
  Ensures.pure h.stays rfl

theorem failure (h : s.Sound) : Finds s (failure : OptionT StoreM α) none :=
  Ensures.pure h.stays rfl

theorem mk (h : s.Sound) (x : Option α) : Finds s (OptionT.mk (Pure.pure x)) x :=
  Ensures.pure h.stays rfl

theorem bind {m : OptionT StoreM α} {f : α → OptionT StoreM β} {x : Option α} {g : α → Option β}
    (first : Finds s m x) (next : ∀ a s', s.Advances s' → x = some a → Finds s' (f a) (g a)) :
    Finds s (m >>= f) (x >>= g) := by
  refine Ensures.option_bind first (fun s' _ none_ => ?_) fun a s' move some_ => ?_
  · rw [← none_]
    rfl
  · rw [← some_]
    exact next a s' move some_.symm

theorem lift {m : StoreM α} {f : α → OptionT StoreM β} {P : α → Store → Prop} {y : Option β}
    (first : Ensures Advances s m P)
    (next : ∀ a s', s.Advances s' → P a s' → Finds s' (f a) y) : Finds s (liftM m >>= f) y :=
  Ensures.bind first next

theorem deep {f : Nat → Describing Recipe} {x : Option Recipe}
    (each : ∀ fuel, s.types.size + boundDepth + 8 ≤ fuel → Finds s (f fuel) x) :
    Finds s (do f (Describing.depth (← get))) x :=
  each (Describing.depth s) (Nat.le_refl _)

end Finds

/-- Two searches do the same and find what is said. -/
structure FindAlike {α : Type} (s : Store) (m m' : OptionT StoreM α) (x : Option α) : Prop where
  same : m.run s = m'.run s
  finds : Finds s m x

namespace FindAlike

variable {α β : Type} {s : Store}

theorem pure (h : s.Sound) (a : α) : FindAlike s (Pure.pure a) (Pure.pure a) (some a) := ⟨rfl, .pure h a⟩

theorem failure (h : s.Sound) : FindAlike s (failure : OptionT StoreM α) failure none := ⟨rfl, .failure h⟩

theorem ofOption (h : s.Sound) (x : Option α) : FindAlike s (OptionT.mk (Pure.pure x)) (OptionT.mk (Pure.pure x)) x :=
  ⟨rfl, .mk h x⟩

theorem bind {m m' : OptionT StoreM α} {f f' : α → OptionT StoreM β} {x : Option α} {g : α → Option β}
    (first : FindAlike s m m' x)
    (next : ∀ a s', s.Advances s' → x = some a → FindAlike s' (f a) (f' a) (g a)) :
    FindAlike s (m >>= f) (m' >>= f') (x >>= g) where
  same := by
    obtain ⟨same, move, found⟩ := first
    rw [optionT_bind, optionT_bind, ← same]
    change (m.run s).1 = x at found
    rw [found]
    cases x with
    | none => rfl
    | some a => exact (next a _ move rfl).same
  finds := first.finds.bind fun a s' move some_ => (next a s' move some_).finds

theorem lift {m : StoreM α} {f f' : α → OptionT StoreM β} {P : α → Store → Prop} {y : Option β}
    (first : Ensures Advances s m P)
    (next : ∀ a s', s.Advances s' → P a s' → FindAlike s' (f a) (f' a) y) :
    FindAlike s (liftM m >>= f) (liftM m >>= f') y :=
  ⟨(next _ _ first.1 first.2).same, .lift first fun a s' move holds => (next a s' move holds).finds⟩

theorem mapM {f f' : α → OptionT StoreM β} {g : α → Option β} {as : List α} (h : s.Sound)
    (each : ∀ a ∈ as, ∀ s', s.Advances s' → FindAlike s' (f a) (f' a) (g a)) :
    FindAlike s (as.mapM f) (as.mapM f') (as.mapM g) := by
  induction as generalizing s with
  | nil => exact pure h []
  | cons a as ih =>
    rw [List.mapM_cons, List.mapM_cons, List.mapM_cons]
    refine (each a (by simp) s h.stays).bind fun b s₁ move _ => ?_
    refine (ih move.sound fun a mem s' later =>
      each a (by simp [mem]) s' (Movement.trans move later)).bind fun bs s₂ move₂ _ => ?_
    exact pure move₂.sound (b :: bs)

end FindAlike

/-- What describes the records of elements and the shapes of types. -/
structure Describer where
  record : ElementRecord → Describing Recipe
  shape : TypeShape → Describing Recipe

namespace Describer

def element (d : Describer) (e : ElementId) : Describing Recipe := do d.record (← complete e)

def around (d : Describer) (o? : Option ElementId) : Describing Recipe := do
  let o ← OptionT.mk (pure o?)
  d.element o

def type (d : Describer) (t : TypeId) : Describing Recipe := do d.shape (← inspect t)

def optional (d : Describer) : Option TypeId → Describing Recipe
  | some t => d.type t
  | none => return .null

def parameter (d : Describer) (p : ElementId) : Describing Recipe := do
  let erased ← erase (← complete p).asType
  d.type erased

/-- One level of describing: what is around an element and what is inside a type is left to `inner`. -/
def step (own : Recipe) (inner : Describer) : Describer where
  record r := do
    let name := own.ofName
    match r.kind with
    | .module => return own.within .moduleElement [name r.qualifiedName]
    | .package => return own.within .packageElement [name r.qualifiedName]
    | .classType | .interfaceType | .enumType | .recordType | .annotationType =>
      return own.within .typeElement [name r.qualifiedName]
    | .constructor | .method =>
      let enclosing ← inner.around r.enclosing
      let parameters ← r.parameters.mapM inner.parameter
      return own.within .executableElement
        [enclosing, .elementKind r.kind, name r.simpleName, .ofItems parameters]
    | .field | .enumConstant | .parameter =>
      return own.within .variableElement [← inner.around r.enclosing, name r.simpleName]
    | .typeParameter =>
      return own.within .typeParameterElement [← inner.around r.genericElement?, name r.simpleName]
    | .recordComponent =>
      return own.within .recordComponentElement [← inner.around r.enclosing, name r.simpleName]
    | .localVariable | .exceptionParameter | .resourceVariable | .bindingVariable => failure
  shape s := do
    match s with
    | .primitive p => return own.within .primitiveType [.typeKind p.kind]
    | .noType .none => return own.within .noType [.typeKind .none]
    | .noType .void => return own.within .noType [.typeKind .void]
    | .null => return own.within .nullType []
    | .array c => return own.within .arrayType [← inner.type c]
    | .declared enclosing e args =>
      let enclosing ← inner.optional (if enclosing = .none then none else some enclosing)
      let element ← inner.element e
      let args ← args.mapM inner.type
      return own.within .declaredType [enclosing, element, .ofItems args]
    | .typeVariable e _ => return own.within .typeVariable [← inner.element e]
    | .wildcard upper lower =>
      let upper ← inner.optional upper
      let lower ← inner.optional lower
      return own.within .wildcardType [upper, lower]
    | .noType .package | .noType .module | .error _ | .executable _ | .union _ | .intersection _ => failure

def nothing : Describer := ⟨fun _ => failure, fun _ => failure⟩

theorem step_nothing (own : Recipe) (fuel : Nat) :
    (step own)^[fuel] nothing = ⟨Describing.recordN own fuel, Describing.shapeN own fuel⟩ := by
  induction fuel with
  | zero => rfl
  | succ fuel ih =>
    rw [Function.iterate_succ_apply', ih]
    rfl

def Deep (own : Recipe) (levels : Nat) (d : Describer) : Prop :=
  ∃ fuel last, levels ≤ fuel ∧ d = (step own)^[fuel] last

variable {own : Recipe} {levels levels' fuel : Nat} {d : Describer}

theorem Deep.iterate (enough : levels ≤ fuel) (last : Describer) : Deep own levels ((step own)^[fuel] last) :=
  ⟨fuel, last, enough, rfl⟩

theorem Deep.some (deep : Deep own levels d) (fewer : levels' ≤ levels) : Deep own levels' d :=
  let ⟨fuel, last, enough, same⟩ := deep
  ⟨fuel, last, Nat.le_trans fewer enough, same⟩

theorem Deep.below (deep : Deep own (levels + 1) d) : ∃ d', Deep own levels d' ∧ d = step own d' := by
  obtain ⟨fuel, last, enough, rfl⟩ := deep
  obtain ⟨fuel, rfl⟩ : ∃ n, fuel = n + 1 := ⟨fuel - 1, by omega⟩
  exact ⟨_, .iterate (by omega) last, Function.iterate_succ_apply' ..⟩

end Describer

namespace Describing

open Describer

variable {s s' : Store} {own : Recipe} {e : ElementId} {t : TypeId}

structure Describes (s : Store) (own : Recipe) (levels : Nat) (e : ElementId) (x : Option Recipe) :
    Prop where
  there : s.HasElement e
  finds : ∀ s', s.Advances s' → ∀ r, s'.record? e = some r → ∀ d d', Deep own levels d → Deep own levels d' →
    FindAlike s' (d.record r) (d'.record r) x

namespace Describes

variable {levels : Nat} {x : Option Recipe} {d d' : Describer}

theorem more {levels' : Nat} (h : Describes s own levels e x) (le : levels ≤ levels') :
    Describes s own levels' e x :=
  ⟨h.there, fun s' move r complete _ _ deep deep' => h.finds s' move r complete _ _ (deep.some le) (deep'.some le)⟩

theorem advance (h : Describes s own levels e x) (move : s.Advances s') : Describes s' own levels e x :=
  ⟨move.moves.grows.has_element h.there, fun s'' later => h.finds s'' (Movement.trans move later)⟩

theorem asked (h : Describes s own levels e x) (move : s.Advances s') (deep : Deep own levels d)
    (deep' : Deep own levels d') : FindAlike s' (d.element e) (d'.element e) x :=
  .lift (complete_record move.sound (move.moves.grows.has_element h.there)) fun r s₁ move₁ complete =>
    h.finds s₁ (Movement.trans move move₁) r complete d d' deep deep'

theorem around {o? : Option ElementId} {f : ElementId → Option Recipe} (move : s.Advances s')
    (each : ∀ o ∈ o?, Describes s own levels o (f o)) (deep : Deep own levels d) (deep' : Deep own levels d') :
    FindAlike s' (d.around o?) (d'.around o?) (o?.bind f) :=
  (FindAlike.ofOption move.sound o?).bind fun o _ later some_ =>
    (each o some_).asked (Movement.trans move later) deep deep'

end Describes

theorem optional_finds {d d' : Describer} {f : ElementId → Option Recipe} (h : s'.Sound) (p : Option TypeId)
    (type : ∀ q ∈ p, FindAlike s' (d.type q) (d'.type q) ((s.tree q).recipe own f)) :
    FindAlike s' (d.optional p) (d'.optional p) (TypeTree.optRecipe own f (p.map s.tree)) := by
  cases p with
  | none => exact .pure h _
  | some q => exact type q rfl

theorem shape_finds_within {f : ElementId → Option Recipe} {used varied : ElementId → Prop} {levels : Nat}
    (useds : ∀ e, used e → Describes s own levels e (f e))
    (varieds : ∀ e, varied e → Describes s own levels e (f e)) (n : Nat) (known : s.HasType t)
    (within : (s.tree t).Within used varied n) (move : s.Advances s') {d d' : Describer}
    (deep : Deep own (n + levels) d) (deep' : Deep own (n + levels) d') :
    FindAlike s' (d.shape (s.shape t)) (d'.shape (s.shape t)) ((s.tree t).recipe own f) := by
  induction n generalizing t s' d d' with
  | zero => exact within.elim
  | succ n ih =>
    rw [Nat.succ_add] at deep deep'
    obtain ⟨d, below, rfl⟩ := deep.below
    obtain ⟨d', below', rfl⟩ := deep'.below
    have belowₑ := below.some (Nat.le_add_left levels n)
    have belowₑ' := below'.some (Nat.le_add_left levels n)
    obtain ⟨shape, found⟩ := has_type_iff.mp known
    have h := move.start
    have fits := h.shapes t shape found
    -- Looking at a part may complete its element, but the part keeps its shape.
    have type (p : TypeId) (part : p ∈ shape.parts) (inside : (s.tree p).Within used varied n)
        (s' : Store) (move : s.Advances s') :
        FindAlike s' (d.type p) (d'.type p) ((s.tree p).recipe own f) := by
      have known' := fits.part_known known part
      refine .lift (inspect_ensures move.sound p) fun shape s₁ later same => ?_
      have same' : s'.shape p = s.shape p := move.shape known'
      rw [same, same']
      exact ih known' inside (Movement.trans move later) below below'
    rw [h.tree_of_shape found] at within ⊢
    rw [shape_of_shape? found]
    cases shape with
    | array a =>
      simp only [step]
      exact (type a (by simp [TypeShape.parts]) within s' move).bind fun r s₁ later _ =>
        .pure later.sound _
    | declared enclosing e args =>
      simp only [step]
      simp only [TypeShape.unfold, TypeTree.Within, List.forall_mem_map] at within
      obtain ⟨use, inside, insides⟩ := within
      simp only [TypeShape.unfold, TypeTree.recipe, TypeTree.recipes_eq, h.tree_isNone]
      have outer := optional_finds (s := s) (f := f) move.sound
        (if enclosing = .none then none else some enclosing) fun q mem => by
          by_cases nothing : enclosing = .none
          · simp [nothing] at mem
          · obtain rfl : enclosing = q := by simpa [nothing] using mem
            exact type enclosing (by simp [TypeShape.parts]) inside s' move
      rw [show TypeTree.optRecipe own f ((if enclosing = .none then none else some enclosing).map s.tree) =
        if enclosing = .none then some .null else (s.tree enclosing).recipe own f by split <;> rfl] at outer
      refine outer.bind fun r s₁ move₁ _ => ?_
      have from₁ := Movement.trans move move₁
      refine ((useds e use).asked from₁ belowₑ belowₑ').bind fun r s₂ move₂ _ => ?_
      have from₂ := Movement.trans from₁ move₂
      rw [List.mapM_map]
      refine FindAlike.bind (.mapM from₂.sound fun a mem s₃ move₃ => ?_) fun rs s₃ move₃ _ =>
        .pure move₃.sound _
      exact type a (by simp [TypeShape.parts, mem]) (insides a mem) s₃ (Movement.trans from₂ move₃)
    | typeVariable e upper =>
      simp only [step]
      exact ((varieds e within).asked move belowₑ belowₑ').bind fun r s₁ later _ => .pure later.sound _
    | wildcard upper lower =>
      simp only [step]
      have inside (b : Option TypeId) (all : ∀ a ∈ b.map s.tree, a.Within used varied n) :
          ∀ q ∈ b, (s.tree q).Within used varied n :=
        fun q mem => all (s.tree q) (Option.mem_map_of_mem s.tree mem)
      refine (optional_finds (s := s) move.sound upper fun q mem => type q (by simp_all [TypeShape.parts])
        (inside upper within.1 q mem) s' move).bind fun r s₁ move₁ _ => ?_
      refine (optional_finds (s := s) move₁.sound lower fun q mem => type q (by simp_all [TypeShape.parts])
        (inside lower within.2 q mem) s₁ (Movement.trans move move₁)).bind fun r s₂ move₂ _ => ?_
      exact .pure move₂.sound _
    | noType n =>
      cases n
      · exact .pure move.sound _
      · exact .pure move.sound _
      · exact .failure move.sound
      · exact .failure move.sound
    | primitive _ | null => exact .pure move.sound _
    | error _ | executable _ | union _ | intersection _ => exact .failure move.sound

theorem named_describes {slot : Slot} (found : s.slot? e = some slot) (kind : slot.kind.isQualified) :
    Describes s own 1 e (s.named own e) := by
  refine ⟨has_element_iff.mpr ⟨slot, found⟩, fun s' move r complete d d' deep deep' => ?_⟩
  obtain ⟨d, _, rfl⟩ := deep.below
  obtain ⟨d', _, rfl⟩ := deep'.below
  have fits := move.fits found complete
  rw [named, found, Option.bind_eq_bind, Option.bind_some]
  cases same : slot.kind <;>
    simp [same, ElementKind.isQualified, ElementKind.isType, ElementKind.isClass,
      ElementKind.isInterface] at kind <;>
    simp only [step, fits.kind, fits.qualifiedName, same] <;> exact .pure move.sound _

def memberLevels : Nat := boundDepth + 4

theorem type_describes (type : s.IsType e) : Describes s own 1 e (s.named own e) := by
  obtain ⟨k, kind, isType⟩ := type
  obtain ⟨slot, found, rfl⟩ := kind?_eq_some_iff.mp kind
  exact named_describes found (by simp [ElementKind.isQualified, isType])

theorem parameter_finds (h : s.Sound) (kind : s.kind? e = some .parameter) (move : s.Advances s')
    {d d' : Describer} (deep : Deep own (boundDepth + 3) d) (deep' : Deep own (boundDepth + 3) d') :
    FindAlike s' (d.parameter e) (d'.parameter e) ((s.erased (s.valueType e)).recipe own (s.named own)) := by
  have erased : FindAlike s' (liftM (do erase (← complete e).asType) >>= d.type)
      (liftM (do erase (← complete e).asType) >>= d'.type) ((s.erased (s.valueType e)).recipe own (s.named own)) := by
    refine .lift (erasedType_ensures h kind move) fun t s₁ move₁ ⟨known, tree⟩ => ?_
    refine .lift (inspect_ensures move₁.sound t) fun shape s₂ move₂ same => ?_
    rw [same, ← tree]
    refine shape_finds_within (fun e type => (type_describes type).advance (Movement.trans move move₁))
      (fun _ => False.elim) (boundDepth + 2) known ?_ move₂ deep deep'
    rw [tree]
    exact h.value_within kind
  exact erased

section member

variable {slot : Slot} {r : ElementRecord} {d d' : Describer}

theorem owner_describes (h : s.Sound) (found : s.slot? e = some slot) (isMember : slot.kind.isMember) :
    ∀ o ∈ slot.enclosing, Describes s own 1 o (s.named own o) := by
  intro o enclosing
  obtain ⟨o', k, enclosing', _, kind, admits⟩ := (h.slots e slot found).placed
    (ElementKind.isOwned_not_container (by simp [ElementKind.isOwned, isMember]))
  cases enclosing.symm.trans enclosing'
  exact type_describes ⟨k, kind, ElementKind.isType_of_admits admits isMember⟩

theorem executable_finds (h : s.Sound) (found : s.slot? e = some slot)
    (kind : slot.kind.isExecutable) (move : s.Advances s') (recorded : s'.record? e = some r)
    (deep : Deep own (boundDepth + 3) d) (deep' : Deep own (boundDepth + 3) d') :
    FindAlike s' ((step own d).record r) ((step own d').record r) (s.memberRecipe own e) := by
  have fits := move.fits found recorded
  have kind' : s.kind? e = some slot.kind := kind?_eq_some_iff.mpr ⟨slot, found, rfl⟩
  have isMember : slot.kind.isMember := ElementKind.isMember_of_executable kind
  have isOwned : slot.kind.isOwned := by simp [ElementKind.isOwned, isMember]
  have parameters : r.parameters = s.parameters e :=
    fits.parameters.trans (move.ownedOf kind' isOwned _)
  have unfolded (d : Describer) : (step own d).record r = (do
      let enclosing ← d.around r.enclosing
      let parameters ← r.parameters.mapM d.parameter
      return own.within .executableElement
        [enclosing, .elementKind r.kind, own.ofName r.simpleName, .ofItems parameters]) := by
    rw [← fits.kind] at kind
    simp only [step]
    cases same : r.kind <;> rw [same] at kind <;> first | rfl | cases kind
  rw [memberRecipe_executable found kind, unfolded, unfolded, parameters, fits.enclosing, fits.kind, fits.simpleName,
    TypeTree.recipes_eq, signature, List.mapM_map]
  refine (Describes.around move (owner_describes h found isMember) (deep.some (Nat.le_add_left 1 _))
    (deep'.some (Nat.le_add_left 1 _))).bind fun owner s₁ move₁ _ => ?_
  have from₁ := Movement.trans move move₁
  refine FindAlike.bind (.mapM move₁.sound fun p mem s₂ move₂ => ?_) fun _ s₂ move₂ _ => .pure move₂.sound _
  obtain ⟨slotₚ, foundₚ, _, _, kindₚ⟩ := mem_ownedOf.mp mem
  exact parameter_finds h (kind?_eq_some_iff.mpr ⟨slotₚ, foundₚ, by simpa using kindₚ⟩)
    (Movement.trans from₁ move₂) deep deep'

theorem member_describes (h : s.Sound) (found : s.slot? e = some slot)
    (kind : slot.kind ≠ .parameter ∧ slot.kind ≠ .typeParameter) :
    Describes s own memberLevels e (s.memberRecipe own e) := by
  refine ⟨has_element_iff.mpr ⟨slot, found⟩, fun s' move r recorded d d' deep deep' => ?_⟩
  obtain ⟨d, below, rfl⟩ := deep.below
  obtain ⟨d', below', rfl⟩ := deep'.below
  have fits := move.fits found recorded
  have owner (isMember : slot.kind.isMember) :
      FindAlike s' (d.around r.enclosing) (d'.around r.enclosing) (r.enclosing.bind (s.named own)) :=
    Describes.around move (fits.enclosing ▸ owner_describes h found isMember) (below.some (Nat.le_add_left 1 _))
      (below'.some (Nat.le_add_left 1 _))
  rcases slot.kind.roles with qualified | executable | variable_ | component | isLocal | no | no
  · rw [memberRecipe_qualified found qualified]
    exact (named_describes found qualified).finds s' move r recorded _ _ (deep.some (Nat.le_add_left ..))
      (deep'.some (Nat.le_add_left ..))
  · exact executable_finds h found executable move recorded below below'
  · rw [memberRecipe_variable found variable_, ← fits.enclosing, ← fits.simpleName]
    rcases variable_ with same | same <;>
      simp only [step, fits.kind, same] <;>
      exact (owner (by rw [same]; rfl)).bind fun _ s₁ move₁ _ => .pure move₁.sound _
  · rw [memberRecipe_component found component, ← fits.enclosing, ← fits.simpleName]
    simp only [step, fits.kind, component]
    exact (owner (by rw [component]; rfl)).bind fun _ s₁ move₁ _ => .pure move₁.sound _
  · rw [memberRecipe_local found isLocal]
    simp only [step, fits.kind]
    cases same : slot.kind <;> rw [same] at isLocal <;> first | exact .failure move.sound | cases isLocal
  · exact absurd no kind.1
  · exact absurd no kind.2

end member

/-- The levels that it takes to describe a parameter or type parameter of a member. -/
def elementLevels : Nat := memberLevels + 1

theorem describes (h : s.Sound) (there : s.HasElement e) :
    Describes s own elementLevels e (s.recipe own e) := by
  obtain ⟨slot, found⟩ := has_element_iff.mp there
  by_cases kind : slot.kind ≠ .parameter ∧ slot.kind ≠ .typeParameter
  · rw [recipe_member found kind]
    exact (member_describes h found kind).more (by simp [elementLevels])
  refine ⟨there, fun s' move r recorded d d' deep deep' => ?_⟩
  obtain ⟨d, below, rfl⟩ := deep.below
  obtain ⟨d', below', rfl⟩ := deep'.below
  have fits := move.fits found recorded
  rw [← not_or, not_not] at kind
  have owner : ∀ o ∈ slot.enclosing, Describes s own memberLevels o (s.memberRecipe own o) := by
    intro o enclosing
    obtain ⟨o', k, enclosing', _, kind', admits⟩ := (h.slots e slot found).placed
      (by rcases kind with kind | kind <;> rw [kind] <;> decide)
    cases enclosing.symm.trans enclosing'
    obtain ⟨slotₒ, foundₒ, rfl⟩ := kind?_eq_some_iff.mp kind'
    refine member_describes h foundₒ ⟨?_, ?_⟩ <;> intro same <;> rw [same] at admits <;>
      rcases kind with kind | kind <;> rw [kind] at admits <;> cases admits
  rcases kind with kind | kind
  · rw [recipe_parameter found kind, ← fits.enclosing, ← fits.simpleName]
    simp only [step, fits.kind, kind]
    exact (Describes.around move (fits.enclosing ▸ owner) below below').bind fun _ s₁ move₁ _ => .pure move₁.sound _
  · rw [recipe_typeParameter found kind, ← (fits.bound kind).1, ← fits.simpleName]
    simp only [step, fits.kind, kind]
    exact (Describes.around move ((fits.bound kind).1 ▸ owner) below below').bind fun _ s₁ move₁ _ =>
      .pure move₁.sound _

theorem record_alike (move : s.Advances s') (there : s.HasElement e) {r : ElementRecord}
    (recorded : s'.record? e = some r) {d d' : Describer} (deep : Deep own elementLevels d)
    (deep' : Deep own elementLevels d') : FindAlike s' (d.record r) (d'.record r) (s.recipe own e) :=
  (describes move.start there).finds s' move r recorded d d' deep deep'

theorem shape_alike (move : s.Advances s') (known : s.HasType t) {d d' : Describer}
    (deep : Deep own (t.index + 1 + elementLevels) d) (deep' : Deep own (t.index + 1 + elementLevels) d') :
    FindAlike s' (d.shape (s.shape t)) (d'.shape (s.shape t)) (s.typeRecipe own t) := by
  have h := move.start
  refine shape_finds_within (fun e type => describes h type.there) (fun e kind => describes h ?_) (t.index + 1)
    known (h.tree_within known (Nat.lt_succ_self _)) move deep deep'
  obtain ⟨slot, found, _⟩ := kind?_eq_some_iff.mp kind
  exact has_element_iff.mpr ⟨slot, found⟩

theorem deep_nothing (own : Recipe) {levels fuel : Nat} (enough : levels ≤ fuel) :
    Deep own levels ⟨recordN own fuel, shapeN own fuel⟩ :=
  step_nothing own fuel ▸ .iterate enough nothing

theorem record_finds (move : s.Advances s') (there : s.HasElement e) {r : ElementRecord}
    (recorded : s'.record? e = some r) : Finds s' (record own r) (s.recipe own e) := by
  refine Finds.deep (f := fun fuel => recordN own fuel r) fun fuel enough => ?_
  have deep : Deep own elementLevels ⟨recordN own fuel, shapeN own fuel⟩ :=
    deep_nothing own (by simp only [elementLevels, memberLevels]; omega)
  exact (record_alike move there recorded deep deep).finds

/-- An element is described by what is read off the store, now and later. -/
theorem element_finds (move : s.Advances s') (there : s.HasElement e) :
    Finds s' (element own e) (s.recipe own e) :=
  .lift (complete_record move.sound (move.moves.grows.has_element there)) fun _ _ move₁ recorded =>
    record_finds (Movement.trans move move₁) there recorded

theorem shape_finds (move : s.Advances s') (known : s.HasType t) :
    Finds s' (shape own (s.shape t)) (s.typeRecipe own t) := by
  refine Finds.deep (f := fun fuel => shapeN own fuel (s.shape t)) fun fuel enough => ?_
  have older : t.index < s'.types.size := move.moves.grows.has_type known
  have deep : Deep own (t.index + 1 + elementLevels) ⟨recordN own fuel, shapeN own fuel⟩ :=
    deep_nothing own (by simp only [elementLevels, memberLevels]; omega)
  exact (shape_alike move known deep deep).finds

theorem type_finds (move : s.Advances s') (known : s.HasType t) :
    Finds s' (type own t) (s.typeRecipe own t) := by
  refine .lift (inspect_ensures move.sound t) fun shape s₁ move₁ same => ?_
  rw [same, move.shape known]
  exact shape_finds (Movement.trans move move₁) known

end Describing

namespace Store

open Describing

variable {s s' : Store} {own : Recipe} {e : ElementId} {t : TypeId}

theorem Advances.recipe (move : s.Advances s') (there : s.HasElement e) :
    s'.recipe own e = s.recipe own e :=
  (element_finds move.sound.stays (move.moves.grows.has_element there)).2.symm.trans
    (element_finds move there).2

theorem Advances.typeRecipe (move : s.Advances s') (known : s.HasType t) :
    s'.typeRecipe own t = s.typeRecipe own t :=
  (type_finds move.sound.stays (move.moves.grows.has_type known)).2.symm.trans (type_finds move known).2

end Store

end Nominal
