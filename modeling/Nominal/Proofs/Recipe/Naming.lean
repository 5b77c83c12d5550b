import Nominal.Proofs.Types.Erasing
import Nominal.Recipe.Describe
/-!
Recipes read off a store: what an element or a type is called when nothing has to be completed any more.
Modules, packages and types go by name alone; members by their owner and their erased signature;
parameters and type parameters by the element that declares them. No recipe leads back to itself.
-/

namespace Nominal

namespace TypeTree

variable (own : Recipe) (element : ElementId → Option Recipe)

mutual

def recipe : TypeTree → Option Recipe
  | primitive p => some (own.within .primitiveType [.typeKind p.kind])
  | noType .none => some (own.within .noType [.typeKind .none])
  | noType .void => some (own.within .noType [.typeKind .void])
  | null => some (own.within .nullType [])
  | array a => do
    let a ← a.recipe
    return own.within .arrayType [a]
  | declared enclosing e args => do
    let outer ← (if enclosing.isNone then some Recipe.null else enclosing.recipe)
    let e ← element e
    let args ← recipes args
    return own.within .declaredType [outer, e, .ofItems args]
  | typeVariable e => do
    let e ← element e
    return own.within .typeVariable [e]
  | wildcard upper lower => do
    let upper ← optRecipe upper
    let lower ← optRecipe lower
    return own.within .wildcardType [upper, lower]
  | noType .package | noType .module | error _ | executable .. | union _ | intersection _ => .none

def recipes : List TypeTree → Option (List Recipe)
  | [] => some []
  | t :: ts => do
    let r ← t.recipe
    let rs ← recipes ts
    return r :: rs

def optRecipe : Option TypeTree → Option Recipe
  | .none => some .null
  | some t => t.recipe

end

theorem recipes_eq (ts : List TypeTree) :
    recipes own element ts = ts.mapM (recipe own element) := by
  induction ts with
  | nil => rfl
  | cons t ts ih =>
    rw [recipes, List.mapM_cons, ih]

def Within (used varied : ElementId → Prop) : Nat → TypeTree → Prop
  | 0, _ => False
  | n + 1, array a => a.Within used varied n
  | n + 1, declared enclosing e args =>
    used e ∧ enclosing.Within used varied n ∧ ∀ a ∈ args, a.Within used varied n
  | _ + 1, typeVariable e => varied e
  | n + 1, wildcard upper lower =>
    (∀ b ∈ upper, b.Within used varied n) ∧ ∀ b ∈ lower, b.Within used varied n
  | _ + 1, _ => True

theorem Within.imp {used varied used' varied' : ElementId → Prop} {n : Nat} {t : TypeTree}
    (h : t.Within used varied n) (uses : ∀ e, used e → used' e) (varies : ∀ e, varied e → varied' e) :
    t.Within used' varied' n := by
  induction n generalizing t with
  | zero => exact h
  | succ n ih =>
    cases t with
    | array a => exact ih h
    | declared enclosing e args => exact ⟨uses e h.1, ih h.2.1, fun a mem => ih (h.2.2 a mem)⟩
    | typeVariable e => exact varies e h
    | wildcard upper lower => exact ⟨fun b mem => ih (h.1 b mem), fun b mem => ih (h.2 b mem)⟩
    | _ => trivial

theorem Within.more {used varied : ElementId → Prop} {n m : Nat} {t : TypeTree}
    (h : t.Within used varied n) (le : n ≤ m) : t.Within used varied m := by
  induction n generalizing m t with
  | zero => exact h.elim
  | succ n ih =>
    obtain ⟨m, rfl⟩ : ∃ k, m = k + 1 := ⟨m - 1, by omega⟩
    have deeper {t : TypeTree} (h : t.Within used varied n) := ih h (m := m) (by omega)
    cases t with
    | array a => exact deeper h
    | declared enclosing e args =>
      obtain ⟨use, inside, insides⟩ := h
      exact ⟨use, deeper inside, fun a mem => deeper (insides a mem)⟩
    | wildcard upper lower => exact ⟨fun b mem => deeper (h.1 b mem), fun b mem => deeper (h.2 b mem)⟩
    | typeVariable e => exact h
    | _ => trivial

end TypeTree

namespace Store

variable (s : Store) (own : Recipe)

def named (e : ElementId) : Option Recipe := do
  let slot ← s.slot? e
  let name := own.ofName slot.qualifiedName
  match slot.kind with
  | .module => return own.within .moduleElement [name]
  | .package => return own.within .packageElement [name]
  | .classType | .interfaceType | .enumType | .recordType | .annotationType =>
    return own.within .typeElement [name]
  | _ => none

def valueType (e : ElementId) : TypeTree :=
  match s.record? e with
  | some r => s.tree r.asType
  | none => .none

def parameters (e : ElementId) : List ElementId := s.ownedOf e (· == .parameter)

def signature (e : ElementId) : List TypeTree :=
  (s.parameters e).map fun p => s.erased (s.valueType p)

def memberRecipe (e : ElementId) : Option Recipe := do
  let slot ← s.slot? e
  let name := own.ofName slot.simpleName
  match slot.kind with
  | .constructor | .method => do
    let owner ← slot.enclosing.bind (s.named own)
    let parameters ← TypeTree.recipes own (s.named own) (s.signature e)
    return own.within .executableElement [owner, .elementKind slot.kind, name, .ofItems parameters]
  | .field | .enumConstant => do
    let owner ← slot.enclosing.bind (s.named own)
    return own.within .variableElement [owner, name]
  | .recordComponent => do
    let owner ← slot.enclosing.bind (s.named own)
    return own.within .recordComponentElement [owner, name]
  | _ => s.named own e

def recipe (e : ElementId) : Option Recipe := do
  let slot ← s.slot? e
  let name := own.ofName slot.simpleName
  match slot.kind with
  | .parameter => do
    let owner ← slot.enclosing.bind (s.memberRecipe own)
    return own.within .variableElement [owner, name]
  | .typeParameter => do
    let owner ← slot.enclosing.bind (s.memberRecipe own)
    return own.within .typeParameterElement [owner, name]
  | _ => s.memberRecipe own e

def typeRecipe (t : TypeId) : Option Recipe := (s.tree t).recipe own (s.recipe own)

variable {s}

section recipe

variable {own : Recipe} {e : ElementId} {slot : Slot} (found : s.slot? e = some slot)

include found

theorem memberRecipe_qualified (kind : slot.kind.isQualified) : s.memberRecipe own e = s.named own e := by
  rw [memberRecipe, found, Option.bind_eq_bind, Option.bind_some]
  cases same : slot.kind <;> rw [same] at kind <;> first | rfl | cases kind

theorem memberRecipe_executable (kind : slot.kind.isExecutable) : s.memberRecipe own e = (do
    let owner ← slot.enclosing.bind (s.named own)
    let parameters ← TypeTree.recipes own (s.named own) (s.signature e)
    return own.within .executableElement
      [owner, .elementKind slot.kind, own.ofName slot.simpleName, .ofItems parameters]) := by
  rw [memberRecipe, found, Option.bind_eq_bind, Option.bind_some]
  cases same : slot.kind <;> rw [same] at kind <;> first | rfl | cases kind

theorem memberRecipe_variable (kind : slot.kind = .field ∨ slot.kind = .enumConstant) :
    s.memberRecipe own e = (do
      let owner ← slot.enclosing.bind (s.named own)
      return own.within .variableElement [owner, own.ofName slot.simpleName]) := by
  rw [memberRecipe, found, Option.bind_eq_bind, Option.bind_some]
  rcases kind with kind | kind <;> simp only [kind]

theorem memberRecipe_component (kind : slot.kind = .recordComponent) :
    s.memberRecipe own e = (do
      let owner ← slot.enclosing.bind (s.named own)
      return own.within .recordComponentElement [owner, own.ofName slot.simpleName]) := by
  rw [memberRecipe, found, Option.bind_eq_bind, Option.bind_some]
  simp only [kind]

theorem memberRecipe_local (kind : slot.kind.isLocal) : s.memberRecipe own e = none := by
  have nameless : s.named own e = none := by
    rw [named, found, Option.bind_eq_bind, Option.bind_some]
    cases same : slot.kind <;> rw [same] at kind <;> first | rfl | cases kind
  rw [memberRecipe, found, Option.bind_eq_bind, Option.bind_some, nameless]
  cases same : slot.kind <;> rw [same] at kind <;> first | rfl | cases kind

theorem recipe_parameter (kind : slot.kind = .parameter) :
    s.recipe own e = (do
      let owner ← slot.enclosing.bind (s.memberRecipe own)
      return own.within .variableElement [owner, own.ofName slot.simpleName]) := by
  rw [recipe, found, Option.bind_eq_bind, Option.bind_some]
  simp only [kind]

theorem recipe_typeParameter (kind : slot.kind = .typeParameter) :
    s.recipe own e = (do
      let owner ← slot.enclosing.bind (s.memberRecipe own)
      return own.within .typeParameterElement [owner, own.ofName slot.simpleName]) := by
  rw [recipe, found, Option.bind_eq_bind, Option.bind_some]
  simp only [kind]

theorem recipe_member (kind : slot.kind ≠ .parameter ∧ slot.kind ≠ .typeParameter) :
    s.recipe own e = s.memberRecipe own e := by
  rw [recipe, found, Option.bind_eq_bind, Option.bind_some]
  cases same : slot.kind <;> simp_all

end recipe

theorem Consistent.tree_within (h : s.Consistent) {t : TypeId} (known : s.HasType t) {n : Nat}
    (enough : t.index < n) : (s.tree t).Within s.IsType s.IsTypeParameter n := by
  induction n generalizing t with
  | zero => omega
  | succ n ih =>
    obtain ⟨shape, found⟩ := has_type_iff.mp known
    have fits := h.shapes t shape found
    have part (p : TypeId) (mem : p ∈ shape.parts) : (s.tree p).Within s.IsType s.IsTypeParameter n :=
      ih (fits.part_known known mem) (Nat.lt_of_lt_of_le (fits.older p mem) (Nat.le_of_lt_succ enough))
    rw [h.tree_of_shape found]
    cases shape with
    | array a => exact part a (by simp [TypeShape.parts])
    | declared enclosing e args =>
      simp only [TypeShape.unfold, TypeTree.Within, List.forall_mem_map]
      exact ⟨(fits.declared enclosing e args rfl).1, part enclosing (by simp [TypeShape.parts]),
        fun a mem => part a (by simp [TypeShape.parts, mem])⟩
    | typeVariable e upper => exact (fits.typeVariable e upper rfl).1
    | wildcard upper lower =>
      simp only [TypeShape.unfold, TypeTree.Within, Option.mem_def, Option.map_eq_some_iff]
      refine ⟨?_, ?_⟩
      · rintro _ ⟨b, mem, rfl⟩
        exact part b (by simp [TypeShape.parts, mem])
      · rintro _ ⟨b, mem, rfl⟩
        exact part b (by simp [TypeShape.parts, mem])
    | _ => trivial

theorem Sound.erase_within (h : s.Sound) {t : TypeId} (known : s.HasType t) (depth : Nat) :
    ((s.tree t).erase s.context depth).Within s.IsType (fun _ => False) (depth + 2) := by
  have top : s.objectTree.Within s.IsType (fun _ => False) 2 := by
    unfold objectTree
    split
    · rename_i e named
      exact ⟨h.objectElement_isType named, trivial, by simp⟩
    · trivial
  induction depth generalizing t with
  | zero => exact top
  | succ depth ih =>
    obtain ⟨shape, found⟩ := has_type_iff.mp known
    have fits := h.shapes t shape found
    have part (p : TypeId) (mem : p ∈ shape.parts) := ih (fits.part_known known mem)
    rw [h.erase_shape, shape_of_shape? found]
    cases shape with
    | array a => exact part a (by simp [TypeShape.parts])
    | declared enclosing e args =>
      refine ⟨(fits.declared enclosing e args rfl).1, ?_, by simp⟩
      split
      · trivial
      · exact part enclosing (by simp [TypeShape.parts])
    | typeVariable e upper => exact (ih (fits.typeVariable e upper rfl).2.1).more (by omega)
    | wildcard upper lower =>
      cases upper with
      | none => exact top.more (by omega)
      | some b => exact (part b (by simp [TypeShape.parts])).more (by omega)
    | intersection ts =>
      cases ts with
      | nil => trivial
      | cons b _ => exact (part b (by simp [TypeShape.parts])).more (by omega)
    | union ts =>
      cases ts with
      | nil => trivial
      | cons b _ => exact (part b (by simp [TypeShape.parts])).more (by omega)
    | _ => trivial

theorem Sound.value_within (h : s.Sound) {e : ElementId} (kind : s.kind? e = some .parameter) :
    (s.erased (s.valueType e)).Within s.IsType (fun _ => False) (StoreM.boundDepth + 2) := by
  obtain ⟨r, recorded⟩ := h.record_of_owned kind (by decide)
  obtain ⟨slot, _, fits⟩ := h.fits recorded
  rw [valueType, recorded]
  exact h.erase_within fits.asType StoreM.boundDepth

end Store

namespace StoreM

open Store

theorem erasedType_ensures {s s' : Store} (h : s.Sound) {e : ElementId} (kind : s.kind? e = some .parameter)
    (move : s.Advances s') : Ensures Advances s' (do erase (← complete e).asType) fun t s'' =>
      s''.HasType t ∧ s''.tree t = s.erased (s.valueType e) := by
  obtain ⟨r, recorded⟩ := h.record_of_owned kind (by decide)
  obtain ⟨slot, found, fits⟩ := h.fits recorded
  have there := move.moves.grows.has_element (has_element_iff.mpr ⟨slot, found⟩)
  refine (complete_record move.sound there).bind fun r' s₁ move₁ again => ?_
  have from₁ := Movement.trans move move₁
  rw [from₁.record kind (by decide), recorded] at again
  cases again
  rw [valueType, recorded]
  dsimp only
  rw [← from₁.erased fits.asType]
  exact erase_ensures from₁.sound (from₁.moves.grows.has_type fits.asType)

end StoreM

end Nominal
