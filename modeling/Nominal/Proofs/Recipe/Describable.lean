import Nominal.Proofs.Recipe.Provenance
import Nominal.Proofs.Recipe.RoundTrip
import Nominal.Proofs.Store.Immutable
/-!
What there is a recipe for, and what there is none for. A type has one if nothing that is reached from it stands in
the way; an element has one by its kind, by the erased types of its parameters, or by its owner. A recipe holds
the recipes of everything that it is put together from, so where one of them is missing there is no recipe at all.
-/

namespace Nominal

open Store StoreM

def ElementKind.isStanding (k : ElementKind) : Bool :=
  k.isQualified || k == .field || k == .enumConstant || k == .recordComponent

def TypeKind.isIndescribable : TypeKind → Bool
  | error | executable | union | intersection | package | module => true
  | _ => false

def TypeShape.spelled : TypeShape → List TypeId
  | array c => [c]
  | declared enclosing _ args => if enclosing = .none then args else enclosing :: args
  | wildcard upper lower => upper.toList ++ lower.toList
  | _ => []

namespace Store

def Spells (s : Store) : TypeId → TypeId → Prop := Relation.ReflTransGen fun t p => p ∈ (s.shape t).spelled

def erasedParameter (s : Store) (p : ElementId) : TypeId × Store := (do erase (← complete p).asType : StoreM TypeId).run s

mutual

/-- Elements that can be described. -/
inductive DescribableElement : Store → ElementId → Prop
  | standing {s : Store} {e : ElementId} {k : ElementKind} : s.kind? e = some k → k.isStanding →
    DescribableElement s e
  | executable {s : Store} {e : ElementId} {k : ElementKind} : s.kind? e = some k → k.isExecutable →
    (∀ p ∈ s.parameters e, DescribableType (s.erasedParameter p).2 (s.erasedParameter p).1) → DescribableElement s e
  | parameter {s : Store} {e o : ElementId} {slot : Slot} : s.slot? e = some slot →
    slot.kind = .parameter ∨ slot.kind = .typeParameter → slot.enclosing = some o → DescribableElement s o →
    DescribableElement s e

/-- Types that can be described. -/
inductive DescribableType : Store → TypeId → Prop
  | intro {s : Store} {t : TypeId} : (∀ p, s.Spells t p → ¬ (s.shape p).kind.isIndescribable) →
    (∀ p e upper, s.Spells t p → s.shape p = .typeVariable e upper → DescribableElement s e) → DescribableType s t

end

end Store

namespace Recipe

variable {node part r : Recipe} {rs : List Recipe}

theorem Occurs.trans (first : node.Occurs part) (second : part.Occurs r) : node.Occurs r := by
  induction second with
  | itself => exact first
  | argument mem _ ih => exact .argument mem ih

theorem Occurs.of_within {own : Recipe} {f : Factory} (takes : f.takesDomain) (mem : r ∈ rs) :
    r.Occurs (own.within f rs) := by
  refine .argument (show r ∈ followed f (own :: rs) from ?_) .itself
  rwa [followed, if_pos takes]

theorem Occurs.of_items (mem : r ∈ rs) : r.Occurs (.ofItems rs) := by
  unfold ofItems
  split
  · exact .argument (f := .listOf _) mem .itself
  · exact .argument (f := .listOfArray) mem .itself

end Recipe

namespace TypeTree

variable {own : Recipe} {f g : ElementId → Option Recipe} {used varied : ElementId → Prop} {ts : List TypeTree}

theorem recipes_congr (same : ∀ t ∈ ts, t.recipe own f = t.recipe own g) : recipes own f ts = recipes own g ts := by
  induction ts with
  | nil => rfl
  | cons t ts ih => rw [recipes, recipes, same t (by simp), ih fun u mem => same u (by simp [mem])]

theorem recipes_some {rs : List Recipe} (some_ : recipes own f ts = some rs) :
    ∀ t ∈ ts, ∃ r ∈ rs, t.recipe own f = some r := by
  induction ts generalizing rs with
  | nil => nofun
  | cons t ts ih =>
    obtain ⟨r, first, some_⟩ := Option.bind_eq_some_iff.mp some_
    obtain ⟨rs, rest, some_⟩ := Option.bind_eq_some_iff.mp some_
    cases some_
    refine List.forall_mem_cons.mpr ⟨⟨r, by simp, first⟩, fun u mem => ?_⟩
    obtain ⟨r', there, found⟩ := ih rest u mem
    exact ⟨r', by simp [there], found⟩

theorem recipes_of_each (each : ∀ t ∈ ts, ∃ r, t.recipe own f = some r) : ∃ rs, recipes own f ts = some rs := by
  induction ts with
  | nil => exact ⟨[], rfl⟩
  | cons t ts ih =>
    obtain ⟨r, first⟩ := each t (by simp)
    obtain ⟨rs, rest⟩ := ih fun u mem => each u (by simp [mem])
    exact ⟨r :: rs, by rw [recipes, first, rest]; rfl⟩

theorem Within.recipe_congr {n : Nat} {t : TypeTree} (within : t.Within used varied n)
    (useds : ∀ e, used e → f e = g e) (varieds : ∀ e, varied e → f e = g e) : t.recipe own f = t.recipe own g := by
  induction n generalizing t with
  | zero => exact within.elim
  | succ n ih =>
    have optional (b : Option TypeTree) (all : ∀ t ∈ b, t.Within used varied n) :
        optRecipe own f b = optRecipe own g b := by
      cases b with
      | none => rfl
      | some t => exact ih (all t rfl)
    cases t with
    | array a => rw [recipe, recipe, ih within]
    | declared enclosing e args =>
      obtain ⟨use, inside, insides⟩ := within
      rw [recipe, recipe, recipes_congr fun a mem => ih (insides a mem), ih inside, useds e use]
    | typeVariable e => rw [recipe, recipe, varieds e within]
    | wildcard upper lower => rw [recipe, recipe, optional upper within.1, optional lower within.2]
    | noType n => cases n <;> rfl
    | _ => rfl

end TypeTree

namespace Store

variable {s s' : Store} {own : Recipe} {e o p : ElementId} {t q : TypeId} {shape : TypeShape} {slot : Slot}

theorem Sound.recipe_of_type (h : s.Sound) (own : Recipe) (type : s.IsType o) : ∃ r, s.recipe own o = some r := by
  obtain ⟨r, recipe, _⟩ : s.Tells own (s.recipe own) o := h.type_found type
  exact ⟨r, recipe⟩

section types

variable {f : ElementId → Option Recipe}

theorem spelled_parts (part : q ∈ shape.spelled) : q ∈ shape.parts := by
  cases shape with
  | array c => exact part
  | declared enclosing e args =>
    rw [TypeShape.spelled] at part
    split at part
    · exact List.mem_cons_of_mem enclosing part
    · exact part
  | wildcard upper lower => exact part
  | _ => cases part

theorem Sound.recipe_parts (h : s.Sound) (found : s.shape? t = some shape) {r : Recipe}
    (described : (s.tree t).recipe own f = some r) :
    ¬ shape.kind.isIndescribable ∧
      (∀ q ∈ shape.spelled, ∃ part, (s.tree q).recipe own f = some part ∧ part.Occurs r) ∧
      ∀ e ∈ shape.element?, ∃ part, f e = some part ∧ part.Occurs r := by
  have optional {b : Option TypeId} {rb : Recipe} (bound : TypeTree.optRecipe own f (b.map s.tree) = some rb) :
      ∀ q ∈ b, (s.tree q).recipe own f = some rb := by
    rintro q rfl
    exact bound
  rw [h.tree_of_shape found] at described
  cases shape with
  | array c =>
    obtain ⟨part, inner, made⟩ := Option.bind_eq_some_iff.mp described
    cases made
    refine ⟨nofun, fun q mem => ?_, nofun⟩
    cases List.mem_singleton.mp mem
    exact ⟨part, inner, .of_within rfl (by simp)⟩
  | declared enclosing e args =>
    obtain ⟨outer, around, made⟩ := Option.bind_eq_some_iff.mp described
    obtain ⟨element, named, made⟩ := Option.bind_eq_some_iff.mp made
    obtain ⟨arguments, inner, made⟩ := Option.bind_eq_some_iff.mp made
    cases made
    have inside : ∀ a ∈ args, ∃ part, (s.tree a).recipe own f = some part ∧
        part.Occurs (own.within .declaredType [outer, element, .ofItems arguments]) := by
      intro a mem
      obtain ⟨part, there, same⟩ := TypeTree.recipes_some inner (s.tree a) (List.mem_map_of_mem mem)
      exact ⟨part, same, (Recipe.Occurs.of_items there).trans (.of_within rfl (by simp))⟩
    refine ⟨nofun, fun q mem => ?_, fun e' same => ?_⟩
    · rw [TypeShape.spelled] at mem
      split at mem
      · exact inside q mem
      · rename_i nested
        rw [if_neg fun isNone => nested (h.tree_isNone.mp isNone)] at around
        rcases List.mem_cons.mp mem with rfl | mem
        · exact ⟨outer, around, .of_within rfl (by simp)⟩
        · exact inside q mem
    · cases same
      exact ⟨element, named, .of_within rfl (by simp)⟩
  | typeVariable e upper =>
    obtain ⟨element, named, made⟩ := Option.bind_eq_some_iff.mp described
    cases made
    refine ⟨nofun, nofun, fun e' same => ?_⟩
    cases same
    exact ⟨element, named, .of_within rfl (by simp)⟩
  | wildcard upper lower =>
    obtain ⟨above, first, made⟩ := Option.bind_eq_some_iff.mp described
    obtain ⟨below, second, made⟩ := Option.bind_eq_some_iff.mp made
    cases made
    refine ⟨nofun, fun q mem => ?_, nofun⟩
    rcases List.mem_append.mp mem with mem | mem
    · exact ⟨above, optional first q (by simpa using mem), .of_within rfl (by simp)⟩
    · exact ⟨below, optional second q (by simpa using mem), .of_within rfl (by simp)⟩
  | primitive p => exact ⟨by cases p <;> nofun, nofun, nofun⟩
  | null => exact ⟨nofun, nofun, nofun⟩
  | noType n =>
    cases n with
    | none | void => exact ⟨nofun, nofun, nofun⟩
    | package | module => cases described
  | error _ | executable _ | union _ | intersection _ => cases described

theorem Sound.recipe_of_parts (h : s.Sound) (found : s.shape? t = some shape) (kind : ¬ shape.kind.isIndescribable)
    (parts : ∀ q ∈ shape.spelled, ∃ part, (s.tree q).recipe own f = some part)
    (element : ∀ e ∈ shape.element?, ∃ part, f e = some part) : ∃ r, (s.tree t).recipe own f = some r := by
  have optional (b : Option TypeId) (sub : ∀ q ∈ b, q ∈ shape.spelled) :
      ∃ rb, TypeTree.optRecipe own f (b.map s.tree) = some rb := by
    cases b with
    | none => exact ⟨_, rfl⟩
    | some q => exact parts q (sub q rfl)
  rw [h.tree_of_shape found]
  cases shape with
  | array c =>
    obtain ⟨part, inner⟩ := parts c (List.mem_singleton_self c)
    exact ⟨_, by rw [TypeShape.unfold, TypeTree.recipe, inner]; rfl⟩
  | declared enclosing e args =>
    obtain ⟨element, named⟩ := element e rfl
    have outer : ∃ r, (if (s.tree enclosing).isNone then some Recipe.null else (s.tree enclosing).recipe own f) = some r := by
      split
      · exact ⟨_, rfl⟩
      · rename_i nested
        have first : enclosing ∈ enclosing :: args := List.mem_cons_self
        exact parts enclosing (by rwa [TypeShape.spelled, if_neg fun same => nested (h.tree_isNone.mpr same)])
    obtain ⟨outer, around⟩ := outer
    obtain ⟨rs, inner⟩ : ∃ rs, TypeTree.recipes own f (args.map s.tree) = some rs :=
      TypeTree.recipes_of_each <| List.forall_mem_map.mpr fun a mem =>
        parts a (by rw [TypeShape.spelled]; split <;> simp [mem])
    exact ⟨_, by rw [TypeShape.unfold, TypeTree.recipe, around, named, inner]; rfl⟩
  | typeVariable e upper =>
    obtain ⟨element, named⟩ := element e rfl
    exact ⟨_, by rw [TypeShape.unfold, TypeTree.recipe, named]; rfl⟩
  | wildcard upper lower =>
    obtain ⟨above, first⟩ := optional upper fun q mem => by simp_all [TypeShape.spelled]
    obtain ⟨below, second⟩ := optional lower fun q mem => by simp_all [TypeShape.spelled]
    exact ⟨_, by rw [TypeShape.unfold, TypeTree.recipe, first, second]; rfl⟩
  | noType n =>
    cases n with
    | none | void => exact ⟨_, rfl⟩
    | package | module => exact absurd rfl kind
  | primitive _ | null => exact ⟨_, rfl⟩
  | error _ | executable _ | union _ | intersection _ => exact absurd rfl kind

theorem Sound.spells_known (h : s.Sound) (known : s.HasType t) (spells : s.Spells t q) : s.HasType q := by
  induction spells with
  | refl => exact known
  | tail _ part ih =>
    obtain ⟨shape, found⟩ := has_type_iff.mp ih
    rw [shape_of_shape? found] at part
    exact (h.shapes _ shape found).part_known ih (spelled_parts part)

theorem Sound.recipe_spells (h : s.Sound) (known : s.HasType t) (spells : s.Spells t q) {r : Recipe}
    (described : (s.tree t).recipe own f = some r) :
    ∃ part, (s.tree q).recipe own f = some part ∧ part.Occurs r := by
  induction spells with
  | refl => exact ⟨r, described, .itself⟩
  | tail spells part ih =>
    obtain ⟨middle, inner, occurs⟩ := ih
    obtain ⟨shape, found⟩ := has_type_iff.mp (h.spells_known known spells)
    rw [shape_of_shape? found] at part
    obtain ⟨last, innermost, occurs'⟩ := (h.recipe_parts found inner).2.1 _ part
    exact ⟨last, innermost, occurs'.trans occurs⟩

theorem Sound.recipe_of_spells (h : s.Sound) (known : s.HasType t)
    (kinds : ∀ q, s.Spells t q → ¬ (s.shape q).kind.isIndescribable)
    (elements : ∀ q, s.Spells t q → ∀ e ∈ (s.shape q).element?, ∃ r, f e = some r) :
    ∃ r, (s.tree t).recipe own f = some r := by
  induction index : t.index using Nat.strong_induction_on generalizing t with
  | _ n ih =>
    subst index
    obtain ⟨shape, found⟩ := has_type_iff.mp known
    have fits := h.shapes t shape found
    have here := shape_of_shape? found
    refine h.recipe_of_parts found (here ▸ kinds t .refl) (fun q part => ?_) (here ▸ elements t .refl)
    have inside : s.Spells t q := .single (here ▸ part)
    exact ih q.index (fits.older q (spelled_parts part)) (fits.part_known known (spelled_parts part))
      (fun p spells => kinds p (inside.trans spells)) (fun p spells => elements p (inside.trans spells)) rfl

theorem Sound.typeRecipe_isSome (h : s.Sound) (known : s.HasType t) : (s.typeRecipe own t).isSome ↔
    (∀ q, s.Spells t q → ¬ (s.shape q).kind.isIndescribable) ∧
      ∀ q e upper, s.Spells t q → s.shape q = .typeVariable e upper → (s.recipe own e).isSome := by
  simp only [Option.isSome_iff_exists]
  constructor
  · rintro ⟨r, described⟩
    have each {q : TypeId} (spells : s.Spells t q) : ¬ (s.shape q).kind.isIndescribable ∧
        ∀ e ∈ (s.shape q).element?, ∃ part, s.recipe own e = some part := by
      obtain ⟨part, inner, _⟩ := h.recipe_spells known spells described
      obtain ⟨shape, found⟩ := has_type_iff.mp (h.spells_known known spells)
      obtain ⟨kind, _, element⟩ := h.recipe_parts found inner
      rw [shape_of_shape? found]
      exact ⟨kind, fun e mem => (element e mem).imp fun _ => And.left⟩
    exact ⟨fun q spells => (each spells).1, fun q e upper spells same => (each spells).2 e (by rw [same]; rfl)⟩
  · rintro ⟨kinds, varieds⟩
    refine h.recipe_of_spells known kinds fun q spells e mem => ?_
    obtain ⟨shape, found⟩ := has_type_iff.mp (h.spells_known known spells)
    have here := shape_of_shape? found
    cases shape with
    | typeVariable e' upper =>
      rw [here] at mem
      cases mem
      exact varieds q e upper spells here
    | declared enclosing e' args =>
      rw [here] at mem
      cases mem
      have type := ((h.shapes q _ found).declared enclosing e args rfl).1
      exact h.recipe_of_type own type
    | _ =>
      rw [here] at mem
      cases mem

theorem Sound.within_spells (h : s.Sound) {used varied : ElementId → Prop} {n : Nat} (known : s.HasType t)
    (within : (s.tree t).Within used varied n) (spells : s.Spells t q) : ∃ m, (s.tree q).Within used varied m := by
  induction spells with
  | refl => exact ⟨n, within⟩
  | tail spells part ih =>
    obtain ⟨m, within⟩ := ih
    obtain ⟨shape, found⟩ := has_type_iff.mp (h.spells_known known spells)
    rw [shape_of_shape? found] at part
    rw [h.tree_of_shape found] at within
    obtain ⟨m, rfl⟩ : ∃ k, m = k + 1 := ⟨m - 1, by cases m; exacts [within.elim, rfl]⟩
    refine ⟨m, ?_⟩
    cases shape with
    | array c => rwa [List.mem_singleton.mp part]
    | declared enclosing e args =>
      rcases List.mem_cons.mp (spelled_parts part) with rfl | mem
      · exact within.2.1
      · exact within.2.2 _ (List.mem_map_of_mem mem)
    | wildcard upper lower =>
      rcases List.mem_append.mp part with mem | mem
      · exact within.1 _ (Option.mem_map_of_mem s.tree (by simpa using mem))
      · exact within.2 _ (Option.mem_map_of_mem s.tree (by simpa using mem))
    | _ => cases part

end types

section elements

theorem Sound.erasedParameter (h : s.Sound) (kind : s.kind? p = some .parameter) :
    s.Advances (s.erasedParameter p).2 ∧ (s.erasedParameter p).2.HasType (s.erasedParameter p).1 ∧
      (s.erasedParameter p).2.tree (s.erasedParameter p).1 = s.erased (s.valueType p) :=
  erasedType_ensures h kind h.stays

theorem Sound.erasedParameter_recipe (h : s.Sound) (own : Recipe) (kind : s.kind? p = some .parameter) :
    (s.erasedParameter p).2.typeRecipe own (s.erasedParameter p).1 =
      (s.erased (s.valueType p)).recipe own (s.named own) := by
  obtain ⟨move, _, tree⟩ := h.erasedParameter kind
  rw [typeRecipe, tree]
  refine (h.value_within kind).recipe_congr (fun e type => ?_) fun _ => False.elim
  rw [move.recipe type.there, recipe_type type]

theorem Sound.erasedParameter_describable (h : s.Sound) (own : Recipe) (kind : s.kind? p = some .parameter) :
    DescribableType (s.erasedParameter p).2 (s.erasedParameter p).1 ↔
      ((s.erased (s.valueType p)).recipe own (s.named own)).isSome := by
  obtain ⟨move, known, tree⟩ := h.erasedParameter kind
  have noVariable (q : TypeId) (e : ElementId) (upper : TypeId)
      (spells : (s.erasedParameter p).2.Spells (s.erasedParameter p).1 q)
      (same : (s.erasedParameter p).2.shape q = .typeVariable e upper) : False := by
    obtain ⟨m, within⟩ := move.sound.within_spells known (by rw [tree]; exact h.value_within kind) spells
    rw [move.sound.tree_eq, same] at within
    cases m <;> exact within
  rw [← h.erasedParameter_recipe own kind, move.sound.typeRecipe_isSome known]
  constructor
  · rintro ⟨kinds, _⟩
    exact ⟨kinds, fun q e upper spells same => (noVariable q e upper spells same).elim⟩
  · rintro ⟨kinds, _⟩
    exact .intro kinds fun q e upper spells same => (noVariable q e upper spells same).elim

theorem mem_parameters_kind (mem : p ∈ s.parameters e) : s.kind? p = some .parameter := by
  obtain ⟨slot, found, _, _, kind⟩ := mem_ownedOf.mp mem
  exact kind?_eq_some_iff.mpr ⟨slot, found, eq_of_beq kind⟩

theorem Sound.owner_of_owned (h : s.Sound) (found : s.slot? e = some slot) (owned : slot.kind.isOwned) :
    ∃ o, slot.enclosing = some o := by
  obtain ⟨o, _, enclosing, _⟩ := (h.slots e slot found).placed (ElementKind.isOwned_not_container owned)
  exact ⟨o, enclosing⟩

theorem Sound.selected_parts (h : s.Sound) (sel : Selection) (found : s.slot? e = some slot)
    (picked : sel.picks slot.kind) (enclosing : slot.enclosing = some o) {r : Recipe}
    (described : s.recipe own e = some r) : ∃ part, s.recipe own o = some part ∧ part.Occurs r := by
  rw [h.recipe_selected sel found picked enclosing] at described
  obtain ⟨part, owner, made⟩ := Option.bind_eq_some_iff.mp described
  cases made
  exact ⟨part, owner, .of_within (by cases sel <;> rfl) (by simp)⟩

theorem Sound.executable_parts (h : s.Sound) (found : s.slot? e = some slot) (executable : slot.kind.isExecutable)
    (enclosing : slot.enclosing = some o) {r : Recipe} (described : s.recipe own e = some r) :
    (∃ part, s.recipe own o = some part ∧ part.Occurs r) ∧
      ∀ p ∈ s.parameters e, ∃ part, (s.erased (s.valueType p)).recipe own (s.named own) = some part ∧ part.Occurs r := by
  rw [h.recipe_executable found executable enclosing] at described
  obtain ⟨owner, around, made⟩ := Option.bind_eq_some_iff.mp described
  obtain ⟨parts, each, made⟩ := Option.bind_eq_some_iff.mp made
  cases made
  refine ⟨⟨owner, around, .of_within rfl (by simp)⟩, fun p mem => ?_⟩
  obtain ⟨part, there, inner⟩ := TypeTree.recipes_some each _ (List.mem_map_of_mem mem)
  exact ⟨part, inner, (Recipe.Occurs.of_items there).trans (.of_within rfl (by simp))⟩

theorem Sound.element_parts (h : s.Sound) (found : s.slot? e = some slot) (owned : slot.kind.isOwned)
    (enclosing : slot.enclosing = some o) {r : Recipe} (described : s.recipe own e = some r) :
    ∃ part, s.recipe own o = some part ∧ part.Occurs r := by
  rcases ElementKind.isOwned_cases owned with executable | ⟨sel, picked⟩
  · exact (h.executable_parts found executable enclosing described).1
  · exact h.selected_parts sel found picked enclosing described

theorem Sound.selected_isSome (h : s.Sound) (sel : Selection) (found : s.slot? e = some slot)
    (picked : sel.picks slot.kind) (enclosing : slot.enclosing = some o) :
    (s.recipe own e).isSome ↔ (s.recipe own o).isSome := by
  rw [h.recipe_selected sel found picked enclosing]
  cases s.recipe own o <;> exact Iff.rfl

theorem Sound.executable_isSome (h : s.Sound) (found : s.slot? e = some slot) (executable : slot.kind.isExecutable) :
    (s.recipe own e).isSome ↔
      ∀ p ∈ s.parameters e, DescribableType (s.erasedParameter p).2 (s.erasedParameter p).1 := by
  obtain ⟨o, enclosing⟩ := h.owner_of_owned found (ElementKind.isOwned_of_executable executable)
  have each : (∀ p ∈ s.parameters e, DescribableType (s.erasedParameter p).2 (s.erasedParameter p).1) ↔
      ∀ p ∈ s.parameters e, ∃ part, (s.erased (s.valueType p)).recipe own (s.named own) = some part :=
    forall₂_congr fun p mem =>
      (h.erasedParameter_describable own (mem_parameters_kind mem)).trans Option.isSome_iff_exists
  rw [each]
  constructor
  · intro some_ p mem
    obtain ⟨r, described⟩ := Option.isSome_iff_exists.mp some_
    exact ((h.executable_parts found executable enclosing described).2 p mem).imp fun _ => And.left
  · intro all
    have type := h.owner_type found (ElementKind.isMember_of_executable executable) enclosing
    obtain ⟨owner, named⟩ := h.recipe_of_type own type
    obtain ⟨rs, recipes⟩ : ∃ rs, TypeTree.recipes own (s.named own) (s.signature e) = some rs :=
      TypeTree.recipes_of_each (List.forall_mem_map.mpr all)
    rw [h.recipe_executable found executable enclosing, named, recipes]
    rfl

theorem Sound.recipe_of_standing (h : s.Sound) (own : Recipe) (found : s.slot? e = some slot)
    (standing : slot.kind.isStanding) : (s.recipe own e).isSome := by
  have cases_ : slot.kind.isQualified ∨ slot.kind.isMember ∧ ∃ sel : Selection, sel.picks slot.kind := by
    have all : slot.kind.isQualified ∨
        slot.kind.isMember ∧ (Selection.value.picks slot.kind ∨ Selection.component.picks slot.kind) := by
      revert standing
      cases slot.kind <;> decide
    exact all.imp id (And.imp id fun picked => picked.elim (⟨_, ·⟩) (⟨_, ·⟩))
  rcases cases_ with qualified | ⟨member, sel, picked⟩
  · obtain ⟨r, recipe, _⟩ := h.named_tells own found qualified
    rw [recipe_qualified found qualified, recipe]
    rfl
  · obtain ⟨o, enclosing⟩ := h.owner_of_owned found (sel.isOwned picked)
    rw [h.selected_isSome sel found picked enclosing, Option.isSome_iff_exists]
    exact h.recipe_of_type own (h.owner_type found member enclosing)

theorem not_recipe_of_local (found : s.slot? e = some slot) (isLocal : slot.kind.isLocal) :
    s.recipe own e = none := by
  rw [recipe_member found, memberRecipe_local found isLocal]
  revert isLocal
  cases slot.kind <;> decide

/-- An element has a recipe exactly if it can be described, by induction on the owners. -/
theorem Sound.recipe_isSome (h : s.Sound) (own : Recipe) (there : s.HasElement e) :
    (s.recipe own e).isSome ↔ s.DescribableElement e := by
  induction index : e.index using Nat.strong_induction_on generalizing e with
  | _ n ih =>
    subst index
    obtain ⟨slot, found⟩ := has_element_iff.mp there
    have kind : s.kind? e = some slot.kind := kind?_eq_some_iff.mpr ⟨slot, found, rfl⟩
    have owned (parameter : slot.kind = .parameter ∨ slot.kind = .typeParameter) :
        ∃ o, slot.enclosing = some o ∧ ((s.recipe own e).isSome ↔ s.DescribableElement o) := by
      have isOwned : slot.kind.isOwned := by rcases parameter with same | same <;> rw [same] <;> rfl
      obtain ⟨o, _, enclosing, older, kind', _⟩ := (h.slots e slot found).placed (ElementKind.isOwned_not_container isOwned)
      obtain ⟨outer, found', _⟩ := kind?_eq_some_iff.mp kind'
      refine ⟨o, enclosing, ?_⟩
      rw [← ih o.index older (has_element_iff.mpr ⟨outer, found'⟩) rfl]
      rcases parameter with same | same
      · exact h.selected_isSome .value found (by rw [same]; rfl) enclosing
      · exact h.selected_isSome .typeParameter found (by rw [same]; rfl) enclosing
    constructor
    · intro some_
      rcases slot.kind.roles with qualified | executable | value | component | isLocal | parameter
      · exact .standing kind (by simp [ElementKind.isStanding, qualified])
      · exact .executable kind executable ((h.executable_isSome found executable).mp some_)
      · exact .standing kind (by rcases value with same | same <;> rw [same] <;> rfl)
      · exact .standing kind (by rw [component]; rfl)
      · rw [not_recipe_of_local found isLocal] at some_
        cases some_
      · obtain ⟨o, enclosing, iff_⟩ := owned parameter
        exact .parameter found parameter enclosing (iff_.mp some_)
    · intro is
      cases is with
      | standing kind' standing =>
        cases kind.symm.trans kind'
        exact h.recipe_of_standing own found standing
      | executable kind' executable all =>
        cases kind.symm.trans kind'
        exact (h.executable_isSome found executable).mpr all
      | parameter found' parameter enclosing' owner =>
        cases found.symm.trans found'
        obtain ⟨o, enclosing, iff_⟩ := owned parameter
        cases enclosing.symm.trans enclosing'
        exact iff_.mpr owner

theorem Sound.typeRecipe_iff (h : s.Sound) (own : Recipe) (known : s.HasType t) :
    (s.typeRecipe own t).isSome ↔ s.DescribableType t := by
  have there (q : TypeId) (e : ElementId) (upper : TypeId) (spells : s.Spells t q)
      (same : s.shape q = .typeVariable e upper) : s.HasElement e := by
    obtain ⟨shape, found⟩ := has_type_iff.mp (h.spells_known known spells)
    rw [shape_of_shape? found] at same
    obtain ⟨slot, found', _⟩ := kind?_eq_some_iff.mp ((h.shapes q shape found).typeVariable e upper same).1
    exact has_element_iff.mpr ⟨slot, found'⟩
  rw [h.typeRecipe_isSome known]
  constructor
  · rintro ⟨kinds, varied⟩
    exact .intro kinds fun q e upper spells same =>
      (h.recipe_isSome own (there q e upper spells same)).mp (varied q e upper spells same)
  · rintro ⟨kinds, varied⟩
    exact ⟨kinds, fun q e upper spells same =>
      (h.recipe_isSome own (there q e upper spells same)).mpr (varied q e upper spells same)⟩

end elements

section whole

/-- A recipe of an element holds those of its owner and of the erased types of its parameters. -/
structure WholeElement (s : Store) (own : Recipe) (e : ElementId) (r : Recipe) : Prop where
  owner : ∀ slot o, s.slot? e = some slot → slot.kind.isOwned → slot.enclosing = some o →
    ∃ part, ((Describing.element own o).run s).1 = some part ∧ part.Occurs r
  parameters : ∀ k, s.kind? e = some k → k.isExecutable → ∀ p ∈ s.parameters e,
    ∃ part, ((Describing.type own (s.erasedParameter p).1).run (s.erasedParameter p).2).1 = some part ∧ part.Occurs r

/-- A recipe of a type holds those of the types that are reached from it and of their elements. -/
structure WholeType (s : Store) (own : Recipe) (t : TypeId) (r : Recipe) : Prop where
  types : ∀ q, s.Spells t q → ∃ part, ((Describing.type own q).run s).1 = some part ∧ part.Occurs r
  elements : ∀ q e, s.Spells t q → (s.shape q).element? = some e →
    ∃ part, ((Describing.element own e).run s).1 = some part ∧ part.Occurs r

theorem Sound.described_element (h : s.Sound) {r : Recipe} (described : s.recipe own e = some r) :
    ((Describing.element own e).run s).1 = some r := by
  obtain ⟨slot, found, _⟩ := Option.bind_eq_some_iff.mp described
  exact (Describing.element_finds h.stays (has_element_iff.mpr ⟨slot, found⟩)).2.trans described

theorem Sound.described_type (h : s.Sound) (known : s.HasType t) {r : Recipe} (described : s.typeRecipe own t = some r) :
    ((Describing.type own t).run s).1 = some r :=
  (Describing.type_finds h.stays known).2.trans described

theorem Sound.whole_element (h : s.Sound) {r : Recipe} (described : s.recipe own e = some r) : s.WholeElement own e r where
  owner slot o found owned enclosing := by
    obtain ⟨part, around, occurs⟩ := h.element_parts found owned enclosing described
    exact ⟨part, h.described_element around, occurs⟩
  parameters k kind executable p mem := by
    obtain ⟨slot, found, rfl⟩ := kind?_eq_some_iff.mp kind
    obtain ⟨o, enclosing⟩ := h.owner_of_owned found (ElementKind.isOwned_of_executable executable)
    obtain ⟨part, inner, occurs⟩ := (h.executable_parts found executable enclosing described).2 p mem
    have parameter := mem_parameters_kind mem
    obtain ⟨move, known, _⟩ := h.erasedParameter parameter
    exact ⟨part, move.sound.described_type known ((h.erasedParameter_recipe own parameter).trans inner), occurs⟩

theorem Sound.whole_type (h : s.Sound) (known : s.HasType t) {r : Recipe} (described : s.typeRecipe own t = some r) :
    s.WholeType own t r where
  types q spells := by
    obtain ⟨part, inner, occurs⟩ := h.recipe_spells known spells described
    exact ⟨part, h.described_type (h.spells_known known spells) inner, occurs⟩
  elements q e spells element := by
    obtain ⟨part, inner, occurs⟩ := h.recipe_spells known spells described
    obtain ⟨shape, found⟩ := has_type_iff.mp (h.spells_known known spells)
    rw [shape_of_shape? found] at element
    obtain ⟨last, named, occurs'⟩ := (h.recipe_parts found inner).2.2 e element
    exact ⟨last, h.described_element named, occurs'.trans occurs⟩

end whole

end Store

/-- The view is of an element of its store, and what it has seen was there when it was looked at. -/
structure ElementView.Genuine (v : ElementView) (w : Workspace) : Prop where
  reachable : (w.storeOf v.domain).Reachable
  there : (w.storeOf v.domain).HasElement v.id
  seen : ∀ r, (v.seen?.run w).1 = some r → ∃ s s₁, s.Reachable ∧ s.HasElement v.id ∧
    (complete v.id).run s = (r, s₁) ∧ s₁.LeadsTo (w.storeOf v.domain)

/-- The view is of a type of its store, and what it has seen was there when it was looked at. -/
structure TypeView.Genuine (v : TypeView) (w : Workspace) : Prop where
  reachable : (w.storeOf v.domain).Reachable
  there : (w.storeOf v.domain).HasType v.id
  seen : ∀ shape, (v.memo.run w).1.shape = some shape → ∃ s s₁, s.Reachable ∧ s.HasType v.id ∧
    (inspect v.id).run s = (shape, s₁) ∧ s₁.LeadsTo (w.storeOf v.domain)

section views

variable {w : Workspace} {d : Domain} {own : Recipe}

theorem Describing.seen_finds {s s₁ s' : Store} {e : ElementId} {r : ElementRecord} (h : s.Sound)
    (there : s.HasElement e) (completes : (complete e).run s = (r, s₁)) (leads : s₁.LeadsTo s') :
    Finds s' (Describing.record own r) (s'.recipe own e) := by
  obtain ⟨move, recorded⟩ := Ensures.result (complete_record h there) completes
  have grown := leads.grown move.sound
  obtain ⟨slot, found, done⟩ := record?_eq_some_iff.mp recorded
  obtain ⟨children, state, found'⟩ := grown.slot found
  by_cases container : slot.kind.isContainer
  · -- More may be in a module or package by now, but its recipe only tells its name.
    obtain ⟨_, again, fits⟩ := move.sound.fits recorded
    cases found.symm.trans again
    refine Finds.deep (f := fun fuel => recordN own fuel r) fun fuel enough => ?_
    obtain ⟨fuel, rfl⟩ : ∃ m, fuel = m + 1 := ⟨fuel - 1, by omega⟩
    rw [recipe_qualified found' (by revert container; cases slot.kind <;> decide), named, found',
      Option.bind_eq_bind, Option.bind_some]
    cases same : slot.kind <;> rw [same] at container <;> cases container
    all_goals
      simp only [recordN, fits.kind, fits.qualifiedName, same]
      exact .pure grown.sound _
  · exact record_finds grown.sound.stays (has_element_iff.mpr ⟨_, found'⟩)
      (grown.grows.record found container done)

/-- A domain describes a view of its own by the recipe that is read off the store. -/
theorem ElementView.Genuine.described {v : ElementView} (genuine : v.Genuine w) (mine : d.recipeFor? v.domain = some own) :
    ((d.describeElement v).run w).1 = (w.storeOf v.domain).recipe own v.id := by
  have h := genuine.reachable.sound
  have run : ((d.describeElement v).run w).1 = ((Describing.record own (v.record.run w).1).run
      ((v.record.run w).2.storeOf v.domain)).1 := by
    rw [Domain.describeElement, mine]
    rfl
  rw [run]
  cases seen : (v.seen?.run w).1 with
  | some r =>
    rw [ElementView.record_seen seen]
    obtain ⟨s, s₁, reachable, there, completes, leads⟩ := genuine.seen r seen
    exact (Describing.seen_finds reachable.sound there completes leads).2
  | none =>
    have binds : v.Binds w (v.record.run w).1 (v.record.run w).2 :=
      ⟨by rw [show v.isBound.run w = (((v.seen?.run w).1).isSome, w) from rfl, seen]; rfl, rfl⟩
    obtain ⟨reads, left⟩ := binds.reads
    rw [WorkM.within_store (Workspace.inside_of_element genuine.there)] at left
    rw [left, ← reads]
    exact (Describing.element_finds h.stays genuine.there).2

theorem TypeView.Genuine.shows {v : TypeView} {shape : TypeShape} (genuine : v.Genuine w)
    (seen : (v.memo.run w).1.shape = some shape) : shape = (w.storeOf v.domain).shape v.id := by
  obtain ⟨s, s₁, reachable, there, inspects, leads⟩ := genuine.seen shape seen
  obtain ⟨move, _⟩ := Ensures.result (inspect_ensures reachable.sound v.id) inspects
  rw [(leads.grown move.sound).shape (move.moves.grows.has_type there), move.shape there,
    ← inspect_shape, show inspect v.id s = (shape, s₁) from inspects]

theorem TypeView.Genuine.described {v : TypeView} (genuine : v.Genuine w) (mine : d.recipeFor? v.domain = some own) :
    ((d.describeType v).run w).1 = (w.storeOf v.domain).typeRecipe own v.id := by
  have h := genuine.reachable.sound
  have run : ((d.describeType v).run w).1 = ((Describing.shape own (v.shape.run w).1).run
      ((v.shape.run w).2.storeOf v.domain)).1 := by
    rw [Domain.describeType, mine]
    rfl
  rw [run]
  cases seen : (v.memo.run w).1.shape with
  | some shape =>
    rw [TypeView.shape_seen seen]
    rw [genuine.shows seen]
    exact (Describing.shape_finds h.stays genuine.there).2
  | none =>
    have binds : v.Binds w (v.shape.run w).1 (v.shape.run w).2 :=
      ⟨by rw [show v.isBound.run w = ((v.memo.run w).1.shape.isSome, w) from rfl, seen]; rfl, rfl⟩
    obtain ⟨reads, left⟩ := binds.reads
    have move : (w.storeOf v.domain).Advances ((v.shape.run w).2.storeOf v.domain) := by
      rw [left]
      by_cases inside : v.domain.store < w.stores.size
      · rw [WorkM.within_store inside]
        exact (inspect_ensures h v.id).1
      · rw [WorkM.within_nowhere inside]
        exact h.stays
    rw [← reads]
    exact (Describing.shape_finds move genuine.there).2

theorem Domain.recipeFor?_eq_some {home : Domain} :
    d.recipeFor? home = some own ↔ d.recipe = some own ∧ d.same home := by
  rw [recipeFor?]
  split <;> simp_all

/-- What a domain describes is what can be described, if it is its own and the domain itself has a recipe. -/
theorem Domain.isSome_of_described {home : Domain} {answer : Option Recipe} {can : Prop}
    (stranger : d.recipeFor? home = none → answer = none)
    (mine : ∀ own, d.recipeFor? home = some own → (answer.isSome ↔ can)) :
    answer.isSome ↔ (d.recipe.isSome ∧ d.same home) ∧ can := by
  have known : (d.recipeFor? home).isSome ↔ d.recipe.isSome ∧ d.same home := by
    simp only [Option.isSome_iff_exists, recipeFor?_eq_some, exists_and_right]
  rw [← known]
  cases found : d.recipeFor? home with
  | none => simp [stranger found]
  | some own => simpa using mine own found

/-- Whatever a domain is asked for, it has a recipe exactly for what can be described: for nothing at all without a
recipe of its own, and for nothing that belongs to another domain. Local variables are never described, and what
is described is described with everything in it. -/
theorem describable_exactly (d : Domain) (w : Workspace) :
    (∀ v : ElementView, v.Genuine w →
      (((d.describeElement v).run w).1.isSome ↔
        (d.recipe.isSome ∧ d.same v.domain) ∧ (w.storeOf v.domain).DescribableElement v.id) ∧
      (∀ k, (w.storeOf v.domain).kind? v.id = some k → k.isLocal → ((d.describeElement v).run w).1 = none) ∧
      ∀ own r, d.recipe = some own → ((d.describeElement v).run w).1 = some r →
        (w.storeOf v.domain).WholeElement own v.id r) ∧
    (∀ v : TypeView, v.Genuine w →
      (((d.describeType v).run w).1.isSome ↔
        (d.recipe.isSome ∧ d.same v.domain) ∧ (w.storeOf v.domain).DescribableType v.id) ∧
      ∀ own r, d.recipe = some own → ((d.describeType v).run w).1 = some r →
        (w.storeOf v.domain).WholeType own v.id r) ∧
    (d.recipe = none → (∀ a : AnnotationView, ((d.describeAnnotationUse a).run w).1 = none) ∧
      ∀ home a, ((d.describeValue home a).run w).1 = none) := by
  refine ⟨fun v genuine => ?_, fun v genuine => ?_, fun nameless => ⟨fun a => ?_, fun home a => ?_⟩⟩
  · have h := genuine.reachable.sound
    have stranger (foreign : d.recipeFor? v.domain = none) : ((d.describeElement v).run w).1 = none := by
      rw [Domain.describeElement, foreign]
      rfl
    refine ⟨Domain.isSome_of_described stranger fun own mine => ?_, fun k kind isLocal => ?_, fun own r recipe some_ => ?_⟩
    · rw [genuine.described mine]
      exact h.recipe_isSome own genuine.there
    · cases mine : d.recipeFor? v.domain with
      | none => exact stranger mine
      | some own =>
        obtain ⟨slot, found, rfl⟩ := kind?_eq_some_iff.mp kind
        rw [genuine.described mine]
        exact not_recipe_of_local found isLocal
    · cases mine : d.recipeFor? v.domain with
      | none => cases (stranger mine).symm.trans some_
      | some own' =>
        cases recipe.symm.trans (Domain.recipeFor?_eq_some.mp mine).1
        rw [genuine.described mine] at some_
        exact h.whole_element some_
  · have h := genuine.reachable.sound
    have stranger (foreign : d.recipeFor? v.domain = none) : ((d.describeType v).run w).1 = none := by
      rw [Domain.describeType, foreign]
      rfl
    refine ⟨Domain.isSome_of_described stranger fun own mine => ?_, fun own r recipe some_ => ?_⟩
    · rw [genuine.described mine]
      exact h.typeRecipe_iff own genuine.there
    · cases mine : d.recipeFor? v.domain with
      | none => cases (stranger mine).symm.trans some_
      | some own' =>
        cases recipe.symm.trans (Domain.recipeFor?_eq_some.mp mine).1
        rw [genuine.described mine] at some_
        exact h.whole_type genuine.there some_
  · have foreign : d.recipeFor? a.domain = none := by simp [Domain.recipeFor?, nameless]
    rw [Domain.describeAnnotationUse, foreign]
    rfl
  · rw [Domain.describeValue, nameless]
    rfl

/-- The method of the sample, seen through a domain that has a recipe. -/
theorem put_describable :
    let d : Domain := { store := 0, recipe := some .runtime }
    ((d.describeElement ⟨d, ⟨5⟩, 0⟩).run { stores := #[completeSample] }).1.isSome := by
  intro d
  have unseen : ((ElementView.seen? ⟨d, ⟨5⟩, 0⟩).run { stores := #[completeSample] }).1 = none := rfl
  have genuine : ElementView.Genuine ⟨d, ⟨5⟩, 0⟩ { stores := #[completeSample] } :=
    ⟨reachable_completeSample, completeSample_has_element (by decide), fun r seen => by rw [unseen] at seen; cases seen⟩
  have own : completeSample.parameters ⟨5⟩ = [⟨6⟩] := by decide +kernel
  have erased : (completeSample.erasedParameter ⟨6⟩).1 = .primitive .int ∧
      (completeSample.erasedParameter ⟨6⟩).2.shape (.primitive .int) = .primitive .int := by decide +kernel
  have alone (q : TypeId) (spells : (completeSample.erasedParameter ⟨6⟩).2.Spells (.primitive .int) q) :
      q = .primitive .int := by
    rcases spells.cases_head with same | ⟨p, part, _⟩
    · exact same.symm
    · rw [erased.2] at part
      cases part
  have describable : completeSample.DescribableElement ⟨5⟩ := by
    refine .executable (k := .method) (by decide +kernel) rfl fun p mem => ?_
    rw [own] at mem
    cases List.mem_singleton.mp mem
    rw [erased.1]
    refine .intro (fun q spells => ?_) fun q e upper spells => ?_
    · rw [alone q spells, erased.2]
      decide
    · rw [alone q spells, erased.2]
      nofun
  exact ((describable_exactly d { stores := #[completeSample] }).1 _ genuine).1.mpr ⟨⟨rfl, by decide⟩, describable⟩

end views

end Nominal
