import Nominal.Proofs.Recipe.Describing
import Nominal.Proofs.Recipe.Distinguishing
import Nominal.Proofs.Store.Reachable
/-!
Recipes as keys. Types that are the same have one recipe, and where siblings can be told apart types with one
recipe are the same: nothing that a recipe is made of is lost in it.
-/

namespace Nominal

namespace TypeTree

variable {own : Recipe} {f : ElementId → Option Recipe}

theorem isNone_of_same {a b : TypeTree} (same : a.same b) : a.isNone = b.isNone := by
  cases a <;> cases b <;> simp_all [TypeTree.same, isNone]

mutual

theorem recipe_of_same : (a b : TypeTree) → a.same b → a.recipe own f = b.recipe own f
  | primitive _, b, h | noType _, b, h | null, b, h | error _, b, h | typeVariable _, b, h => by
    cases b <;> simp_all [same]
  | array a, b, h => by
    cases b <;> simp only [same, reduceCtorEq] at h
    rw [recipe, recipe, recipe_of_same a _ h]
  | declared a e as, b, h => by
    cases b <;> simp only [same, reduceCtorEq, Bool.and_eq_true, beq_iff_eq] at h
    obtain ⟨⟨rfl, outer⟩, rest⟩ := h
    rw [recipe, recipe, isNone_of_same outer, recipe_of_same a _ outer, recipes_of_same as _ rest]
  | wildcard u l, b, h => by
    cases b <;> simp only [same, reduceCtorEq, Bool.and_eq_true] at h
    rw [recipe, recipe, optRecipe_of_same u _ h.1, optRecipe_of_same l _ h.2]
  | executable .., b, h | union _, b, h | intersection _, b, h => by
    cases b <;> simp_all [same, recipe]

theorem recipes_of_same : (as bs : List TypeTree) → sameAll as bs → recipes own f as = recipes own f bs
  | [], bs, h => by cases bs <;> simp_all [sameAll]
  | a :: as, bs, h => by
    cases bs <;> simp only [sameAll, reduceCtorEq, Bool.and_eq_true] at h
    rw [recipes, recipes, recipe_of_same a _ h.1, recipes_of_same as _ h.2]

theorem optRecipe_of_same : (a b : Option TypeTree) → sameOpt a b → optRecipe own f a = optRecipe own f b
  | .none, b, h => by cases b <;> simp_all [sameOpt]
  | some a, b, h => by
    cases b <;> simp only [sameOpt, reduceCtorEq] at h
    rw [optRecipe, optRecipe, recipe_of_same a _ h]

end

end TypeTree

theorem Recipe.within_injective {own : Recipe} {f g : Factory} {as bs : List Recipe}
    (same : own.within f as = own.within g bs) : f = g ∧ as = bs := by
  cases same
  exact ⟨rfl, rfl⟩

theorem Recipe.ofItems_injective {as bs : List Recipe} (same : ofItems as = ofItems bs) : as = bs := by
  have items (rs : List Recipe) : (ofItems rs).args = rs := by
    rw [ofItems]
    split <;> rfl
  rw [← items as, same, items]

namespace TypeTree

variable {own : Recipe} {f : ElementId → Option Recipe}

theorem recipe_ne_null {t : TypeTree} : t.recipe own f ≠ some .null := by
  intro nothing
  cases t with
  | noType n => cases n <;> simp [recipe, Recipe.within] at nothing
  | _ => simp [recipe, Option.bind_eq_some_iff, Recipe.within] at nothing

def factory? : TypeTree → Option Factory
  | primitive _ => some .primitiveType
  | noType _ => some .noType
  | null => some .nullType
  | array _ => some .arrayType
  | declared .. => some .declaredType
  | typeVariable _ => some .typeVariable
  | wildcard .. => some .wildcardType
  | error _ | executable .. | union _ | intersection _ => .none

theorem factory_of_recipe {t : TypeTree} {r : Recipe} (recipe : t.recipe own f = some r) :
    t.factory? = r.factory? := by
  cases t with
  | noType n => cases n <;> cases recipe <;> rfl
  | array a =>
    obtain ⟨_, _, ⟨⟩⟩ := Option.bind_eq_some_iff.mp recipe
    rfl
  | declared o e args =>
    obtain ⟨_, _, recipe⟩ := Option.bind_eq_some_iff.mp recipe
    obtain ⟨_, _, recipe⟩ := Option.bind_eq_some_iff.mp recipe
    obtain ⟨_, _, ⟨⟩⟩ := Option.bind_eq_some_iff.mp recipe
    rfl
  | typeVariable e =>
    obtain ⟨_, _, ⟨⟩⟩ := Option.bind_eq_some_iff.mp recipe
    rfl
  | wildcard upper lower =>
    obtain ⟨_, _, recipe⟩ := Option.bind_eq_some_iff.mp recipe
    obtain ⟨_, _, ⟨⟩⟩ := Option.bind_eq_some_iff.mp recipe
    rfl
  | _ => cases recipe <;> rfl

def Apart (own : Recipe) (f : ElementId → Option Recipe) (t u : TypeTree) : Prop :=
  ∀ r, t.recipe own f = some r → u.recipe own f = some r → t = u

theorem recipes_apart {as bs : List TypeTree} (each : ∀ a ∈ as, ∀ b ∈ bs, Apart own f a b) {rs : List Recipe}
    (first : recipes own f as = some rs) (second : recipes own f bs = some rs) : as = bs := by
  induction as generalizing bs rs with
  | nil =>
    cases first
    cases bs with
    | nil => rfl
    | cons b bs =>
      obtain ⟨_, _, rest⟩ := Option.bind_eq_some_iff.mp second
      obtain ⟨_, _, ⟨⟩⟩ := Option.bind_eq_some_iff.mp rest
  | cons a as ih =>
    obtain ⟨r, recipe, rest⟩ := Option.bind_eq_some_iff.mp first
    obtain ⟨rs, recipes, ⟨⟩⟩ := Option.bind_eq_some_iff.mp rest
    cases bs with
    | nil => cases second
    | cons b bs =>
      obtain ⟨r', recipe', rest⟩ := Option.bind_eq_some_iff.mp second
      obtain ⟨rs', recipes', ⟨⟩⟩ := Option.bind_eq_some_iff.mp rest
      rw [each a (by simp) b (by simp) r recipe recipe',
        ih (fun a mem b mem' => each a (by simp [mem]) b (by simp [mem'])) recipes recipes']

theorem optRecipe_apart {a b : Option TypeTree} (each : ∀ t ∈ a, ∀ u ∈ b, Apart own f t u) {r : Recipe}
    (first : optRecipe own f a = some r) (second : optRecipe own f b = some r) : a = b := by
  cases a with
  | none =>
    cases first
    cases b with
    | none => rfl
    | some b => exact absurd second recipe_ne_null
  | some a =>
    cases b with
    | none =>
      cases second
      exact absurd first recipe_ne_null
    | some b => rw [each a rfl b rfl r first second]

theorem apart_of_elements {used varied : ElementId → Prop}
    (distinct : ∀ d e r, used d ∧ used e ∨ varied d ∧ varied e → f d = some r → f e = some r → d = e)
    {n m : Nat} {t u : TypeTree} (inside : t.Within used varied n) (inside' : u.Within used varied m) :
    Apart own f t u := by
  intro r first second
  have form := (factory_of_recipe first).trans (factory_of_recipe second).symm
  -- Recipes that are equal begin with one factory, so the types are of one form and their parts have equal recipes.
  induction n generalizing m t u r with
  | zero => exact inside.elim
  | succ n ih =>
    obtain ⟨m, rfl⟩ : ∃ k, m = k + 1 := by
      cases m with
      | zero => exact inside'.elim
      | succ m => exact ⟨m, rfl⟩
    have part {t u : TypeTree} (within : t.Within used varied n) (within' : u.Within used varied m) :
        Apart own f t u := fun r first second =>
      ih within within' r first second ((factory_of_recipe first).trans (factory_of_recipe second).symm)
    cases t with
    | primitive p =>
      cases u <;> cases form
      rename_i q
      cases p <;> cases q <;> first | rfl | cases first.trans second.symm
    | noType k =>
      cases u <;> cases form
      rename_i l
      cases k <;> cases l <;> first | rfl | (cases first; done) | cases first.trans second.symm
    | null =>
      cases u <;> cases form
      rfl
    | array a =>
      cases u <;> cases form
      obtain ⟨r₁, recipe₁, ⟨⟩⟩ := Option.bind_eq_some_iff.mp first
      obtain ⟨r₂, recipe₂, ⟨⟩⟩ := Option.bind_eq_some_iff.mp second
      rw [part inside inside' r₁ recipe₁ recipe₂]
    | declared o e args =>
      cases u <;> cases form
      rename_i o' e' args'
      obtain ⟨use, around, arguments⟩ := inside
      obtain ⟨use', around', arguments'⟩ := inside'
      obtain ⟨r₁, recipe₁, rest⟩ := Option.bind_eq_some_iff.mp first
      obtain ⟨r₂, recipe₂, rest⟩ := Option.bind_eq_some_iff.mp rest
      obtain ⟨rs, recipes₁, ⟨⟩⟩ := Option.bind_eq_some_iff.mp rest
      obtain ⟨r₁', recipe₁', rest⟩ := Option.bind_eq_some_iff.mp second
      obtain ⟨r₂', recipe₂', rest⟩ := Option.bind_eq_some_iff.mp rest
      obtain ⟨rs', recipes₁', same⟩ := Option.bind_eq_some_iff.mp rest
      obtain ⟨_, same⟩ := Recipe.within_injective (Option.some.inj same)
      simp only [List.cons.injEq, and_true] at same
      obtain ⟨rfl, rfl, items⟩ := same
      cases Recipe.ofItems_injective items
      have outer : o = o' := by
        split at recipe₁ <;> split at recipe₁'
        · rw [eq_none_of_isNone ‹o.isNone›, eq_none_of_isNone ‹o'.isNone›]
        · cases recipe₁
          exact absurd recipe₁' recipe_ne_null
        · cases recipe₁'
          exact absurd recipe₁ recipe_ne_null
        · exact part around around' _ recipe₁ recipe₁'
      rw [outer, distinct e e' _ (.inl ⟨use, use'⟩) recipe₂ recipe₂',
        recipes_apart (fun a mem b mem' => part (arguments a mem) (arguments' b mem')) recipes₁ recipes₁']
    | typeVariable e =>
      cases u <;> cases form
      obtain ⟨r₁, recipe₁, ⟨⟩⟩ := Option.bind_eq_some_iff.mp first
      obtain ⟨r₂, recipe₂, ⟨⟩⟩ := Option.bind_eq_some_iff.mp second
      rw [distinct e _ r₁ (.inr ⟨inside, inside'⟩) recipe₁ recipe₂]
    | wildcard upper lower =>
      cases u <;> cases form
      obtain ⟨r₁, recipe₁, rest⟩ := Option.bind_eq_some_iff.mp first
      obtain ⟨r₂, recipe₂, ⟨⟩⟩ := Option.bind_eq_some_iff.mp rest
      obtain ⟨r₁', recipe₁', rest⟩ := Option.bind_eq_some_iff.mp second
      obtain ⟨r₂', recipe₂', ⟨⟩⟩ := Option.bind_eq_some_iff.mp rest
      rw [optRecipe_apart (fun a mem b mem' => part (inside.1 a mem) (inside'.1 b mem')) recipe₁ recipe₁',
        optRecipe_apart (fun a mem b mem' => part (inside.2 a mem) (inside'.2 b mem')) recipe₂ recipe₂']
    | _ => cases first

end TypeTree

namespace Store

variable {s : Store} {own r : Recipe} {d e : ElementId} {a b : Slot}

theorem Consistent.named_injective (h : s.Consistent) (first : s.named own d = some r)
    (second : s.named own e = some r) : d = e := by
  have means {e : ElementId} (named : s.named own e = some r) :
      s.meaning .plain (some own) r = some (.element e) := by
    obtain ⟨slot, found, _⟩ := Option.bind_eq_some_iff.mp named
    have kind : slot.kind.isQualified := by
      rw [Store.named, found, Option.bind_eq_bind, Option.bind_some] at named
      cases same : slot.kind <;> rw [same] at named <;> first | rfl | cases named
    obtain ⟨r', named', means⟩ := h.named_tells own found kind
    cases named.symm.trans named'
    exact means
  cases (means first).symm.trans (means second)
  rfl

theorem Sound.executable_injective (h : s.Sound) (signatures : ∀ d e, s.SharesSignature d e → d = e)
    (found : s.slot? d = some a) (found' : s.slot? e = some b) (executable : a.kind.isExecutable)
    (executable' : b.kind.isExecutable) (first : s.recipe own d = some r) (second : s.recipe own e = some r) :
    d = e := by
  obtain ⟨o, _, enclosing, _⟩ := (h.slots d a found).placed
    (ElementKind.isOwned_not_container (ElementKind.isOwned_of_executable executable))
  obtain ⟨o', _, enclosing', _⟩ := (h.slots e b found').placed
    (ElementKind.isOwned_not_container (ElementKind.isOwned_of_executable executable'))
  have type := h.owner_type found (ElementKind.isMember_of_executable executable) enclosing
  have type' := h.owner_type found' (ElementKind.isMember_of_executable executable') enclosing'
  rw [h.recipe_executable found executable enclosing, recipe_type type] at first
  rw [h.recipe_executable found' executable' enclosing', recipe_type type'] at second
  obtain ⟨r₁, recipe₁, rest⟩ := Option.bind_eq_some_iff.mp first
  obtain ⟨rs, recipes₁, ⟨⟩⟩ := Option.bind_eq_some_iff.mp rest
  obtain ⟨r₂, recipe₂, rest⟩ := Option.bind_eq_some_iff.mp second
  obtain ⟨rs', recipes₂, same⟩ := Option.bind_eq_some_iff.mp rest
  obtain ⟨_, same⟩ := Recipe.within_injective (Option.some.inj same)
  simp only [List.cons.injEq, and_true, Recipe.elementKind.injEq] at same
  obtain ⟨rfl, kind, name, items⟩ := same
  cases Recipe.ofItems_injective items
  cases h.named_injective recipe₁ recipe₂
  have simple : b.simpleName = a.simpleName := by
    have texts := (Recipe.within_injective name).2
    simpa using texts
  have alike : s.signature d = s.signature e := by
    refine TypeTree.recipes_apart (fun t mem u mem' => ?_) recipes₁ recipes₂
    obtain ⟨n, inside⟩ := h.signature_within mem
    obtain ⟨m, inside'⟩ := h.signature_within mem'
    refine TypeTree.apart_of_elements (fun d e r use first second => ?_) inside inside'
    exact h.named_injective first second
  have kind₁ : s.kind? d = some a.kind := kind?_eq_some_iff.mpr ⟨a, found, rfl⟩
  have kind₂ : s.kind? e = some b.kind := kind?_eq_some_iff.mpr ⟨b, found', rfl⟩
  refine signatures d e ⟨a, b, found, found', enclosing.trans enclosing'.symm, simple.symm, executable,
    kind.symm, ?_⟩
  have result : (StoreM.sameErasedParameters d e s).1 = _ :=
    (StoreM.sameErasedParameters_ensures h kind₁ kind₂ executable executable').2
  rw [result, alike]
  exact TypeTree.sameAll_refl _

theorem type_factory (type : s.IsType e) (recipe : s.recipe own e = some r) :
    r.factory? = some .typeElement := by
  obtain ⟨k, kind, isType⟩ := type
  obtain ⟨slot, found, rfl⟩ := kind?_eq_some_iff.mp kind
  rw [recipe_type ⟨_, kind, isType⟩, named, found, Option.bind_eq_bind, Option.bind_some] at recipe
  cases same : slot.kind <;> rw [same] at recipe isType <;> cases isType <;> cases recipe <;> rfl

theorem Sound.executable_factory (h : s.Sound) (found : s.slot? e = some a)
    (executable : a.kind.isExecutable) (recipe : s.recipe own e = some r) :
    r.factory? = some .executableElement := by
  obtain ⟨o, _, enclosing, _⟩ := (h.slots e a found).placed
    (ElementKind.isOwned_not_container (ElementKind.isOwned_of_executable executable))
  rw [h.recipe_executable found executable enclosing] at recipe
  obtain ⟨_, _, rest⟩ := Option.bind_eq_some_iff.mp recipe
  obtain ⟨_, _, ⟨⟩⟩ := Option.bind_eq_some_iff.mp rest
  rfl

theorem Sound.generic_injective (h : s.Sound) (signatures : ∀ d e, s.SharesSignature d e → d = e)
    (found : s.slot? d = some a) (found' : s.slot? e = some b) (generic : a.kind.isParameterizable)
    (generic' : b.kind.isParameterizable) (first : s.recipe own d = some r)
    (second : s.recipe own e = some r) : d = e := by
  simp only [ElementKind.isParameterizable, Bool.or_eq_true] at generic generic'
  have type {e : ElementId} {a : Slot} (found : s.slot? e = some a) (isType : a.kind.isType) : s.IsType e :=
    ⟨a.kind, kind?_eq_some_iff.mpr ⟨a, found, rfl⟩, isType⟩
  rcases generic with isType | executable <;> rcases generic' with isType' | executable'
  · rw [recipe_type (type found isType)] at first
    rw [recipe_type (type found' isType')] at second
    exact h.named_injective first second
  · cases (type_factory (type found isType) first).symm.trans (h.executable_factory found' executable' second)
  · cases (type_factory (type found' isType') second).symm.trans (h.executable_factory found executable first)
  · exact h.executable_injective signatures found found' executable executable' first second

theorem Sound.typeParameter_injective (h : s.Sound) (signatures : ∀ d e, s.SharesSignature d e → d = e)
    (names : ∀ d e, s.SharesName .typeParameter d e → d = e) (kind : s.IsTypeParameter d)
    (kind' : s.IsTypeParameter e) (first : s.recipe own d = some r) (second : s.recipe own e = some r) :
    d = e := by
  obtain ⟨a, found, same⟩ := kind?_eq_some_iff.mp kind
  obtain ⟨b, found', same'⟩ := kind?_eq_some_iff.mp kind'
  obtain ⟨o, _, enclosing, _, kindₒ, admits⟩ := (h.slots d a found).placed (by rw [same]; decide)
  obtain ⟨o', _, enclosing', _, kindₒ', admits'⟩ := (h.slots e b found').placed (by rw [same']; decide)
  obtain ⟨c, foundₒ, rfl⟩ := kind?_eq_some_iff.mp kindₒ
  obtain ⟨c', foundₒ', rfl⟩ := kind?_eq_some_iff.mp kindₒ'
  have picked : Selection.typeParameter.picks a.kind := by rw [same]; rfl
  have picked' : Selection.typeParameter.picks b.kind := by rw [same']; rfl
  rw [h.recipe_selected .typeParameter found picked enclosing] at first
  rw [h.recipe_selected .typeParameter found' picked' enclosing'] at second
  obtain ⟨r₁, recipe₁, ⟨⟩⟩ := Option.bind_eq_some_iff.mp first
  obtain ⟨r₂, recipe₂, equal⟩ := Option.bind_eq_some_iff.mp second
  obtain ⟨_, equal⟩ := Recipe.within_injective (Option.some.inj equal)
  simp only [List.cons.injEq, and_true] at equal
  obtain ⟨rfl, name⟩ := equal
  have simple : b.simpleName = a.simpleName := by simpa using (Recipe.within_injective name).2
  rw [same] at admits
  rw [same'] at admits'
  cases h.generic_injective signatures foundₒ foundₒ' admits admits' recipe₁ recipe₂
  exact names d e ⟨a, b, found, found', enclosing.trans enclosing'.symm, simple.symm, picked, picked'⟩

/-- Where type parameters and executables can be told apart from their siblings, types with one recipe are
the same. -/
theorem Sound.sameType_of_typeRecipe (h : s.Sound) (signatures : ∀ d e, s.SharesSignature d e → d = e)
    (names : ∀ d e, s.SharesName .typeParameter d e → d = e) {t u : TypeId} (known : s.HasType t)
    (known' : s.HasType u) (first : s.typeRecipe own t = some r) (second : s.typeRecipe own u = some r) :
    s.sameType t u := by
  have equal : s.tree t = s.tree u := by
    refine TypeTree.apart_of_elements (fun d e r use first second => ?_)
      (h.tree_within known (Nat.lt_succ_self _)) (h.tree_within known' (Nat.lt_succ_self _)) r first second
    rcases use with ⟨type, type'⟩ | ⟨kind, kind'⟩
    · rw [recipe_type type] at first
      rw [recipe_type type'] at second
      exact h.named_injective first second
    · exact h.typeParameter_injective signatures names kind kind' first second
  exact h.same_of_tree equal

theorem Consistent.typeRecipe_of_sameType (h : s.Consistent) {t u : TypeId} (same : s.sameType t u) :
    s.typeRecipe own t = s.typeRecipe own u := by
  rw [sameType_tree h] at same
  exact TypeTree.recipe_of_same _ _ same

/-- A recipe is a key for what is the same: types that are the same are described alike or not at all, and where
type parameters and executables can be told apart from their siblings only the same types are described alike. -/
theorem recipe_is_key (reachable : s.Reachable) {t u : TypeId} (known : s.HasType t) (known' : s.HasType u)
    {x y : Option Recipe} {s₁ s₂ : Store} (first : (Describing.type own t).run s = (x, s₁))
    (second : (Describing.type own u).run s₁ = (y, s₂)) :
    (s.sameType t u → x = y) ∧
      ((∀ d e, s.SharesName .typeParameter d e → d = e) → (∀ d e, s.SharesSignature d e → d = e) →
        ∀ r, x = some r → y = some r → s.sameType t u) := by
  have h := reachable.sound
  obtain ⟨move, rfl⟩ := Ensures.result (Describing.type_finds h.stays known) first
  obtain ⟨_, rfl⟩ := Ensures.result (Describing.type_finds move known') second
  exact ⟨h.typeRecipe_of_sameType, fun names signatures r => h.sameType_of_typeRecipe signatures names known known'⟩

/-- Two usages of the sample's generic type by its variable are described alike, and are the same. -/
theorem usage_recipe_is_key : ∃ r s₁ s₂, (Describing.type .runtime ⟨15⟩).run withUsage = (some r, s₁) ∧
    (Describing.type .runtime ⟨17⟩).run s₁ = (some r, s₂) ∧ withUsage.sameType ⟨15⟩ ⟨17⟩ := by
  have there {i : Nat} (small : i ≤ 17) : withUsage.HasType ⟨i⟩ :=
    Nat.lt_of_le_of_lt small (show 17 < withUsage.types.size by decide +kernel)
  have apart (e : ElementId) (found : withUsage.HasElement e) : withUsage.Distinguishable e :=
    (by decide +kernel : ∀ i < withUsage.elements.size, withUsage.Distinguishable ⟨i⟩) e.index found
  have present {e : ElementId} {slot : Slot} (found : withUsage.slot? e = some slot) : withUsage.HasElement e :=
    has_element_iff.mpr ⟨slot, found⟩
  have described : ((Describing.type .runtime ⟨15⟩).run withUsage).1.isSome := by decide +kernel
  obtain ⟨r, recipe⟩ := Option.isSome_iff_exists.mp described
  have key := recipe_is_key reachable_withUsage (there (i := 15) (by decide)) (there (i := 17) (by decide))
    (leaves recipe) Prod.mk.eta.symm
  have again := (key.1 (by decide +kernel)).symm
  refine ⟨r, _, _, leaves recipe, leaves again, key.2 ?_ ?_ r rfl again⟩
  · intro d e shares
    obtain ⟨_, b, _, found, _⟩ := id shares
    exact (apart e (present found)).name .typeParameter d shares
  · intro d e shares
    obtain ⟨_, b, _, found, _⟩ := id shares
    exact (apart e (present found)).signature d shares

end Store

end Nominal
