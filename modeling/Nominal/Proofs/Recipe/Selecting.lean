import Nominal.Proofs.Recipe.Canonical
/-!
Elements that are found again. A module, package or type is found under its name; what an element owns is
found in it, provided that the element itself is found and the search comes upon nothing else before.
-/

namespace Nominal

/-- What is looked up in an element by its name alone. -/
inductive Selection where
  | value | component | typeParameter

namespace Selection

def factory : Selection → Factory
  | value => .variableElement
  | component => .recordComponentElement
  | typeParameter => .typeParameterElement

def picks : Selection → ElementKind → Bool
  | value => ElementKind.isValue
  | component => (· == .recordComponent)
  | typeParameter => (· == .typeParameter)

theorem isOwned {sel : Selection} {k : ElementKind} (picked : sel.picks k) : k.isOwned := by
  revert picked
  cases sel <;> cases k <;> decide

theorem not_executable {sel : Selection} {k : ElementKind} (picked : sel.picks k) : ¬ k.isExecutable := by
  revert picked
  cases sel <;> cases k <;> decide

theorem unique {sel sel' : Selection} {k : ElementKind} (first : sel.picks k) (second : sel'.picks k) : sel' = sel := by
  revert first second
  cases sel <;> cases sel' <;> cases k <;> first | exact fun _ _ => rfl | nofun

end Selection

theorem ElementKind.isOwned_cases {k : ElementKind} (owned : k.isOwned) :
    k.isExecutable ∨ ∃ sel : Selection, sel.picks k := by
  have all : k.isExecutable ∨ Selection.value.picks k ∨ Selection.component.picks k ∨
      Selection.typeParameter.picks k := by
    revert owned
    cases k <;> decide
  exact all.imp id fun picked => picked.elim (⟨_, ·⟩) (·.elim (⟨_, ·⟩) (⟨_, ·⟩))

namespace Store

variable {s : Store} {own : Recipe} {e o : ElementId} {slot : Slot} {name : String}

theorem recipe_qualified (found : s.slot? e = some slot) (kind : slot.kind.isQualified) :
    s.recipe own e = s.named own e := by
  rw [recipe_member found ?_, memberRecipe_qualified found kind]
  constructor <;> rintro same <;> rw [same] at kind <;> cases kind

theorem recipe_type (type : s.IsType o) : s.recipe own o = s.named own o := by
  obtain ⟨k, kind, isType⟩ := type
  obtain ⟨slot, found, rfl⟩ := kind?_eq_some_iff.mp kind
  exact recipe_qualified found (by simp [ElementKind.isQualified, isType])

theorem Sound.owner_recipe (h : s.Sound) (own : Recipe) (found : s.slot? e = some slot) (owned : slot.kind.isOwned)
    (enclosing : slot.enclosing = some o) : s.memberRecipe own o = s.recipe own o := by
  obtain ⟨o', k, enclosing', _, kind, admits⟩ :=
    (h.slots e slot found).placed (ElementKind.isOwned_not_container owned)
  cases enclosing.symm.trans enclosing'
  obtain ⟨slotₒ, foundₒ, rfl⟩ := kind?_eq_some_iff.mp kind
  refine (recipe_member foundₒ ?_).symm
  revert owned admits
  generalize slot.kind = k
  cases slotₒ.kind <;> cases k <;> decide

theorem Sound.owner_type (h : s.Sound) (found : s.slot? e = some slot) (member : slot.kind.isMember)
    (enclosing : slot.enclosing = some o) : s.IsType o := by
  have owned : slot.kind.isOwned := by simp [ElementKind.isOwned, member]
  obtain ⟨o', k, enclosing', _, kind, admits⟩ :=
    (h.slots e slot found).placed (ElementKind.isOwned_not_container owned)
  cases enclosing.symm.trans enclosing'
  exact ⟨k, kind, ElementKind.isType_of_admits admits member⟩

theorem Sound.recipe_selected (h : s.Sound) (sel : Selection) (found : s.slot? e = some slot)
    (picked : sel.picks slot.kind) (enclosing : slot.enclosing = some o) : s.recipe own e = (do
      let r ← s.recipe own o
      return own.within sel.factory [r, own.ofName slot.simpleName]) := by
  have owner := h.owner_recipe own found (sel.isOwned picked) enclosing
  have type (member : slot.kind.isMember) : s.named own o = s.recipe own o :=
    (recipe_type (h.owner_type found member enclosing)).symm
  cases sel with
  | value =>
    by_cases parameter : slot.kind = .parameter
    · rw [recipe_parameter found parameter, enclosing, Option.bind_some, owner]
      rfl
    · have member : slot.kind = .field ∨ slot.kind = .enumConstant := by
        revert picked parameter
        cases slot.kind <;> decide
      rw [recipe_member found (by rcases member with same | same <;> simp [same]),
        memberRecipe_variable found member, enclosing, Option.bind_some,
        type (by rcases member with same | same <;> rw [same] <;> rfl)]
      rfl
  | component =>
    have same : slot.kind = .recordComponent := eq_of_beq picked
    rw [recipe_member found (by simp [same]), memberRecipe_component found same, enclosing, Option.bind_some,
      type (by rw [same]; rfl)]
    rfl
  | typeParameter =>
    rw [recipe_typeParameter found (eq_of_beq picked), enclosing, Option.bind_some, owner]
    rfl

theorem Sound.recipe_executable (h : s.Sound) (found : s.slot? e = some slot)
    (kind : slot.kind.isExecutable) (enclosing : slot.enclosing = some o) : s.recipe own e = (do
      let r ← s.recipe own o
      let parameters ← TypeTree.recipes own (s.named own) (s.signature e)
      return own.within .executableElement
        [r, .elementKind slot.kind, own.ofName slot.simpleName, .ofItems parameters]) := by
  have type := h.owner_type found (ElementKind.isMember_of_executable kind) enclosing
  rw [recipe_member found (by constructor <;> rintro same <;> rw [same] at kind <;> cases kind),
    memberRecipe_executable found kind, enclosing, Option.bind_some, recipe_type type]

theorem selected_means (sel : Selection) {r : Recipe}
    (owner : s.meaning .plain (some own) r = some (.element o)) (name : String) :
    s.meaning .plain (some own) (own.within sel.factory [r, own.ofName name]) =
      .element <$> s.lookup o sel.picks name := by
  have text := name_of_meaning (meaning_ofName s .plain own name)
  have build (a b : Reading) : s.built .plain sel.factory [a, b] = (do
      let o ← a.element?
      let n ← b.name?
      .element <$> s.lookup o sel.picks n) := by
    cases sel <;> rfl
  rw [meaning_within (by cases sel <;> rfl) (by cases sel <;> rfl), List.map_cons, List.map_singleton, build,
    element_of_meaning owner, text]
  rfl

theorem executable_means {r parameters : Recipe} {k : ElementKind} {ts : List TypeTree}
    (owner : s.meaning .plain (some own) r = some (.element o)) (executable : k.isExecutable) (name : String)
    (list : s.meaning .plain (some own) parameters = some (.types ts)) :
    s.meaning .plain (some own) (own.within .executableElement [r, .elementKind k, own.ofName name, parameters]) =
      .element <$> s.overload o k name (ts.map s.erased) := by
  have text := name_of_meaning (meaning_ofName s .plain own name)
  have kind : (s.reading .plain (some own) (.elementKind k)).elementKind? = some k := rfl
  rw [meaning_within rfl rfl]
  simp [built, element_of_meaning owner, kind, text, types_of_meaning list, executable]

theorem Consistent.named_tells (h : s.Consistent) (own : Recipe) (found : s.slot? e = some slot)
    (kind : slot.kind.isQualified) : s.Tells own (s.named own) e := by
  have text := name_of_meaning (meaning_ofName s .plain own slot.qualifiedName)
  have module (same : slot.kind = .module) : s.module? slot.qualifiedName = some e :=
    (h.modules _ e).mpr ⟨slot, found, by simp [same], rfl⟩
  have package (same : slot.kind = .package) : s.package? slot.qualifiedName = some e :=
    (h.packages _ e).mpr ⟨slot, found, by simp [same], rfl⟩
  have type (isType : slot.kind.isType) : s.typeElement? slot.qualifiedName = some e :=
    (h.typeElements _ e).mpr ⟨slot, found, isType, rfl⟩
  rw [Tells, Answers, named, found, Option.bind_eq_bind, Option.bind_some]
  cases same : slot.kind <;> rw [same] at kind type
  case module => exact ⟨_, rfl, by rw [meaning_within rfl rfl]; simp [built, text, module same]⟩
  case package => exact ⟨_, rfl, by rw [meaning_within rfl rfl]; simp [built, text, package same]⟩
  case classType | interfaceType | enumType | recordType | annotationType =>
    exact ⟨_, rfl, by rw [meaning_within rfl rfl]; simp [built, text, type rfl]⟩
  all_goals cases kind

theorem Consistent.type_tells (h : s.Consistent) (own : Recipe) (type : s.IsType e) : s.Tells own (s.named own) e := by
  obtain ⟨k, kind, isType⟩ := type
  obtain ⟨slot, found, rfl⟩ := kind?_eq_some_iff.mp kind
  exact h.named_tells own found (by simp [ElementKind.isQualified, isType])

theorem Sound.selected_tells (h : s.Sound) (sel : Selection) (found : s.slot? e = some slot)
    (picked : sel.picks slot.kind) (enclosing : slot.enclosing = some o)
    (owner : s.Tells own (s.recipe own) o) (first : s.lookup o sel.picks slot.simpleName = some e) :
    s.Tells own (s.recipe own) e := by
  obtain ⟨r, recipe, means⟩ := owner
  refine ⟨own.within sel.factory [r, own.ofName slot.simpleName], ?_, ?_⟩
  · rw [h.recipe_selected sel found picked enclosing, recipe]
    rfl
  · rw [selected_means sel means, first]
    rfl

theorem signature_erased (e : ElementId) : (s.signature e).map s.erased = s.signature e := by
  rw [signature, List.map_map]
  exact List.map_congr_left fun p _ => TypeTree.erase_idem s.context_fits (Nat.le_refl _) _

theorem Closed.means {t : TypeTree} (h : s.Consistent) (own : Recipe) (closed : s.Closed t) :
    ∃ r, t.recipe own (s.named own) = some r ∧ s.meaning .plain (some own) r = some (.type t) :=
  Formed.means closed (fun _ => h.type_tells own) nofun

theorem Sound.executable_tells (h : s.Sound) (found : s.slot? e = some slot)
    (kind : slot.kind.isExecutable) (closed : ∀ t ∈ s.signature e, s.Closed t)
    (first : ∀ o, slot.enclosing = some o →
      s.overload o slot.kind slot.simpleName (s.signature e) = some e) : s.Tells own (s.recipe own) e := by
  have member := ElementKind.isMember_of_executable kind
  obtain ⟨o, _, enclosing, _⟩ := (h.slots e slot found).placed
    (ElementKind.isOwned_not_container (ElementKind.isOwned_of_executable kind))
  have type := h.owner_type found member enclosing
  obtain ⟨r, recipe, means⟩ := h.type_tells own type
  obtain ⟨rs, recipes, list⟩ := recipes_meaning fun t mem => Closed.means h.toConsistent own (closed t mem)
  refine ⟨own.within .executableElement
    [r, .elementKind slot.kind, own.ofName slot.simpleName, .ofItems rs], ?_, ?_⟩
  · rw [h.recipe_executable found kind enclosing, recipe_type type, recipe, recipes]
    rfl
  · rw [executable_means means kind _ list, signature_erased, first o enclosing]
    rfl

end Store

end Nominal
