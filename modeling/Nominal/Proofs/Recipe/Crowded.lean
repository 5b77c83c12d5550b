import Nominal.Proofs.Interning
import Nominal.Proofs.Recipe.Annotations
import Nominal.Proofs.Recipe.Key
import Nominal.Proofs.Recipe.Portable
/-!
Recipes where every key is taken. A name that comes to such a table gets the key of another name, so what goes by it
is not found: only elements come back whose names were there before, and only types that are made of such elements.
Everything that is known of recipes coming back therefore takes a table with a key for every name.
-/

namespace Nominal

def Slot.lookupName (slot : Slot) : String := if slot.kind.isOwned then slot.simpleName else slot.qualifiedName

open Store StoreM Rebuilding

namespace Store

def ListedIn (s : Store) (t : NameTable) (e : ElementId) : Prop :=
  ∃ slot, s.slot? e = some slot ∧ slot.lookupName ∈ t.toList

/-- The name of the element was not asked for, and none of the numerals is this name. -/
def Unheard (s : Store) (e : ElementId) : Prop := (s.slot? e).any fun slot =>
  slot.lookupName ∉ s.names.toList ∧ ¬ slot.lookupName.toList.all Char.isDigit

instance (s : Store) (e : ElementId) : Decidable (s.Unheard e) := inferInstanceAs (Decidable (_ = true))

variable {s s' s₁ s₂ : Store} {t : NameTable} {lex : Lexicon} {own d : Recipe} {e : ElementId} {slot : Slot}

section crowding

/-- The store after every numeral was asked for that there is a key for. -/
@[irreducible] def crowded (s : Store) : Store := s.asked ((NameTable.numerals UInt32.size).map .internName)

theorem names_asked (s : Store) (names : List String) :
    (s.asked (names.map .internName)).names = (s.names.internAll names).2 := by
  induction names generalizing s with
  | nil => rfl
  | cons name rest ih => exact ih _

theorem slot?_asked (s : Store) (names : List String) (e : ElementId) :
    (s.asked (names.map .internName)).slot? e = s.slot? e := by
  induction names generalizing s with
  | nil => rfl
  | cons name rest ih => exact ih _

theorem crowded_eq (s : Store) : s.crowded = s.asked ((NameTable.numerals UInt32.size).map .internName) := by
  unfold crowded
  rfl

theorem names_crowded (s : Store) : s.crowded.names = (s.names.internAll (NameTable.numerals UInt32.size)).2 := by
  rw [crowded_eq, names_asked]

theorem slot?_crowded (s : Store) (e : ElementId) : s.crowded.slot? e = s.slot? e := by
  rw [crowded_eq, slot?_asked]

theorem crowded_moves (h : s.Sound) : s.LeadsTo s.crowded ∧ s.Advances s.crowded := by
  rw [crowded_eq]
  refine asked_moves h fun r mem => ?_
  obtain ⟨name, _, rfl⟩ := List.mem_map.mp mem
  exact ⟨rfl, nofun, nofun⟩

theorem Sound.crowded (h : s.Sound) : s.Advances s.crowded := (crowded_moves h).2

theorem crowded_full (s : Store) : s.crowded.names.Full := s.names_crowded ▸ NameTable.full_after_numerals s.names

theorem Reachable.crowded (reachable : s.Reachable) : s.crowded.Reachable :=
  reachable.trans (crowded_moves reachable.sound).1

theorem Sound.unlisted (h : s.Sound) (move : s.crowded.Advances s') (unheard : s.Unheard e) :
    ¬ s'.ListedIn s.crowded.names e := by
  rintro ⟨slot', found', mem⟩
  obtain ⟨slot, found, absent⟩ := (Option.any_eq_true _ _).mp unheard
  obtain ⟨children, state, found''⟩ := Grown.slot (Movement.trans h.crowded.toGrown move.toGrown) found
  cases found''.symm.trans found'
  obtain ⟨new, words⟩ := of_decide_eq_true absent
  rw [names_crowded] at mem
  refine words (List.all_eq_true.mpr fun c there => ?_)
  exact NameTable.isDigit_of_mem_numerals ((NameTable.mem_internAll.mp mem).resolve_left new) there

end crowding

theorem Sound.heard_of_answers (h : s.Sound) (found : s.slot? e = some slot)
    (answers : s.Answers lex own (s.recipe own) e) : lex slot.lookupName = some slot.lookupName := by
  by_cases owned : slot.kind.isOwned
  · rw [Slot.lookupName, if_pos owned]
    rcases ElementKind.isOwned_cases owned with executable | ⟨sel, picked⟩
    · obtain ⟨o, _, enclosing, _⟩ := (h.slots e slot found).placed (ElementKind.isOwned_not_container owned)
      exact (h.executable_of_answers found executable enclosing answers).1
    · exact (h.selected_of_answers found picked answers).1
  · rw [Slot.lookupName, if_neg owned]
    rcases ElementKind.isOwned_or owned with qualified | isLocal
    · rw [Answers, recipe_qualified found qualified] at answers
      exact h.toConsistent.heard_of_named found answers
    · obtain ⟨r, recipe, _⟩ := answers
      rw [recipe_member found (by revert isLocal; cases slot.kind <;> simp [ElementKind.isLocal]),
        memberRecipe_local found isLocal] at recipe
      cases recipe

section elements

variable (full : t.Full) (longer : t.names.toList <+: s.names.names.toList)

include full longer

theorem Advances.listed (move : s.Advances s') (there : s.HasElement e)
    (answers : s'.Answers s'.names.lexicon own (s'.recipe own) e) : s.ListedIn t e := by
  obtain ⟨slot, found⟩ := has_element_iff.mp there
  obtain ⟨children, state, found'⟩ := move.slot found
  have heard := move.sound.heard_of_answers found' answers
  exact ⟨slot, found, full.mem_of_taken (longer.trans move.grows.names) heard⟩

/-- Only an element with a name from the full table is followed back to itself. -/
theorem Sound.element_listed (h : s.Sound) (there : s.HasElement e)
    (described : (Describing.element own e).run s = (some d, s₁))
    (followed : (rebuildElement (some own) d).run s₁ = (.ok e, s₂)) : s.ListedIn t e := by
  obtain ⟨move, answers⟩ := h.answers_of_followed there described followed
  exact move.listed full longer there answers

/-- A constructor or method is followed back to itself only if the parameter types are usages of such elements. -/
theorem Sound.signature_listed (h : s.Sound) (executable : (s.kind? e).any (·.isExecutable))
    (described : (Describing.element own e).run s = (some d, s₁))
    (followed : (rebuildElement (some own) d).run s₁ = (.ok e, s₂)) {o : TypeTree} {c : ElementId}
    {args : List TypeTree} (mem : .declared o c args ∈ s.signature e) : s.ListedIn t c := by
  obtain ⟨k, kind, executable⟩ := (Option.any_eq_true _ _).mp executable
  obtain ⟨slot, found, rfl⟩ := kind?_eq_some_iff.mp kind
  have owned := ElementKind.isOwned_of_executable executable
  obtain ⟨move, answers⟩ := h.answers_of_followed (has_element_iff.mpr ⟨slot, found⟩) described followed
  obtain ⟨children, state, found'⟩ := move.slot found
  obtain ⟨o', _, enclosing, _⟩ := (h.slots e slot found).placed (ElementKind.isOwned_not_container owned)
  obtain ⟨_, us, same, each, _⟩ := move.sound.executable_of_answers found' executable enclosing answers
  rw [move.signature kind owned] at same each
  obtain ⟨u, stands, same⟩ := renders_of_mem each same _ mem
  obtain ⟨n, within⟩ := h.signature_within mem
  have type : s.IsType c := by
    cases n with
    | zero => exact within.elim
    | succ n => exact within.1
  have usage : s₂.Answers s₂.names.lexicon own (s₂.recipe own) c := by
    rw [Answers, recipe_type (isType_grows type move.moves.grows)]
    exact answers_of_same stands same
  exact move.listed full longer type.there usage

end elements

def objectRecipe : Recipe := Recipe.runtime.within .typeElement [Recipe.runtime.ofName "lang.Object"]

theorem object_unheard : sample.kind? ⟨1⟩ = some .classType ∧ sample.Unheard ⟨1⟩ ∧
    ((Describing.element .runtime ⟨1⟩).run sample).1 = some objectRecipe := by
  decide +kernel

/-- The top type of a program is described, can be told apart from everything else and is not found again, if as
many names were asked for before as there are keys. -/
theorem object_is_lost : ∃ d s₁ r s₂, sample.crowded.Reachable ∧ sample.crowded.HasElement ⟨1⟩ ∧
    (Describing.element .runtime ⟨1⟩).run sample.crowded = (some d, s₁) ∧
    (∀ o, sample.crowded.IsAbout ⟨1⟩ o → sample.crowded.Distinguishable o) ∧
    (∀ o k, sample.crowded.IsAbout ⟨1⟩ o → sample.crowded.kind? o = some k → k.isExecutable →
      sample.crowded.AcceptedParameters o) ∧
    (rebuildElement (some .runtime) d).run s₁ = (r, s₂) ∧ r ≠ .ok ⟨1⟩ := by
  have h := reachable_sample.sound
  obtain ⟨kind, unheard, found⟩ := object_unheard
  have type : sample.crowded.IsType ⟨1⟩ := isType_grows ⟨.classType, kind, rfl⟩ h.crowded.grows
  have described : ((Describing.element .runtime ⟨1⟩).run sample.crowded).1 = some objectRecipe :=
    h.crowded.describes_element (sample_has_element (by decide)) found
  refine ⟨objectRecipe, _, _, _, reachable_sample.crowded, type.there, leaves described,
    fun o about => isAbout_type type about ▸ distinguishable_of_type type, fun o k about kind executable => ?_,
    Prod.mk.eta.symm, fun found => ?_⟩
  · cases isAbout_type type about
    obtain ⟨k', kind', isType⟩ := type
    cases kind.symm.trans kind'
    exact absurd isType (ElementKind.isOwned_not_type (ElementKind.isOwned_of_executable executable))
  · have absent : ¬ sample.crowded.ListedIn sample.crowded.names ⟨1⟩ :=
      h.unlisted h.crowded.sound.stays unheard
    exact absent (h.crowded.sound.element_listed (crowded_full _) List.prefix_rfl type.there (leaves described)
      (leaves found))

section types

variable {u v : TypeId}

variable (full : t.Full) (longer : t.names.toList <+: s.names.names.toList)

include full longer

/-- Only a type that is made of elements with names from the full table is followed back to the same type. -/
theorem Sound.type_listed (h : s.Sound) {u v : TypeId} (known : s.HasType u)
    (described : (Describing.type own u).run s = (some d, s₁))
    (followed : (rebuildType (some own) d).run s₁ = (.ok v, s₂)) (same : s₂.sameType v u) :
    (s.tree u).Within (s.ListedIn t) (s.ListedIn t) (u.index + 1) := by
  obtain ⟨move, stands⟩ := h.renders_of_followed known described followed same
  refine (within_of_renders (h.tree_within known (Nat.lt_succ_self _)) stands).imp (fun e ⟨type, answers⟩ => ?_)
    fun e ⟨parameter, answers⟩ => ?_
  · exact move.listed full longer type.there answers
  · exact move.listed full longer (has_element_iff.mpr ((kind?_eq_some_iff.mp parameter).imp fun _ => And.left)) answers

theorem Sound.ported_listed (h : s.Sound) {u : TypeId} (followed : (rebuildType (some own) d).run s = (.ok u, s₁))
    (again : ((Describing.type own u).run s₁).1 = some d) :
    (s₁.tree u).Within (s₁.ListedIn t) (s₁.ListedIn t) (u.index + 1) := by
  obtain ⟨move, known, means⟩ := rebuildType_means h followed
  have stays := move.sound.stays
  obtain ⟨_, recipe⟩ := Describing.type_run move.sound known (leaves again)
  have within := within_of_renders (move.sound.tree_within known (Nat.lt_succ_self _)) ⟨d, recipe.symm, means⟩
  refine within.imp (fun e ⟨type, answers⟩ => ?_) fun e ⟨parameter, answers⟩ => ?_
  · exact stays.listed full (longer.trans move.grows.names) type.there answers
  · exact stays.listed full (longer.trans move.grows.names)
      (has_element_iff.mpr ((kind?_eq_some_iff.mp parameter).imp fun _ => And.left)) answers

/-- A recipe from elsewhere for a usage of an element comes to a type with this recipe only if that one's name is
there. -/
theorem Sound.usage_listed (h : s.Sound) (type : s.IsType e) {outer args r : Recipe} (recipe : s.recipe own e = some r)
    {u : TypeId} (followed : (rebuildType (some own) (own.within .declaredType [outer, r, args])).run s = (.ok u, s₁))
    (again : ((Describing.type own u).run s₁).1 = some (own.within .declaredType [outer, r, args])) :
    s.ListedIn t e := by
  have within := h.ported_listed full longer followed again
  obtain ⟨move, known, _⟩ := rebuildType_means h followed
  obtain ⟨_, described⟩ := Describing.type_run move.sound known (leaves again)
  have used := move.sound.tree_within known (Nat.lt_succ_self _)
  have factory := TypeTree.factory_of_recipe described.symm
  rw [typeRecipe] at described
  generalize s₁.tree u = tree at *
  cases tree with
  | declared o c us =>
    obtain ⟨_, _, described⟩ := Option.bind_eq_some_iff.mp described.symm
    obtain ⟨_, element, described⟩ := Option.bind_eq_some_iff.mp described
    obtain ⟨_, _, ⟨⟩⟩ := Option.bind_eq_some_iff.mp described
    have type' := isType_grows type move.moves.grows
    obtain rfl : c = e := by
      rw [recipe_type used.1] at element
      rw [← move.recipe type.there, recipe_type type'] at recipe
      exact move.sound.toConsistent.named_injective element recipe
    obtain ⟨slot, found⟩ := has_element_iff.mp type.there
    obtain ⟨children, state, found'⟩ := move.slot found
    obtain ⟨slot', again, mem⟩ := within.1
    cases found'.symm.trans again
    exact ⟨slot, found, mem⟩
  | _ => cases factory

end types

@[irreducible] def withObject : Store := ((declaredType none ⟨1⟩ []).run sample).2

def objectUsageRecipe : Recipe := Recipe.runtime.within .declaredType [.null, objectRecipe, .ofItems []]

theorem built_withObject (varied : ElementId → Prop) : withObject.Built varied ⟨13⟩ := by
  unfold withObject
  exact .declared reachable_sample (by simp) (by simp) (leaves (by decide +kernel))

theorem reachable_withObject : withObject.Reachable := by
  unfold withObject
  exact reachable_sample.declaredType (sample_has_element (by decide)) (by simp)

theorem withObject_holds : withObject.kind? ⟨1⟩ = some .classType ∧ withObject.Unheard ⟨1⟩ ∧
    withObject.shape? ⟨13⟩ = some (.declared .none ⟨1⟩ []) ∧
    ((Describing.element .runtime ⟨1⟩).run withObject).1 = some objectRecipe ∧
    ((Describing.type .runtime ⟨13⟩).run withObject).1 = some objectUsageRecipe ∧
    ∀ i < withObject.elements.size, withObject.IsType ⟨i⟩ → (typeParameterNames ⟨i⟩ withObject).1.Nodup := by
  decide +kernel

/-- The usage of the top type is described and not made again. -/
theorem usage_is_lost : ∃ d s₁ r s₂, withObject.crowded.Built (fun _ => False) ⟨13⟩ ∧
    (Describing.type .runtime ⟨13⟩).run withObject.crowded = (some d, s₁) ∧
    (rebuildType (some .runtime) d).run s₁ = (r, s₂) ∧ ¬ ∃ u, r = .ok u ∧ s₂.sameType u ⟨13⟩ := by
  have built := (built_withObject fun _ => False).later (crowded_moves reachable_withObject.sound).1
  obtain ⟨h, known, _⟩ := (built_withObject fun _ => False).formed
  obtain ⟨-, unheard, shape, -, described, -⟩ := withObject_holds
  have described : ((Describing.type .runtime ⟨13⟩).run withObject.crowded).1 = some objectUsageRecipe :=
    h.crowded.describes_type known described
  refine ⟨_, _, _, _, built, leaves described, Prod.mk.eta.symm, ?_⟩
  rintro ⟨u, made, same⟩
  have within := h.crowded.sound.type_listed (crowded_full _) List.prefix_rfl (h.crowded.grows.has_type known)
    (leaves described) (leaves made) same
  rw [h.crowded.tree known, h.toConsistent.tree_of_shape shape] at within
  exact h.unlisted h.crowded.sound.stays unheard within.1

/-- The recipe of the usage is followed to another type, if to any, in a store that has the same type elements. -/
theorem usage_is_not_portable : ∃ d s₁ r u₁, withObject.Built withObject.IsParameterOfType ⟨13⟩ ∧
    withObject.crowded.Reachable ∧ withObject.crowded.Covers withObject ∧
    (∀ e, withObject.IsType e → (typeParameterNames e withObject).1.Nodup) ∧
    (Describing.type .runtime ⟨13⟩).run withObject = (some d, s₁) ∧
    (rebuildType (some .runtime) d).run withObject.crowded = (r, u₁) ∧
    ¬ ∃ t, r = .ok t ∧ ((Describing.type .runtime t).run u₁).1 = some d := by
  have h := reachable_withObject.sound
  obtain ⟨kind, unheard, -, found, described, distinct⟩ := withObject_holds
  refine ⟨_, _, _, _, built_withObject _, reachable_withObject.crowded, h.crowded.covers,
    fun e type => distinct e.index type.there type, leaves described, Prod.mk.eta.symm, ?_⟩
  rintro ⟨t, made, again⟩
  have type : withObject.IsType ⟨1⟩ := ⟨.classType, kind, rfl⟩
  have recipe : withObject.crowded.recipe .runtime ⟨1⟩ = some objectRecipe := by
    rw [h.crowded.recipe type.there]
    exact (Describing.element_run h type.there (leaves found)).2.symm
  exact h.unlisted h.crowded.sound.stays unheard (h.crowded.sound.usage_listed (crowded_full _)
    List.prefix_rfl (isType_grows type h.crowded.grows) recipe (leaves made) again)

section annotation

variable {u : TypeId} {member : String} {type constant : Recipe}

theorem element_of_constant {v : Value}
    (run : (annotationValue member v).run s = (.ok (.enumConstant e), s')) : v = .element e := by
  cases v with
  | element c =>
    rw [annotationValue] at run
    obtain ⟨r, s₁, _, second⟩ := parts_of_run run
    split at second <;> cases second
    rfl
  | list vs =>
    rw [annotationValue, ← bind_pure_comp] at run
    obtain ⟨ws, s₁, _, ⟨⟩⟩ := parts_of_run run
  | _ => cases run

theorem annotationUse_run (h : s.Sound) (known : s.HasType u) (there : s.HasElement e)
    (described : (Describing.annotationUse own ⟨u, [(member, .enumConstant e)]⟩).run s = (some d, s₁)) :
    s.Advances s₁ ∧ ∃ type constant, s.typeRecipe own u = some type ∧ s.recipe own e = some constant ∧
      d = own.within .annotationUse [type, .ofEntries [(.str member, constant)]] := by
  have finds : Finds s (Describing.annotationUse own ⟨u, [(member, .enumConstant e)]⟩) (do
      let type ← s.typeRecipe own u
      let constant ← s.recipe own e
      return own.within .annotationUse [type, .ofEntries [(.str member, constant)]]) := by
    have value : Describing.value (some own) (.enumConstant e) = Describing.element own e := by
      rw [Describing.value]
      rfl
    refine Finds.bind (Describing.type_finds h.stays known) fun type s₁ move _ => ?_
    simp only [List.mapM_cons, List.mapM_nil, bind_assoc, pure_bind, value]
    exact (Describing.element_finds move there).bind fun _ s₂ move₂ _ => .pure move₂.sound _
  obtain ⟨move, found⟩ := Ensures.result finds described
  obtain ⟨type, recipe, found⟩ := Option.bind_eq_some_iff.mp found.symm
  obtain ⟨constant, recipe', ⟨⟩⟩ := Option.bind_eq_some_iff.mp found
  exact ⟨move, type, constant, recipe, recipe', rfl⟩

theorem constant_of_run (h : s.Sound) {b : AnnotationUse}
    (followed : (rebuildAnnotationUse (some own)
      (own.within .annotationUse [type, .ofEntries [(.str member, constant)]])).run s = (.ok b, s₂))
    (values : b.values = [(member, .enumConstant e)]) :
    ∃ s₁ s', s.Advances s₁ ∧ (rebuild (some own) constant).run s₁ = (.ok (.element e), s') := by
  obtain ⟨w, s₁, built, rest⟩ := parts_of_run followed
  rw [rebuild_within rfl rfl] at built
  obtain ⟨u, s₃, typed, built⟩ := parts_of_run built
  obtain ⟨m, s₄, entries, built⟩ := parts_of_run built
  have move := (Ensures.result (type_yields (rebuild_follows (some own) type) h "annotation type") typed).1
  change (rebuild (some own) (.ofEntries [(.str member, constant)])).run s₃ = _ at entries
  rw [rebuild_ofEntries, ← bind_pure_comp] at entries
  obtain ⟨ms, s₅, entries, made⟩ := parts_of_run entries
  cases made
  simp only [List.mapM_cons, List.mapM_nil, bind_assoc, pure_bind, entryAt, rebuild] at entries
  obtain ⟨v, s₆, found, ended⟩ := parts_of_run entries
  cases ended
  simp only [annotationOf, annotationMember, List.mapM_cons, List.mapM_nil, bind_assoc, pure_bind] at built
  obtain ⟨x, s₇, read, done⟩ := parts_of_run built
  cases done
  cases rest
  cases values
  exact ⟨s₃, s₄, move, element_of_constant read ▸ found⟩

/-- An annotation with one constant is followed back only if the constant has a name from the full table. -/
theorem Sound.constant_listed (h : s.Sound) (full : t.Full) (longer : t.names.toList <+: s.names.names.toList)
    (known : s.HasType u) (there : s.HasElement e)
    (described : (Describing.annotationUse own ⟨u, [(member, .enumConstant e)]⟩).run s = (some d, s₁))
    {b : AnnotationUse} (followed : (rebuildAnnotationUse (some own) d).run s₁ = (.ok b, s₂))
    (same : s₂.sameAnnotationUse ⟨u, [(member, .enumConstant e)]⟩ b) : s.ListedIn t e := by
  obtain ⟨move, type, constant, _, recipe, rfl⟩ := annotationUse_run h known there described
  have values : b.values = [(member, .enumConstant e)] := by
    rw [sameAnnotationUse, Bool.and_eq_true] at same
    rcases b with ⟨w, _ | ⟨⟨n, v⟩, _ | ⟨next, rest⟩⟩⟩
    · cases same.2
    · cases v <;> simp_all [sameList, sameValue]
    · simp [sameList] at same
  obtain ⟨s₃, s₄, move₃, run⟩ := constant_of_run move.sound followed values
  obtain ⟨move₄, _, stands⟩ := rebuild_run move₃.sound run
  have all : s.Advances s₄ := Movement.trans move (Movement.trans move₃ move₄)
  exact all.listed full longer there ⟨constant, (all.recipe there).trans recipe, stands _ s₄.names.lexicon_reads⟩

end annotation

def sowingRecipe : Recipe :=
  Recipe.runtime.within .declaredType
    [.null, Recipe.runtime.within .typeElement [Recipe.runtime.ofName "lang.Sowing"], .ofItems []]

/-- The seasons after the recipe of the annotation type was followed. -/
@[irreducible] def heardSeasons : Store :=
  seasons.asked [.describeType .runtime ⟨14⟩, .rebuild (some .runtime) sowingRecipe]

theorem heardSeasons_holds : 14 < seasons.types.size ∧
    ((Describing.type .runtime ⟨14⟩).run seasons).1 = some sowingRecipe ∧
    (((rebuildType (some .runtime) sowingRecipe).run
      ((Describing.type .runtime ⟨14⟩).run seasons).2).1.toOption.any fun u => heardSeasons.sameType u ⟨14⟩) ∧
    heardSeasons.kind? ⟨4⟩ = some .enumConstant ∧ heardSeasons.Distinguishable ⟨4⟩ ∧ heardSeasons.Unheard ⟨4⟩ := by
  decide +kernel

theorem reachable_heardSeasons : heardSeasons.Reachable := by
  have known : seasons.HasType ⟨14⟩ := heardSeasons_holds.1
  have moves : seasons.LeadsTo (seasons.asked [.describeType .runtime ⟨14⟩, .rebuild (some .runtime) sowingRecipe]) := by
    refine (asked_moves reachable_seasons.sound ?_).1
    simp only [List.forall_mem_cons, List.not_mem_nil, false_imp_iff, implies_true, and_true]
    refine ⟨⟨rfl, ⟨by simp [Request.elements], ?_⟩⟩, ⟨rfl, ⟨by simp [Request.elements], by simp [Request.types]⟩⟩⟩
    simpa [Request.types] using known
  unfold heardSeasons
  exact reachable_seasons.trans moves

theorem asked_type (s : Store) (own d : Recipe) (u : TypeId) :
    s.asked [.describeType own u, .rebuild (some own) d] =
      ((rebuildType (some own) d).run ((Describing.type own u).run s).2).2 := by
  change ((rebuild (some own) d).run ((Describing.type own u).run s).2).2 = _
  rw [rebuildType, run_bind]
  cases (rebuild (some own) d).run ((Describing.type own u).run s).2 with
  | mk r s' =>
    cases r with
    | error _ => rfl
    | ok v => cases v <;> rfl

theorem sowing_comesBack : heardSeasons.crowded.TypeComesBack .runtime ⟨14⟩ := by
  obtain ⟨(known : seasons.HasType ⟨14⟩), described, followed, -⟩ := heardSeasons_holds
  obtain ⟨u, found, back⟩ := (Option.any_eq_true _ _).mp followed
  have left : heardSeasons = ((rebuildType (some .runtime) sowingRecipe).run
      ((Describing.type .runtime ⟨14⟩).run seasons).2).2 := by
    unfold heardSeasons
    exact asked_type seasons .runtime sowingRecipe ⟨14⟩
  have later := reachable_heardSeasons.sound.crowded
  rw [left] at back later ⊢
  exact reachable_seasons.sound.comesBack_later known (leaves described) (leaves (ok_of_toOption found)) back later

def springSowing : AnnotationUse := ⟨⟨14⟩, [("when", .enumConstant ⟨4⟩)]⟩

/-- An annotation is described and not followed back, although its type comes back and the constant is the only one of
its name. -/
theorem constant_is_lost : ∃ d s₁ r s₂, heardSeasons.crowded.Reachable ∧ springSowing.values.Ordered ∧
    heardSeasons.crowded.TypeComesBack .runtime springSowing.type ∧
    (∀ m ∈ springSowing.values, heardSeasons.crowded.Returnable .runtime m.2) ∧
    (Describing.annotationUse .runtime springSowing).run heardSeasons.crowded = (some d, s₁) ∧
    (rebuildAnnotationUse (some .runtime) d).run s₁ = (r, s₂) ∧
    ¬ ∃ b, r = .ok b ∧ s₂.sameAnnotationUse springSowing b ∧ s₂.sameAnnotationUse b springSowing := by
  have h := reachable_heardSeasons.sound
  obtain ⟨-, -, -, kind, apart, unheard⟩ := heardSeasons_holds
  have ordered : springSowing.values.Ordered := List.pairwise_singleton _ _
  have named : heardSeasons.crowded.IsNamedConstant ⟨4⟩ := by
    refine ⟨h.crowded.grows.kind kind, fun d ⟨a, b, found, found', rest⟩ => ?_⟩
    rw [slot?_crowded] at found found'
    exact apart.name .value d ⟨a, b, found, found', rest⟩
  have members : ∀ m ∈ springSowing.values, heardSeasons.crowded.Returnable .runtime m.2 := by
    intro m mem
    cases List.mem_singleton.mp mem
    exact ⟨nofun, fun e occurs => by cases occurs; exact named⟩
  obtain ⟨_, d, described, _⟩ := annotationUse_gives h.crowded.sound ordered sowing_comesBack members
  have there : heardSeasons.crowded.HasElement ⟨4⟩ :=
    has_element_iff.mpr ((kind?_eq_some_iff.mp named.1).imp fun _ => And.left)
  refine ⟨d, _, _, _, reachable_heardSeasons.crowded, ordered, sowing_comesBack, members, leaves described,
    Prod.mk.eta.symm, ?_⟩
  rintro ⟨b, made, same, _⟩
  have absent : ¬ heardSeasons.crowded.ListedIn heardSeasons.crowded.names ⟨4⟩ :=
    h.unlisted h.crowded.sound.stays unheard
  have known : heardSeasons.crowded.HasType ⟨14⟩ := sowing_comesBack.1
  exact absent (h.crowded.sound.constant_listed (crowded_full _) List.prefix_rfl known there (leaves described)
    (leaves made) same)

@[irreducible] def completePlatform : Store := withPlatform.asked (withPlatform.ids.map .complete)

/-- The platform after the recipe of a method of it was followed. -/
@[irreducible] def heardPlatform : Store := completePlatform.asked [.rebuild (some .runtime) compareToRecipe]

theorem grown_completePlatform : completePlatform.GrownFromPlatform := by
  unfold completePlatform
  refine (asked_moves reachable_withPlatform.sound fun r mem => ?_).1
  obtain ⟨e, there, rfl⟩ := List.mem_map.mp mem
  exact ⟨rfl, by simpa [Request.elements] using mem_ids.mp there, nofun⟩

theorem grown_heardPlatform : heardPlatform.GrownFromPlatform := by
  unfold heardPlatform
  refine grown_completePlatform.trans (asked_moves grown_completePlatform.reachable.sound fun r mem => ?_).1
  cases List.mem_singleton.mp mem
  exact ⟨rfl, nofun, nofun⟩

theorem asked_rebuild (s : Store) (own : Option Recipe) (d : Recipe) :
    s.asked [.rebuild own d] = ((rebuild own d).run s).2 :=
  rfl

/-- The method is followed to, every type is complete with its bounds, and the erased type of the method's parameter
is the top type, of which nobody has heard. -/
theorem heardPlatform_fits : ∃ d, (rebuild (some .runtime) compareToRecipe).run completePlatform =
      (.ok (.element ⟨28⟩), heardPlatform) ∧
    heardPlatform.TypesRecorded ∧ heardPlatform.UsableBounds ∧
    ((Describing.element .runtime ⟨28⟩).run heardPlatform).1 = some d ∧
    (heardPlatform.kind? ⟨28⟩).any (·.isExecutable) ∧
    ((heardPlatform.signature ⟨28⟩).any fun t => t.same (.declared .none ⟨2⟩ [])) ∧
    heardPlatform.Unheard ⟨2⟩ := by
  have computed : ((rebuildElement (some .runtime) compareToRecipe).run completePlatform).1.toOption = some ⟨28⟩ ∧
      heardPlatform.TypesRecorded ∧ heardPlatform.UsableBounds ∧
      ((Describing.element .runtime ⟨28⟩).run heardPlatform).1.isSome ∧
      (heardPlatform.kind? ⟨28⟩).any (·.isExecutable) ∧
      ((heardPlatform.signature ⟨28⟩).any fun t => t.same (.declared .none ⟨2⟩ [])) ∧
      heardPlatform.Unheard ⟨2⟩ := by decide +kernel
  obtain ⟨followed, recorded, bounds, described, rest⟩ := computed
  obtain ⟨s', found⟩ : ∃ s', (rebuildElement (some .runtime) compareToRecipe).run completePlatform = (.ok ⟨28⟩, s') :=
    ⟨_, leaves (ok_of_toOption followed)⟩
  have run := rebuildElement_iff.mp found
  have left : s' = heardPlatform := by
    unfold heardPlatform
    rw [asked_rebuild, run]
  obtain ⟨d, described⟩ := Option.isSome_iff_exists.mp described
  exact ⟨d, left ▸ run, recorded, bounds, described, rest⟩

/-- The recipe that names a variable is followed to the method, and the recipe of the method, which names the erased
type, is not. -/
theorem method_is_lost : ∃ s₁ d s₂ r s₃, heardPlatform.crowded.GrownFromPlatform ∧
    (rebuild (some .runtime) compareToRecipe).run heardPlatform.crowded = (.ok (.element ⟨28⟩), s₁) ∧
    s₁.UsableBounds ∧ (Describing.element .runtime ⟨28⟩).run s₁ = (some d, s₂) ∧
    (rebuild (some .runtime) d).run s₂ = (r, s₃) ∧ r ≠ .ok (.element ⟨28⟩) := by
  obtain ⟨d, run, recorded, bounds, described, executable, signature, unheard⟩ := heardPlatform_fits
  have h := grown_heardPlatform.reachable.sound
  have h₀ := grown_completePlatform.reachable.sound
  cases run' : (rebuild (some .runtime) compareToRecipe).run heardPlatform.crowded with
  | mk r s₁ =>
    have move₁ := (rebuild_run h.crowded.sound run').1
    obtain ⟨w, rfl, alike⟩ := (rebuild_repeats (some .runtime) compareToRecipe).again h₀ (fun _ _ => trivial) run
      h.crowded.toRetains run'
    cases alike.now move₁.sound
    have move : heardPlatform.Advances s₁ := Movement.trans h.crowded move₁
    obtain ⟨k, kind, executable⟩ := (Option.any_eq_true _ _).mp executable
    have there : heardPlatform.HasElement ⟨28⟩ :=
      has_element_iff.mpr ((kind?_eq_some_iff.mp kind).imp fun _ => And.left)
    have described₁ := move.describes_element there described
    refine ⟨s₁, d, _, _, _, grown_heardPlatform.trans (crowded_moves h).1, rfl, move.usableBounds recorded bounds,
      leaves described₁, Prod.mk.eta.symm, fun found => ?_⟩
    have mem : TypeTree.declared .none ⟨2⟩ [] ∈ s₁.signature ⟨28⟩ := by
      rw [move.signature kind (ElementKind.isOwned_of_executable executable)]
      obtain ⟨t, mem, same⟩ := List.any_eq_true.mp signature
      exact TypeTree.eq_of_same _ _ same (.inr rfl) ▸ mem
    exact h.unlisted move₁ unheard (move₁.sound.signature_listed (crowded_full _) move₁.grows.names
      ((Option.any_eq_true _ _).mpr ⟨k, move.grows.kind kind, executable⟩) (leaves described₁)
      (rebuildElement_iff.mpr (leaves found)) mem)

end Store

end Nominal
