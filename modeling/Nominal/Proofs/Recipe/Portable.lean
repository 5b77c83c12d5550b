import Nominal.Proofs.Recipe.RoundTrip
/-!
Recipes in another store. If the type elements of a store are there under their names, with type parameters of
the same names, then the types of the store have counterparts with the same recipes. It makes no difference
what has been completed so far in either of the stores.
-/

namespace Nominal

/-- The names of the type parameters of an element, which are completed for it. -/
def StoreM.typeParameterNames (e : ElementId) : StoreM (List String) := do
  let r ← complete e
  r.typeParameters.mapM fun p => return (← complete p).simpleName

open Store StoreM Rebuilding

namespace Store

variable {s s' u : Store} {own : Recipe} {e o : ElementId} {slot : Slot} {r : ElementRecord}

section names

theorem Called.unique {es : List ElementId} {names names' : List String} (called : s.Called es names)
    (called' : s.Called es names') : names = names' := by
  induction called generalizing names' with
  | nil => cases called'; rfl
  | cons head _ ih =>
    cases called' with
    | cons head' tail' => rw [Option.some.inj (head.symm.trans head'), ih tail']

theorem Called.mem_iff {es : List ElementId} {names : List String} {name : String} (called : s.Called es names) :
    name ∈ names ↔ ∃ e ∈ es, s.simpleName? e = some name := by
  induction called with
  | nil => simp
  | cons head _ ih => simp [head, ih, eq_comm]

theorem called_exists {es : List ElementId} (there : ∀ e ∈ es, s.HasElement e) : ∃ names, s.Called es names := by
  induction es with
  | nil => exact ⟨[], .nil⟩
  | cons e es ih =>
    obtain ⟨slot, found⟩ := has_element_iff.mp (there e (by simp))
    obtain ⟨names, called⟩ := ih fun e mem => there e (by simp [mem])
    exact ⟨slot.simpleName :: names, .cons (by rw [simpleName?, found]; rfl) called⟩

theorem isType_grows (type : s.IsType e) (g : s.Grows Nothing s') : s'.IsType e := by
  obtain ⟨k, kind, isType⟩ := type
  exact ⟨k, g.kind kind, isType⟩

theorem Advances.type_record (move : s.Advances s') (type : s.IsType e) (recorded : s.record? e = some r) :
    s'.record? e = some r := by
  obtain ⟨slot, found, state⟩ := record?_eq_some_iff.mp recorded
  obtain ⟨k, kind, isType⟩ := type
  obtain ⟨slot', found', rfl⟩ := kind?_eq_some_iff.mp kind
  cases found.symm.trans found'
  exact move.moves.grows.record found (ElementKind.isType_not_container isType) state

theorem Sound.parameters_called (h : s.Sound) (type : s.IsType e) : ∃ names, ∀ s' r, s.Advances s' →
    s'.record? e = some r → s'.Called r.typeParameters names := by
  obtain ⟨k, kind, isType⟩ := type
  obtain ⟨slot, found, rfl⟩ := kind?_eq_some_iff.mp kind
  have plain := ElementKind.isType_not_container isType
  cases state : slot.state with
  | completing => exact absurd ⟨slot, found, state⟩ (h.settled e)
  | complete r =>
    have recorded : s.record? e = some r := record?_eq_some_iff.mpr ⟨slot, found, state⟩
    obtain ⟨_, _, fits⟩ := h.fits recorded
    obtain ⟨names, called⟩ : ∃ names, s.Called r.typeParameters names := by
      rw [fits.typeParameters]
      exact called_exists fun p mem => there_of_ownedOf mem
    refine ⟨names, fun s' r' move recorded' => ?_⟩
    cases (move.moves.grows.record found plain state).symm.trans recorded'
    exact called.grow move.moves.grows
  | pending work =>
    cases work with
    | container =>
      have fits := (h.slots e slot found).state
      simp only [StateFits, state] at fits
      exact absurd fits.1 plain
    | type header =>
      refine ⟨header.typeParameters.map (·.name), fun s' r move recorded => ?_⟩
      exact (move.moves.heeds e id slot header r found plain state recorded).named

theorem Advances.called (move : s.Advances s') (type : s.IsType e) (recorded : s'.record? e = some r) :
    s'.Called r.typeParameters (typeParameterNames e s).1 := by
  obtain ⟨names, called⟩ := move.start.parameters_called type
  have told : Ensures Advances s (typeParameterNames e) fun names' _ => names' = names := by
    refine (complete_record move.start type.there).bind fun r₁ s₁ move₁ recorded₁ => ?_
    have called₁ := called s₁ r₁ move₁ recorded₁
    have each : ∀ p ∈ r₁.typeParameters, ∀ s₂, s₁.Advances s₂ → Ensures Advances s₂
        (do return (← complete p).simpleName) fun name _ => s₁.simpleName? p = some name := by
      intro p mem s₂ move₂
      obtain ⟨slot, _, fits⟩ := move₁.sound.fits recorded₁
      obtain ⟨slotₚ, found, _⟩ := mem_ownedOf.mp (fits.typeParameters ▸ mem)
      refine (complete_fits move₂ found).bind fun r₃ s₃ move₃ fits₃ => .pure move₃.sound.stays ?_
      rw [simpleName?, found, fits₃.simpleName]
      rfl
    refine (Ensures.mapM (P := fun p name _ => s₁.simpleName? p = some name) move₁.sound.stays
      (fun _ _ _ _ _ same => same) each).imp fun names' s₂ _ called₂ => ?_
    exact Called.unique called₂ called₁
  have same : (typeParameterNames e s).1 = names := told.2
  rw [same]
  exact called s' r move recorded

theorem Sound.types_recorded (h : s.Sound) (es : List ElementId) (types : ∀ e ∈ es, s.IsType e) :
    ∃ s', s.Advances s' ∧ ∀ e ∈ es, ∃ r, s'.record? e = some r := by
  induction es generalizing s with
  | nil => exact ⟨s, h.stays, nofun⟩
  | cons e es ih =>
    have type := types e (by simp)
    obtain ⟨move, recorded⟩ := complete_record h type.there
    have type' := isType_grows type move.moves.grows
    obtain ⟨s', move', all⟩ := ih move.sound fun o mem => isType_grows (types o (by simp [mem])) move.moves.grows
    refine ⟨s', Movement.trans move move', fun o mem => ?_⟩
    rcases List.mem_cons.mp mem with rfl | mem
    · exact ⟨_, move'.type_record type' recorded⟩
    · exact all o mem

theorem Advances.isType_before (move : s.Advances s') (type : s'.IsType e) : s.IsType e := by
  obtain ⟨k, kind, isType⟩ := type
  obtain ⟨slot, found, rfl⟩ := kind?_eq_some_iff.mp kind
  have named := (move.sound.typeElements slot.qualifiedName e).mpr ⟨slot, found, isType, rfl⟩
  rw [move.moves.typeElements] at named
  obtain ⟨slot', found', isType', _⟩ := (move.start.typeElements _ e).mp named
  exact ⟨slot'.kind, kind?_eq_some_iff.mpr ⟨slot', found', rfl⟩, isType'⟩

instance (s : Store) (e : ElementId) : Decidable (s.IsType e) :=
  decidable_of_iff ((s.kind? e).any (·.isType)) (Option.any_eq_true _ _)

def TypesRecorded (s : Store) : Prop := ∀ e, s.IsType e → ∃ r, s.record? e = some r

instance (s : Store) : Decidable s.TypesRecorded :=
  decidable_of_iff (∀ i < s.elements.size, s.IsType ⟨i⟩ → (s.record? ⟨i⟩).isSome)
    ⟨fun all e type => Option.isSome_iff_exists.mp (all e.index type.there type),
      fun all i _ type => Option.isSome_iff_exists.mpr (all ⟨i⟩ type)⟩

theorem Sound.completed (h : s.Sound) : ∃ s', s.Advances s' ∧ s'.TypesRecorded := by
  obtain ⟨s', move, all⟩ := h.types_recorded (s.ids.filter fun e => (s.kind? e).any (·.isType))
    fun e mem => (Option.any_eq_true _ _).mp (List.mem_filter.mp mem).2
  refine ⟨s', move, fun e type' => ?_⟩
  have type := move.isType_before type'
  exact all e (List.mem_filter.mpr ⟨mem_ids.mpr type.there, (Option.any_eq_true _ _).mpr type⟩)

section settled

variable (move : s.Advances s') (all : s.TypesRecorded)

include move all

theorem Advances.owned_before {e : ElementId} {slot : Slot} (found : s'.slot? e = some slot) (owned : slot.kind.isOwned) :
    s.HasElement e := by
  obtain ⟨o, _, enclosing, older, kind, admits⟩ :=
    (move.sound.slots e slot found).placed (ElementKind.isOwned_not_container owned)
  have mem : e ∈ s'.ownedOf o fun _ => true := mem_ownedOf.mpr ⟨slot, found, owned, enclosing, rfl⟩
  rcases ElementKind.isOwner_of_admits admits owned with type | executable
  · obtain ⟨r, recorded⟩ := all o (move.isType_before ⟨_, kind, type⟩)
    exact there_of_ownedOf (move.owned_of_record recorded _ ▸ mem)
  · have owned' := ElementKind.isOwned_of_executable executable
    obtain ⟨outer, found', rfl⟩ := kind?_eq_some_iff.mp kind
    obtain ⟨before, found₀⟩ := has_element_iff.mp (owned_before found' owned')
    obtain ⟨children, state, again⟩ := move.slot found₀
    cases again.symm.trans found'
    exact there_of_ownedOf (move.ownedOf (kind?_eq_some_iff.mpr ⟨before, found₀, rfl⟩) owned' _ ▸ mem)
termination_by e.index

theorem Advances.usableBounds (bounds : s.UsableBounds) : s'.UsableBounds := by
  intro e r kind recorded b mem
  obtain ⟨slot, found, parameter⟩ := kind?_eq_some_iff.mp kind
  obtain ⟨slot₀, found₀⟩ := has_element_iff.mp (move.owned_before all found (by rw [parameter]; rfl))
  obtain ⟨children, state, again⟩ := move.slot found₀
  cases again.symm.trans found
  have kind₀ : s.kind? e = some .typeParameter := kind?_eq_some_iff.mpr ⟨slot₀, found₀, parameter⟩
  have recorded₀ : s.record? e = some r := (move.record kind₀ (by decide)).symm.trans recorded
  have known : s.HasType b := by
    obtain ⟨_, found', fits⟩ := move.start.fits recorded₀
    cases found₀.symm.trans found'
    obtain ⟨_, _, upper, variable_, either⟩ := fits.bound parameter
    have above := ((move.start.shapes _ _ variable_).typeVariable e upper rfl).2.1
    rcases either with single | several
    · rw [single] at mem
      exact List.mem_singleton.mp mem ▸ above
    · exact (move.start.shapes _ _ several).part_known above mem
  rw [Store.typeKind, move.shape known]
  exact bounds e r kind₀ recorded₀ b mem

end settled

end names

/-- Every type element of `s` has one in `u` that goes by its name, with type parameters of the same names. -/
def Covers (u s : Store) : Prop := ∀ e, s.IsType e → ∃ e' ∈ (s.qualifiedName? e).bind u.typeElement?,
  (typeParameterNames e' u).1 = (typeParameterNames e s).1

instance (u s : Store) : Decidable (u.Covers s) :=
  decidable_of_iff (∀ i < s.elements.size, s.IsType ⟨i⟩ →
      ∃ e' ∈ (s.qualifiedName? ⟨i⟩).bind u.typeElement?,
        (typeParameterNames e' u).1 = (typeParameterNames ⟨i⟩ s).1)
    ⟨fun all e type => all e.index type.there type, fun all i _ type => all ⟨i⟩ type⟩

/-- A store has the type elements of every store that it came from. -/
theorem Advances.covers (move : s.Advances s') : s'.Covers s := by
  intro e type
  obtain ⟨slot, found⟩ := has_element_iff.mp type.there
  obtain ⟨children, state, found'⟩ := move.slot found
  have type' := isType_grows type move.moves.grows
  obtain ⟨later, recorded⟩ := complete_record move.sound type'.there
  refine ⟨e, ?_, Called.unique (later.called type' recorded) (Advances.called (Movement.trans move later) type recorded)⟩
  rw [qualifiedName?, found]
  obtain ⟨k, kind, isType⟩ := type
  obtain ⟨_, again, rfl⟩ := kind?_eq_some_iff.mp kind
  cases found.symm.trans again
  exact (move.sound.typeElements _ e).mpr ⟨_, found', isType, rfl⟩

def IsParameterOfType (s : Store) (e : ElementId) : Prop :=
  ∃ slot o, s.slot? e = some slot ∧ slot.kind = .typeParameter ∧ slot.enclosing = some o ∧ s.IsType o

section elements

theorem Sound.arity_eq (h : s.Sound) (type : s.IsType e) : (typeParameterNames e s).1.length = s.arity e := by
  obtain ⟨slot, found⟩ := has_element_iff.mp type.there
  obtain ⟨move, recorded⟩ := complete_record h type.there
  have called := move.called type recorded
  rw [← called.length_eq, (move.fits found recorded).arity, arity, found]
  rfl

theorem Grown.arity (move : s.Grown s') (there : s.HasElement e) : s'.arity e = s.arity e := by
  obtain ⟨slot, found⟩ := has_element_iff.mp there
  obtain ⟨children, state, found'⟩ := move.slot found
  rw [Store.arity, Store.arity, found, found']
  rfl

theorem recipe_named (type : s.IsType e) (found : s.slot? e = some slot) :
    s.recipe own e = some (own.within .typeElement [own.ofName slot.qualifiedName]) := by
  obtain ⟨k, kind, isType⟩ := type
  obtain ⟨slot', found', rfl⟩ := kind?_eq_some_iff.mp kind
  cases found.symm.trans found'
  rw [recipe_qualified found (by simp [ElementKind.isQualified, isType]), named, found, Option.bind_eq_bind,
    Option.bind_some]
  cases same : slot.kind <;> rw [same] at isType <;> first | rfl | cases isType

variable (covers : u.Covers s) (h : s.Sound) {u' : Store} (move : u.Advances u')

include covers h move

theorem Covers.type (own : Recipe) (type : s.IsType e) : ∃ e', u'.IsType e' ∧ u'.recipe own e' = s.recipe own e ∧
    u'.arity e' = s.arity e ∧
      ∀ r, u'.record? e' = some r → u'.Called r.typeParameters (typeParameterNames e s).1 := by
  obtain ⟨e', named, names⟩ := covers e type
  obtain ⟨slot, found⟩ := has_element_iff.mp type.there
  rw [qualifiedName?, found] at named
  obtain ⟨slot', found', isType, qualified⟩ := (move.start.typeElements _ e').mp named
  have type' : u.IsType e' := ⟨slot'.kind, kind?_eq_some_iff.mpr ⟨slot', found', rfl⟩, isType⟩
  refine ⟨e', isType_grows type' move.moves.grows, ?_, ?_, fun r recorded => names ▸ move.called type' recorded⟩
  · rw [move.recipe type'.there, recipe_named type' found', recipe_named type found, qualified]
  · rw [move.arity type'.there, ← move.start.arity_eq type', names, h.arity_eq type]

theorem Covers.parameter (own : Recipe) (recorded : u'.TypesRecorded) (parameter : s.IsParameterOfType e) :
    ∃ e', u'.IsTypeParameter e' ∧ u'.Tells own (u'.recipe own) e' ∧ u'.recipe own e' = s.recipe own e := by
  obtain ⟨slot, o, found, kind, enclosing, type⟩ := parameter
  have picked : Selection.typeParameter.picks slot.kind := by simp [Selection.picks, kind]
  have owned := Selection.isOwned picked
  obtain ⟨o', type', recipe, _, called'⟩ := covers.type h move own type
  obtain ⟨r, recordedₒ⟩ := h.owner_recorded found owned enclosing
  obtain ⟨r', recordedₒ'⟩ := recorded o' type'
  obtain ⟨_, _, fits⟩ := h.fits recordedₒ
  obtain ⟨_, _, fits'⟩ := move.sound.fits recordedₒ'
  have name : slot.simpleName ∈ (typeParameterNames o s).1 := by
    refine (h.stays.called type recordedₒ).mem_iff.mpr ⟨e, ?_, by rw [simpleName?, found]; rfl⟩
    rw [fits.typeParameters]
    exact mem_ownedOf.mpr ⟨slot, found, owned, enclosing, picked⟩
  obtain ⟨p, mem, same⟩ := (called' r' recordedₒ').mem_iff.mp name
  have isCalled : u'.isCalled slot.simpleName p := by
    obtain ⟨slotₚ, foundₚ, same⟩ := Option.map_eq_some_iff.mp same
    simp [Store.isCalled, foundₚ, same]
  obtain ⟨e', first⟩ : ∃ e', u'.lookup o' Selection.typeParameter.picks slot.simpleName = some e' := by
    rw [fits'.typeParameters] at mem
    exact Option.isSome_iff_exists.mp (List.find?_isSome.mpr ⟨p, mem, isCalled⟩)
  obtain ⟨slot', found', owned', enclosing', picked'⟩ := mem_ownedOf.mp (List.mem_of_find?_eq_some first)
  have called : slot'.simpleName = slot.simpleName := by
    simpa [Store.isCalled, found'] using List.find?_some first
  refine ⟨e', kind?_eq_some_iff.mpr ⟨slot', found', eq_of_beq picked'⟩, ?_, ?_⟩
  · exact move.sound.selected_tells .typeParameter found' picked' enclosing' (move.sound.type_found type')
      (called.symm ▸ first)
  · rw [move.sound.recipe_selected .typeParameter found' picked' enclosing', recipe, called,
      h.recipe_selected .typeParameter found picked enclosing]

end elements

section trees

structure Counterpart (s u : Store) (own : Recipe) (t t' : TypeTree) : Prop where
  kind : t'.kind = t.kind
  recipe : t'.recipe own (u.recipe own) = t.recipe own (s.recipe own)
  formed : u.Formed (fun e => u.IsTypeParameter e ∧ u.Tells own (u.recipe own) e) t'

theorem Counterpart.isNone {t t' : TypeTree} (same : Counterpart s u own t t') : t'.isNone = t.isNone := by
  have kinds (t : TypeTree) : t.isNone ↔ t.kind = .none :=
    ⟨fun nothing => TypeTree.eq_none_of_isNone nothing ▸ rfl, TypeTree.isNone_of_kind⟩
  rw [Bool.eq_iff_iff, kinds, kinds, same.kind]

theorem counterparts {ts : List TypeTree} (each : ∀ t ∈ ts, ∃ t', Counterpart s u own t t') :
    ∃ ts', List.Forall₂ (Counterpart s u own) ts ts' := by
  induction ts with
  | nil => exact ⟨[], .nil⟩
  | cons t ts ih =>
    obtain ⟨t', same⟩ := each t (by simp)
    obtain ⟨ts', rest⟩ := ih fun t mem => each t (by simp [mem])
    exact ⟨t' :: ts', .cons same rest⟩

theorem recipes_counterpart {ts ts' : List TypeTree} (same : List.Forall₂ (Counterpart s u own) ts ts') :
    TypeTree.recipes own (u.recipe own) ts' = TypeTree.recipes own (s.recipe own) ts := by
  induction same with
  | nil => rfl
  | cons head _ ih => rw [TypeTree.recipes, TypeTree.recipes, head.recipe, ih]

theorem all_counterpart {ts ts' : List TypeTree} (same : List.Forall₂ (Counterpart s u own) ts ts')
    (p : TypeKind → Bool) : ts'.all (p ·.kind) = ts.all (p ·.kind) := by
  induction same with
  | nil => rfl
  | cons head _ ih => rw [List.all_cons, List.all_cons, head.kind, ih]

theorem formed_counterpart {ts ts' : List TypeTree} (same : List.Forall₂ (Counterpart s u own) ts ts') :
    ∀ t ∈ ts', u.Formed (fun e => u.IsTypeParameter e ∧ u.Tells own (u.recipe own) e) t := by
  induction same with
  | nil => nofun
  | cons head _ ih =>
    rintro _ (_ | ⟨_, mem⟩)
    · exact head.formed
    · exact ih _ mem

def OptCounterpart (s u : Store) (own : Recipe) : Option TypeTree → Option TypeTree → Prop :=
  Option.Rel (Counterpart s u own)

theorem optional_counterpart {t? : Option TypeTree} (each : ∀ t ∈ t?, ∃ t', Counterpart s u own t t') :
    ∃ t?', OptCounterpart s u own t? t?' := by
  cases t? with
  | none => exact ⟨none, .none⟩
  | some t =>
    obtain ⟨t', same⟩ := each t rfl
    exact ⟨some t', .some same⟩

theorem OptCounterpart.recipe {t? t?' : Option TypeTree} (same : OptCounterpart s u own t? t?') :
    TypeTree.optRecipe own (u.recipe own) t?' = TypeTree.optRecipe own (s.recipe own) t? := by
  cases same with
  | none => rfl
  | some same => exact same.recipe

theorem OptCounterpart.formed {t? t?' : Option TypeTree} (same : OptCounterpart s u own t? t?') :
    ∀ t ∈ t?', u.Formed (fun e => u.IsTypeParameter e ∧ u.Tells own (u.recipe own) e) t := by
  cases same with
  | none => nofun
  | some same =>
    rintro _ ⟨⟩
    exact same.formed

theorem Formed.counterpart {varied : ElementId → Prop} {t : TypeTree} (formed : s.Formed varied t)
    (types : ∀ e, s.IsType e → ∃ e', u.IsType e' ∧ u.recipe own e' = s.recipe own e ∧ u.arity e' = s.arity e)
    (varieds : ∀ e, varied e → ∃ e', u.IsTypeParameter e' ∧ u.Tells own (u.recipe own) e' ∧
      u.recipe own e' = s.recipe own e) : ∃ t', Counterpart s u own t t' := by
  induction formed with
  | primitive p => exact ⟨.primitive p, rfl, rfl, .primitive p⟩
  | none => exact ⟨.none, rfl, rfl, .none⟩
  | void => exact ⟨.noType .void, rfl, rfl, .void⟩
  | null => exact ⟨.null, rfl, rfl, .null⟩
  | array component _ ih =>
    obtain ⟨c', same⟩ := ih
    exact ⟨.array c', rfl, by rw [TypeTree.recipe, TypeTree.recipe, same.recipe],
      .array (same.kind ▸ component) same.formed⟩
  | declared admits _ _ outer inner =>
    rename_i o e args _ _
    obtain ⟨o', around⟩ := outer
    obtain ⟨args', arguments⟩ := counterparts inner
    obtain ⟨e', ⟨k, kind, isType⟩, recipe, arity⟩ := types e (admitsUsage_type admits)
    refine ⟨.declared o' e' args', rfl, ?_, .declared ?_ around.formed (formed_counterpart arguments)⟩
    · rw [TypeTree.recipe, TypeTree.recipe, around.isNone, around.recipe, recipe, recipes_counterpart arguments]
    · have empty : args'.isEmpty = args.isEmpty := by cases arguments <;> rfl
      simp only [admitsUsage, Bool.and_eq_true] at admits ⊢
      obtain ⟨⟨⟨_, count⟩, kinds⟩, outer⟩ := admits
      rw [kind, arity, empty, ← arguments.length_eq, all_counterpart arguments StoreM.isArgumentKind,
        Option.all_some, around.kind]
      exact ⟨⟨⟨isType, count⟩, kinds⟩, outer⟩
  | typeVariable var =>
    obtain ⟨e', parameter, tells, recipe⟩ := varieds _ var
    exact ⟨.typeVariable e', rfl, by rw [TypeTree.recipe, TypeTree.recipe, recipe],
      .typeVariable ⟨parameter, tells⟩⟩
  | wildcard made _ _ above below =>
    rename_i upper lower _ _
    obtain ⟨upper', first⟩ := optional_counterpart above
    obtain ⟨lower', second⟩ := optional_counterpart below
    refine ⟨.wildcard upper' lower', rfl, ?_, .wildcard ?_ first.formed second.formed⟩
    · rw [TypeTree.recipe, TypeTree.recipe, first.recipe, second.recipe]
    · revert made
      cases first with
      | none =>
        cases second with
        | none => exact fun _ => rfl
        | some b => simp [TypeTree.wildcardOf, b.kind]
      | some b =>
        cases second with
        | none => simp [TypeTree.wildcardOf, b.kind]
        | some => simp [TypeTree.wildcardOf]

end trees

section portable

variable {t : TypeId}

/-- What a recipe of one store stands for in another: a type that is described by the same recipe there. -/
theorem Covers.tree (covers : u.Covers s) (own : Recipe) (h : s.Sound)
    (formed : s.Formed s.IsParameterOfType (s.tree t)) {u' : Store}
    (move : u.Advances u') (recorded : u'.TypesRecorded) :
    ∃ d t', s.typeRecipe own t = some d ∧ u'.meaning .plain (some own) d = some (.type t') ∧
      t'.recipe own (u'.recipe own) = some d := by
  have types (e : ElementId) (type : s.IsType e) : ∃ e', u'.IsType e' ∧ u'.recipe own e' = s.recipe own e ∧
      u'.arity e' = s.arity e := by
    obtain ⟨e', type', recipe, arity, _⟩ := covers.type h move own type
    exact ⟨e', type', recipe, arity⟩
  obtain ⟨t', same⟩ := formed.counterpart types fun e => covers.parameter h move own recorded
  obtain ⟨d, recipe, means⟩ := same.formed.means (fun e => move.sound.type_found) fun e varied => varied
  exact ⟨d, t', same.recipe.symm.trans recipe, means, recipe⟩

/-- A type that the factories made, with variables of types only, is described, and the recipe is followed in
any store that has the same type elements to a type with that recipe. It is not required that type parameters
of one type have different names. -/
theorem recipes_are_portable (own : Recipe) (built : Built s.IsParameterOfType s t) (reachable : u.Reachable)
    (covers : u.Covers s) :
    ∃ d s₁, (Describing.type own t).run s = (some d, s₁) ∧
      ∀ r u₁, (rebuildType (some own) d).run u = (r, u₁) → u₁.names.Fits →
        ∃ t', r = .ok t' ∧ ((Describing.type own t').run u₁).1 = some d := by
  obtain ⟨h, known, formed⟩ := built.formed
  have h' := reachable.sound
  obtain ⟨_, move, recorded⟩ := h'.completed
  obtain ⟨d, _, recipe, _⟩ := covers.tree own h formed move recorded
  obtain ⟨_, described⟩ : Finds s (Describing.type own t) _ := Describing.type_finds h.stays known
  refine ⟨d, _, Prod.ext (described.trans recipe) rfl, fun r u₁ followed fits => ?_⟩
  have move₁ := rebuildType_moves h' followed
  obtain ⟨u₂, later, recorded₂⟩ := move₁.sound.completed
  obtain ⟨_, t₂, recipe₂, means, again⟩ := covers.tree own h formed (Movement.trans move₁ later) recorded₂
  cases recipe.symm.trans recipe₂
  obtain ⟨t', rfl, known', tree⟩ := rebuildType_later h' followed fits later means
  obtain ⟨_, described'⟩ : Finds u₁ (Describing.type own t') _ := Describing.type_finds move₁.sound.stays known'
  refine ⟨t', rfl, described'.trans ?_⟩
  rw [← later.typeRecipe known', typeRecipe, tree, again]

def otherProgram : PackageDecl :=
  { package := commonPackage
    types :=
      [.mk { kind := .interfaceType, name := "Pair", typeParameters := [{ name := "A" }, { name := "B" }] } [],
        .mk { kind := .classType, name := "Box", typeParameters := [{ name := "T" }] } [],
        .mk { kind := .classType, name := "Object" } []] }

@[irreducible] def otherSample : Store := (Request.run (.enterDeclarations otherProgram) .empty).2

theorem array_is_portable : ∃ d s₁ t' u₁, (Describing.type .runtime ⟨18⟩).run withArray = (some d, s₁) ∧
    (rebuildType (some .runtime) d).run otherSample = (.ok t', u₁) ∧
      ((Describing.type .runtime t').run u₁).1 = some d := by
  have reachable : otherSample.Reachable := by
    unfold otherSample
    exact .ask (.enterDeclarations otherProgram) .rest ⟨by simp [Request.elements], by simp [Request.types]⟩
  have parameter : withArray.IsParameterOfType ⟨3⟩ := by
    have slot : (withArray.slot? ⟨3⟩).any fun slot =>
        slot.kind = .typeParameter ∧ slot.enclosing = some ⟨2⟩ := by decide +kernel
    obtain ⟨slot, found, fits⟩ := (Option.any_eq_true _ _).mp slot
    obtain ⟨kind, enclosing⟩ := of_decide_eq_true fits
    exact ⟨slot, ⟨2⟩, found, kind, enclosing, .classType, by decide +kernel, rfl⟩
  have fits : ((Describing.type .runtime ⟨18⟩).run withArray).1.any fun d =>
      ((rebuildType (some .runtime) d).run otherSample).2.names.Fits := by decide +kernel
  obtain ⟨d, s₁, described, followed⟩ := recipes_are_portable .runtime
    (built_array.imp fun e same => same ▸ parameter) reachable (by decide +kernel)
  rw [described] at fits
  obtain ⟨t', done, same⟩ := followed _ _ Prod.mk.eta.symm (of_decide_eq_true fits)
  exact ⟨d, s₁, t', _, described, leaves done, same⟩

end portable

end Store

end Nominal
