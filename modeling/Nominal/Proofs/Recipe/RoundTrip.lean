import Nominal.Proofs.Recipe.Distinguishing
import Nominal.Proofs.Recipe.Lasting
import Nominal.Proofs.Store.Reachable
/-!
Round trips: a construct is described, the recipe is followed, and the same construct comes out. Elements come
back if they can be told apart from their siblings, types if their variables do, and whatever came of a recipe
comes back in any case.
-/

namespace Nominal

open Store StoreM Rebuilding

namespace ElementKind

theorem isOwner_of_admits {outer k : ElementKind} (admits : outer.admits k) (owned : k.isOwned) :
    outer.isType ∨ outer.isExecutable := by
  revert admits owned
  cases k <;> cases outer <;> decide

theorem isOwned_or {k : ElementKind} (other : ¬ k.isOwned) : k.isQualified ∨ k.isLocal := by
  revert other
  cases k <;> decide

end ElementKind

namespace Rebuilding

variable {own d : Recipe} {s s' : Store}

theorem ok_of_toOption {ε α : Type} {x : Except ε α} {a : α} (found : x.toOption = some a) : x = .ok a := by
  cases x with
  | error _ => cases found
  | ok _ => cases found; rfl

theorem rebuildElement_iff {e : ElementId} : (rebuildElement (some own) d).run s = (.ok e, s') ↔
    (rebuild (some own) d).run s = (.ok (.element e), s') := by
  constructor
  · intro found
    obtain ⟨v, s₁, run, rest⟩ := parts_of_run found
    cases v <;> cases rest
    exact run
  · intro run
    rw [rebuildElement, run_bind, run]
    rfl

theorem rebuildElement_moves {r : Except Refusal ElementId} (h : s.Sound)
    (run : (rebuildElement (some own) d).run s = (r, s')) : s.Advances s' :=
  (Ensures.result (element_yields (rebuild_follows (some own) d) h "descriptor") run).1

theorem rebuildType_moves {r : Except Refusal TypeId} (h : s.Sound)
    (run : (rebuildType (some own) d).run s = (r, s')) : s.Advances s' :=
  (Ensures.result (type_yields (rebuild_follows (some own) d) h "descriptor") run).1

theorem rebuildElement_means {e : ElementId} (h : s.Sound)
    (run : (rebuildElement (some own) d).run s = (.ok e, s')) :
    s.Advances s' ∧ s'.meaning s'.names.lexicon (some own) d = some (.element e) := by
  have yields := element_yields (rebuild_follows (some own) d) h "descriptor"
  obtain ⟨move, _, settled⟩ := Ensures.result yields run
  exact ⟨move, meaning_of_element (settled s' move.sound.stays _ s'.names.lexicon_reads)⟩

theorem rebuildType_means {t : TypeId} (h : s.Sound) (run : (rebuildType (some own) d).run s = (.ok t, s')) :
    s.Advances s' ∧ s'.HasType t ∧ s'.meaning s'.names.lexicon (some own) d = some (.type (s'.tree t)) := by
  have yields := type_yields (rebuild_follows (some own) d) h "descriptor"
  obtain ⟨move, known, settled⟩ := Ensures.result yields run
  exact ⟨move, known t rfl, meaning_of_type (settled s' move.sound.stays _ s'.names.lexicon_reads)⟩

/-- A recipe that stands for an element, once it was followed, was followed to the element. -/
theorem rebuildElement_ok {e : ElementId} {r : Except Refusal ElementId} (h : s.Sound)
    (run : (rebuildElement (some own) d).run s = (r, s')) (fits : s'.names.Fits)
    (means : s'.meaning .plain (some own) d = some (.element e)) : r = .ok e := by
  have yields := element_yields (rebuild_follows (some own) d) h "descriptor"
  obtain ⟨move, _, settled⟩ := Ensures.result yields run
  have read := settled s' move.sound.stays .plain (Lexicon.plain_reads fits)
  dsimp only at read
  rw [element_of_meaning means] at read
  cases r with
  | error _ => cases read
  | ok e' => cases read; rfl

/-- A recipe that stands for a type, if only after more is asked of the store, was followed to a type. -/
theorem rebuildType_later {t : TypeTree} {r : Except Refusal TypeId} (h : s.Sound)
    (run : (rebuildType (some own) d).run s = (r, s')) (fits : s'.names.Fits) {s'' : Store} (later : s'.Advances s'')
    (means : s''.meaning .plain (some own) d = some (.type t)) : ∃ u, r = .ok u ∧ s'.HasType u ∧ s''.tree u = t := by
  have yields := type_yields (rebuild_follows (some own) d) h "descriptor"
  obtain ⟨_, known, settled⟩ := Ensures.result yields run
  have read := settled s'' later .plain (Lexicon.plain_reads fits)
  dsimp only at read
  rw [type_of_meaning means] at read
  cases r with
  | error _ => cases read
  | ok u => exact ⟨u, rfl, known u rfl, (Option.some.inj read).symm⟩

theorem rebuildType_ok {t : TypeTree} {r : Except Refusal TypeId} (h : s.Sound)
    (run : (rebuildType (some own) d).run s = (r, s')) (fits : s'.names.Fits)
    (means : s'.meaning .plain (some own) d = some (.type t)) : ∃ u, r = .ok u ∧ s'.HasType u ∧ s'.tree u = t :=
  rebuildType_later h run fits (rebuildType_moves h run).sound.stays means

/-- What was followed to its end stands for what it came to, if its names are read by their keys. -/
theorem rebuild_run {own : Option Recipe} {r : Except Refusal Value} (h : s.Sound)
    (run : (rebuild own d).run s = (r, s')) : s.Advances s' ∧ (∀ v, r = .ok v → v.Known s') ∧
      ∀ lex : Lexicon, lex.Reads s'.names → s'.meaning lex own d = r.toOption.bind s'.denote := by
  obtain ⟨move, known, settled⟩ := Ensures.result (rebuild_follows own d s h) run
  exact ⟨move, known, settled s' move.sound.stays⟩

end Rebuilding

namespace Describing

variable {own d : Recipe} {s s' : Store} {d? : Option Recipe}

theorem element_run {e : ElementId} (h : s.Sound) (there : s.HasElement e)
    (run : (element own e).run s = (d?, s')) : s.Advances s' ∧ d? = s.recipe own e :=
  Ensures.result (element_finds h.stays there) run

theorem type_run {t : TypeId} (h : s.Sound) (known : s.HasType t)
    (run : (type own t).run s = (d?, s')) : s.Advances s' ∧ d? = s.typeRecipe own t :=
  Ensures.result (type_finds h.stays known) run

end Describing

namespace Store

variable {s s' : Store} {own d : Recipe} {e : ElementId}

def IsAbout (s : Store) (e o : ElementId) : Prop :=
  o = e ∨ ∃ slot, s.slot? e = some slot ∧ slot.kind.isOwned ∧ slot.enclosing = some o

theorem Grown.isAbout {o : ElementId} (move : s.Grown s') (there : s.HasElement e) (about : s'.IsAbout e o) :
    s.IsAbout e o := by
  obtain ⟨slot, found⟩ := has_element_iff.mp there
  obtain ⟨children, state, found'⟩ := move.slot found
  refine about.imp id fun ⟨slot', again, owned⟩ => ⟨slot, found, ?_⟩
  cases found'.symm.trans again
  exact owned

theorem Sound.isAbout_there {o : ElementId} (h : s.Sound) (there : s.HasElement e) (about : s.IsAbout e o) :
    s.HasElement o := by
  rcases about with rfl | ⟨slot, found, owned, enclosing⟩
  · exact there
  · obtain ⟨r, recorded⟩ := h.owner_recorded found owned enclosing
    obtain ⟨outer, found', _⟩ := record?_eq_some_iff.mp recorded
    exact has_element_iff.mpr ⟨outer, found'⟩

theorem Sound.type_found (h : s.Sound) (type : s.IsType e) : s.Tells own (s.recipe own) e := by
  rw [Tells, Answers, recipe_type type]
  exact h.type_tells own type

theorem isAbout_type (type : s.IsType e) {o : ElementId} (about : s.IsAbout e o) : o = e := by
  obtain ⟨k, kind, isType⟩ := type
  refine about.resolve_right fun ⟨slot, found, owned, _⟩ => ?_
  obtain ⟨slot', found', rfl⟩ := kind?_eq_some_iff.mp kind
  cases found.symm.trans found'
  exact ElementKind.isOwned_not_type owned isType

theorem Advances.describes_element (move : s.Advances s') (there : s.HasElement e)
    (described : ((Describing.element own e).run s).1 = some d) : ((Describing.element own e).run s').1 = some d := by
  obtain ⟨_, before⟩ := Describing.element_run move.start there (leaves described)
  obtain ⟨_, after⟩ : Finds s' (Describing.element own e) _ :=
    Describing.element_finds move.sound.stays (move.grows.has_element there)
  exact after.trans ((move.recipe there).trans before.symm)

theorem Advances.describes_type (move : s.Advances s') {u : TypeId} (known : s.HasType u)
    (described : ((Describing.type own u).run s).1 = some d) : ((Describing.type own u).run s').1 = some d := by
  obtain ⟨_, before⟩ := Describing.type_run move.start known (leaves described)
  obtain ⟨_, after⟩ : Finds s' (Describing.type own u) _ :=
    Describing.type_finds move.sound.stays (move.grows.has_type known)
  exact after.trans ((move.typeRecipe known).trans before.symm)

theorem Sound.owner_executable (h : s.Sound) {slot outer : Slot} {o : ElementId} (found : s.slot? e = some slot)
    (owned : slot.kind.isOwned) (enclosing : slot.enclosing = some o) (foundₒ : s.slot? o = some outer)
    (owned' : outer.kind.isOwned) : outer.kind.isExecutable := by
  obtain ⟨o', k, enclosing', _, kind, admits⟩ :=
    (h.slots e slot found).placed (ElementKind.isOwned_not_container owned)
  cases enclosing.symm.trans enclosing'
  obtain ⟨_, again, rfl⟩ := kind?_eq_some_iff.mp kind
  cases foundₒ.symm.trans again
  exact (ElementKind.isOwner_of_admits admits owned).resolve_left (ElementKind.isOwned_not_type owned')

theorem Sound.owner_found (h : s.Sound) {slot : Slot} {o : ElementId} (found : s.slot? e = some slot)
    (owned : slot.kind.isOwned) (enclosing : slot.enclosing = some o)
    (first : ∀ outer, s.slot? o = some outer → outer.kind.isOwned → s.Foremost o outer) :
    s.Tells own (s.recipe own) o := by
  obtain ⟨o', k, enclosing', _, kind, admits⟩ :=
    (h.slots e slot found).placed (ElementKind.isOwned_not_container owned)
  cases enclosing.symm.trans enclosing'
  obtain ⟨outer, found', rfl⟩ := kind?_eq_some_iff.mp kind
  rcases ElementKind.isOwner_of_admits admits owned with type | executable
  · exact h.type_found ⟨_, kind, type⟩
  · have member := ElementKind.isMember_of_executable executable
    have owned' := ElementKind.isOwned_of_executable executable
    exact (first outer found' owned').tells h found' owned' fun o'' around =>
      h.type_found (h.owner_type found' member around)

/-- An element with a recipe is found by it, if searches for it and for what owns it end with them. -/
theorem Sound.tells (h : s.Sound) (described : s.recipe own e = some d)
    (first : ∀ o slot, s.IsAbout e o → s.slot? o = some slot → slot.kind.isOwned → s.Foremost o slot) :
    s.meaning .plain (some own) d = some (.element e) := by
  suffices tells : s.Tells own (s.recipe own) e by
    obtain ⟨d', described', means⟩ := tells
    cases described.symm.trans described'
    exact means
  obtain ⟨slot, found, _⟩ := Option.bind_eq_some_iff.mp described
  by_cases owned : slot.kind.isOwned
  · exact (first e slot (.inl rfl) found owned).tells h found owned fun o enclosing =>
      h.owner_found found owned enclosing fun outer found' =>
        first o outer (.inr ⟨slot, found, owned, enclosing⟩) found'
  · rcases ElementKind.isOwned_or owned with qualified | isLocal
    · rw [Tells, Answers, recipe_qualified found qualified]
      exact h.named_tells own found qualified
    · rw [recipe_member found (by revert isLocal; cases slot.kind <;> simp [ElementKind.isLocal]),
        memberRecipe_local found isLocal] at described
      cases described

/-- An element that can be told apart from its siblings is described and followed back to itself. What is
described here is taken for granted to have a recipe: local variables have none. The names of the store must
not have outgrown their keys. -/
theorem element_round_trip (reachable : s.Reachable) (there : s.HasElement e) {s₁ s₂ : Store}
    {r : Except Refusal ElementId} (described : (Describing.element own e).run s = (some d, s₁))
    (apart : ∀ o, s.IsAbout e o → s.Distinguishable o)
    (accepted : ∀ o k, s.IsAbout e o → s.kind? o = some k → k.isExecutable → s.AcceptedParameters o)
    (followed : (Rebuilding.rebuildElement (some own) d).run s₁ = (r, s₂)) (fits : s₂.names.Fits) :
    r = .ok e := by
  have h := reachable.sound
  obtain ⟨move₁, recipe⟩ := Describing.element_run h there described
  have move : s.Advances s₂ := Movement.trans move₁ (rebuildElement_moves move₁.sound followed)
  refine rebuildElement_ok move₁.sound followed fits ?_
  refine move.sound.tells ((move.recipe there).trans recipe.symm) fun o slot' about found' owned => ?_
  have about : s.IsAbout e o := move.toGrown.isAbout there about
  obtain ⟨slot, found⟩ := has_element_iff.mp (h.isAbout_there there about)
  obtain ⟨children, state, found''⟩ := move.slot found
  cases found''.symm.trans found'
  have first : s.Foremost o slot := (apart o about).foremost h found owned fun executable =>
    accepted o slot.kind about (kind?_eq_some_iff.mpr ⟨slot, found, rfl⟩) executable
  exact ((move.foremost found owned).mpr first).restate

def amountRecipe : Recipe :=
  Recipe.runtime.within .variableElement
    [Recipe.runtime.within .executableElement
        [Recipe.runtime.within .typeElement [Recipe.runtime.ofName "lang.Box"], .elementKind .method,
          Recipe.runtime.ofName "put", .ofItems [Recipe.runtime.within .primitiveType [.typeKind .int]]],
      Recipe.runtime.ofName "amount"]

theorem amount_round_trip : ((Rebuilding.rebuildElement (some .runtime) amountRecipe).run
      ((Describing.element .runtime ⟨6⟩).run completeSample).2).1 = .ok ⟨6⟩ := by
  have recipe : ((Describing.element .runtime ⟨6⟩).run completeSample).1 = some amountRecipe := by decide +kernel
  have around {o : ElementId} (about : completeSample.IsAbout ⟨6⟩ o) : o = ⟨6⟩ ∨ o = ⟨5⟩ := by
    refine about.imp id fun ⟨slot, found, _, enclosing⟩ => ?_
    have owner : (completeSample.slot? ⟨6⟩).bind (·.enclosing) = some ⟨5⟩ := by decide +kernel
    rw [found] at owner
    exact Option.some.inj (enclosing.symm.trans owner)
  refine element_round_trip reachable_completeSample (completeSample_has_element (by decide)) (leaves recipe)
    ?apart ?accepted Prod.mk.eta.symm (by decide +kernel)
  case apart =>
    intro o about
    rcases around about with rfl | rfl <;> decide +kernel
  case accepted =>
    intro o k about kind executable
    rcases around about with rfl | rfl
    · have parameter : completeSample.kind? ⟨6⟩ = some .parameter := by decide +kernel
      cases parameter.symm.trans kind
      cases executable
    · have int : (StoreM.erasedParameters ⟨5⟩ completeSample).1 = [.primitive .int] := by decide +kernel
      intro t mem
      rw [int] at mem
      cases List.mem_singleton.mp mem
      exact .primitive (p := .int) (by decide +kernel)

/-- Types that the factories made one from another, with other requests before, between and after. Variables are
those of certain type parameters. -/
inductive Built (varied : ElementId → Prop) : Store → TypeId → Prop
  | primitive {s : Store} {k : TypeKind} {t : TypeId} : s.Reachable → primitiveType k = .ok t →
    Built varied s t
  | noType {s : Store} {k : TypeKind} {t : TypeId} : s.Reachable → noType k = .ok t → Built varied s t
  | null {s : Store} : s.Reachable → Built varied s .null
  | array {s s' : Store} {c t : TypeId} : s.Reachable → Built varied s c →
    (arrayType c).run s = (.ok t, s') → Built varied s' t
  | declared {s s' : Store} {enclosing : Option TypeId} {e : ElementId} {args : List TypeId} {t : TypeId} :
    s.Reachable → (∀ o ∈ enclosing, Built varied s o) → (∀ a ∈ args, Built varied s a) →
    (declaredType enclosing e args).run s = (.ok t, s') → Built varied s' t
  | wildcard {s s' : Store} {upper lower : Option TypeId} {t : TypeId} :
    s.Reachable → (∀ b ∈ upper, Built varied s b) → (∀ b ∈ lower, Built varied s b) →
    (wildcardType upper lower).run s = (.ok t, s') → Built varied s' t
  | typeVariable {s s' : Store} {e : ElementId} {t : TypeId} : s.Reachable → s.HasElement e → varied e →
    (typeVariable e).run s = (.ok t, s') → Built varied s' t
  | later {s s' : Store} {t : TypeId} : Built varied s t → s.LeadsTo s' → Built varied s' t

section built

variable {varied : ElementId → Prop} {t : TypeId}

theorem Built.imp {varied' : ElementId → Prop} (built : Built varied s t) (weaker : ∀ e, varied e → varied' e) :
    Built varied' s t := by
  induction built with
  | primitive reachable made => exact .primitive reachable made
  | noType reachable made => exact .noType reachable made
  | null reachable => exact .null reachable
  | array reachable _ made ih => exact .array reachable ih made
  | declared reachable _ _ made outer inner => exact .declared reachable outer inner made
  | wildcard reachable _ _ made above below => exact .wildcard reachable above below made
  | typeVariable reachable there allowed made => exact .typeVariable reachable there (weaker _ allowed) made
  | later _ leads ih => exact .later ih leads

theorem formed_parts {ts : List TypeId}
    (all : ∀ t ∈ ts, s.Sound ∧ s.HasType t ∧ s.Formed varied (s.tree t)) :
    ∀ u ∈ ts.map s.tree, s.Formed varied u := by
  intro u mem
  obtain ⟨t, mem', rfl⟩ := List.mem_map.mp mem
  exact (all t mem').2.2

theorem formed_optional {t? : Option TypeId}
    (all : ∀ t ∈ t?, s.Sound ∧ s.HasType t ∧ s.Formed varied (s.tree t)) :
    ∀ u ∈ t?.map s.tree, s.Formed varied u := by
  intro u mem
  obtain ⟨t, there, rfl⟩ := Option.map_eq_some_iff.mp mem
  exact (all t there).2.2

theorem Built.formed (built : Built varied s t) : s.Sound ∧ s.HasType t ∧ s.Formed varied (s.tree t) := by
  have offered {s s' : Store} {m : Checked TypeId} {t : TypeId} {t? : Option TypeTree}
      (offers : Ensures Advances s m.run (Offers t?)) (run : m.run s = (.ok t, s'))
      (formed : ∀ u, t? = some u → s.Formed varied u) :
      s'.Sound ∧ s'.HasType t ∧ s'.Formed varied (s'.tree t) := by
    obtain ⟨move, known, tree⟩ := Ensures.result offers run
    exact ⟨move.sound, known, (formed _ tree).imp move.grows fun _ => id⟩
  induction built with
  | primitive reachable made =>
    have h := reachable.sound
    unfold primitiveType at made
    split at made <;> cases made
    exact ⟨h, h.has_primitive _, by rw [h.tree_primitive]; exact .primitive _⟩
  | noType reachable made =>
    have h := reachable.sound
    unfold StoreM.noType at made
    split at made <;> cases made
    · exact ⟨h, h.has_none, by rw [h.tree_none]; exact .none⟩
    · exact ⟨h, h.has_initial (by decide), (h.tree_noType .void).symm ▸ .void⟩
  | null reachable =>
    have h := reachable.sound
    exact ⟨h, h.has_initial (by decide), by rw [h.tree_null]; exact .null⟩
  | array reachable _ made ih =>
    exact offered (arrayType_offers reachable.sound ih.2.1) made fun u same => .of_array ih.2.2 same
  | declared reachable _ _ made outer inner =>
    refine offered (declaredType_offers reachable.sound (fun t mem => (outer t mem).2.1)
      fun t mem => (inner t mem).2.1) made fun u same => ?_
    exact .of_usage (formed_optional outer) (formed_parts inner) same
  | wildcard reachable _ _ made above below =>
    refine offered (wildcardType_offers reachable.sound (fun t mem => (above t mem).2.1)
      fun t mem => (below t mem).2.1) made fun u same => ?_
    exact .of_wildcard (formed_optional above) (formed_optional below) same
  | typeVariable reachable there allowed made =>
    refine offered (typeVariable_offers reachable.sound there) made fun u same => ?_
    split at same <;> cases same
    exact .typeVariable allowed
  | later _ leads ih =>
    obtain ⟨h, known, formed⟩ := ih
    have move := leads.grown h
    refine ⟨move.sound, move.grows.has_type known, ?_⟩
    rw [move.tree known]
    exact formed.imp move.grows fun _ => id

def ComesBack (s : Store) (own : Recipe) (e : ElementId) : Prop :=
  ∃ d s₁ s₂, (Describing.element own e).run s = (some d, s₁) ∧
    (rebuildElement (some own) d).run s₁ = (.ok e, s₂)

/-- A type parameter of a type, or of an executable that comes back, whose name no sibling has. -/
def Identified (s : Store) (own : Recipe) (e : ElementId) : Prop :=
  s.IsTypeParameter e ∧ (∀ d, s.SharesName .typeParameter d e → d = e) ∧
    ∀ o slot, s.slot? e = some slot → slot.enclosing = some o → s.IsType o ∨ s.ComesBack own o

theorem Sound.answers_of_followed (h : s.Sound) (there : s.HasElement e) {s₁ s₂ : Store}
    (described : (Describing.element own e).run s = (some d, s₁))
    (followed : (rebuildElement (some own) d).run s₁ = (.ok e, s₂)) :
    s.Advances s₂ ∧ s₂.Answers s₂.names.lexicon own (s₂.recipe own) e := by
  obtain ⟨move₁, recipe⟩ := Describing.element_run h there described
  obtain ⟨move₂, means⟩ := rebuildElement_means move₁.sound followed
  have move : s.Advances s₂ := Movement.trans move₁ move₂
  exact ⟨move, d, (move.recipe there).trans recipe.symm, means⟩

theorem Sound.foremost_of_comesBack (h : s.Sound) {slot : Slot} (found : s.slot? e = some slot)
    (executable : slot.kind.isExecutable) (back : s.ComesBack own e) : s.Foremost e slot := by
  obtain ⟨d, s₁, s₂, described, followed⟩ := back
  obtain ⟨move, answers⟩ := h.answers_of_followed (has_element_iff.mpr ⟨slot, found⟩) described followed
  obtain ⟨children, state, found'⟩ := move.slot found
  have first := move.sound.foremost_of_answers found' executable answers
  exact (move.foremost found (ElementKind.isOwned_of_executable executable)).mp first.restate

theorem Identified.tells (h : s.Sound) (identified : s.Identified own e) (move : s.Advances s') :
    s'.Tells own (s'.recipe own) e := by
  obtain ⟨parameter, name, owner⟩ := identified
  obtain ⟨slot, found, kind⟩ := kind?_eq_some_iff.mp parameter
  have owned : slot.kind.isOwned := by rw [kind]; rfl
  have picked : Selection.typeParameter.picks slot.kind := by rw [kind]; rfl
  have first := (Distinguishable.of_name found picked name).foremost h found owned fun executable =>
    absurd executable (Selection.not_executable picked)
  obtain ⟨children, state, found'⟩ := move.slot found
  refine ((move.foremost found owned).mpr first).restate.tells move.sound found' owned fun o enclosing => ?_
  obtain ⟨before, found₀⟩ := has_element_iff.mp (h.isAbout_there (has_element_iff.mpr ⟨slot, found⟩)
    (.inr ⟨slot, found, owned, enclosing⟩))
  refine move.sound.owner_found found' owned enclosing fun outer there owned' => ?_
  obtain ⟨_, _, now⟩ := move.slot found₀
  cases now.symm.trans there
  have executable := h.owner_executable found owned enclosing found₀ owned'
  have back := (owner o slot found enclosing).resolve_left fun ⟨l, kind', type⟩ => by
    obtain ⟨again, found₁, rfl⟩ := kind?_eq_some_iff.mp kind'
    cases found₀.symm.trans found₁
    exact ElementKind.isOwned_not_type owned' type
  exact ((move.foremost found₀ owned').mpr (h.foremost_of_comesBack found₀ executable back)).restate

/-- A type that the factories made is described and followed back to the same type, if its type variables are
identified. -/
theorem type_round_trip (built : Built varied s t) (identified : ∀ e, varied e → s.Identified own e)
    {s₁ s₂ : Store} {r : Except Refusal TypeId} (described : (Describing.type own t).run s = (some d, s₁))
    (followed : (rebuildType (some own) d).run s₁ = (r, s₂)) (fits : s₂.names.Fits) :
    ∃ u, r = .ok u ∧ s₂.sameType u t := by
  obtain ⟨h, known, formed⟩ := built.formed
  obtain ⟨move₁, recipe⟩ := Describing.type_run h known described
  have move : s.Advances s₂ := Movement.trans move₁ (rebuildType_moves move₁.sound followed)
  have formed' : s₂.Formed varied (s₂.tree t) := by
    rw [move.tree known]
    exact formed.imp move.grows fun _ => id
  have types (e : ElementId) (type : s₂.IsType e) : s₂.Tells own (s₂.recipe own) e := move.sound.type_found type
  obtain ⟨d', recipe', means⟩ := formed'.means types fun e allowed =>
    ⟨move.grows.kind (identified e allowed).1, (identified e allowed).tells h move⟩
  have same : some d = some d' := recipe.trans ((move.typeRecipe known).symm.trans recipe')
  cases same
  obtain ⟨u, rfl, _, tree⟩ := rebuildType_ok move₁.sound followed fits means
  refine ⟨u, rfl, ?_⟩
  rw [sameType_tree move.sound.toConsistent, tree]
  exact TypeTree.same_refl _

@[irreducible] def withArray : Store := ((arrayType ⟨17⟩).run withUsage).2

theorem built_array : withArray.Built (· = ⟨3⟩) ⟨18⟩ := by
  have variableBuilt : withVariable.Built (· = ⟨3⟩) ⟨13⟩ := by
    unfold withVariable
    exact .typeVariable reachable_completeSample (completeSample_has_element (i := 3) (by decide)) rfl
      (leaves (by decide +kernel))
  have usageBuilt : withUsage.Built (· = ⟨3⟩) ⟨17⟩ := by
    unfold withUsage
    refine .declared reachable_withVariable ?_ ?_ (leaves (by decide +kernel))
    · simp
    · simpa using variableBuilt
  unfold withArray
  exact .array reachable_withUsage usageBuilt (leaves (by decide +kernel))

theorem array_round_trip : ∃ d s₁ u s₂, (Describing.type .runtime ⟨18⟩).run withArray = (some d, s₁) ∧
    (rebuildType (some .runtime) d).run s₁ = (.ok u, s₂) ∧ s₂.sameType u ⟨18⟩ := by
  have fits : ((Describing.type .runtime ⟨18⟩).run withArray).1.any fun d =>
      ((rebuildType (some .runtime) d).run ((Describing.type .runtime ⟨18⟩).run withArray).2).2.names.Fits := by
    decide +kernel
  have identified : withArray.Identified .runtime ⟨3⟩ := by
    have apart : withArray.Distinguishable ⟨3⟩ := by decide +kernel
    refine ⟨by unfold IsTypeParameter; decide +kernel, apart.name .typeParameter, fun o slot found enclosing => ?_⟩
    have owner : (withArray.slot? ⟨3⟩).bind (·.enclosing) = some ⟨2⟩ := by decide +kernel
    rw [found] at owner
    cases enclosing.symm.trans owner
    exact .inl ⟨.classType, by decide +kernel, rfl⟩
  obtain ⟨d, described, fits⟩ := (Option.any_eq_true _ _).mp fits
  obtain ⟨u, followed, same⟩ := type_round_trip built_array (by rintro _ rfl; exact identified) (leaves described)
    Prod.mk.eta.symm (of_decide_eq_true fits)
  exact ⟨d, _, u, _, leaves described, leaves followed, same⟩

end built

section normalising

/-- The type has a recipe, and whoever follows it comes to the same type. -/
def TypeReturns (s : Store) (own : Recipe) (t : TypeId) : Prop :=
  ∃ d s₁, (Describing.type own t).run s = (some d, s₁) ∧
    ∀ r s₂, (rebuild (some own) d).run s₁ = (r, s₂) → s₂.names.Fits → ∃ u, r = .ok (.type u) ∧ s₂.sameType u t

/-- The element has a recipe, and whoever follows it comes to the element. -/
def ElementReturns (s : Store) (own : Recipe) (e : ElementId) : Prop :=
  ∃ d s₁, (Describing.element own e).run s = (some d, s₁) ∧
    ∀ r s₂, (rebuild (some own) d).run s₁ = (r, s₂) → s₂.names.Fits → r = .ok (.element e)

theorem GrownFromPlatform.object (grown : s.GrownFromPlatform) : ∃ top, s.objectElement? = some top := by
  have platform : withPlatform.objectElement? = some ⟨2⟩ := by decide +kernel
  have move := LeadsTo.grown grown reachable_withPlatform.sound
  exact ⟨_, find?_of_longer move.grows.typeElements platform⟩

/-- Whatever a recipe is followed to has a recipe of its own that is followed to the same, however the first one
was worded. Of the bounds of type parameters only those count that have been resolved by then. -/
theorem recipes_normalise (grown : s.GrownFromPlatform) {v : Value} {s₁ : Store}
    (followed : (rebuild (some own) d).run s = (.ok v, s₁)) (bounds : s₁.UsableBounds) :
    (∀ t, v = .type t → s₁.TypeReturns own t) ∧ ∀ e, v = .element e → s₁.ElementReturns own e := by
  have h := grown.reachable.sound
  obtain ⟨top, object⟩ := grown.object
  obtain ⟨move, known, stands⟩ := rebuild_run h followed
  have means := stands s₁.names.lexicon s₁.names.lexicon_reads
  have told : (s₁.reading s₁.names.lexicon (some own) d).Told s₁ own :=
    meaning_told move.sound (move.object.trans object) bounds d
  have again {d' : Recipe} {m : Meaning} (means' : s₁.meaning .plain (some own) d' = some m) {s₂ s₃ : Store}
      {r : Except Refusal Value} (later : s₁.Advances s₂) (run : (rebuild (some own) d').run s₂ = (r, s₃))
      (fits : s₃.names.Fits) : ∃ w, r = .ok w ∧ s₁.Advances s₃ ∧ s₃.denote w = some m := by
    obtain ⟨move', _, stands₃⟩ := rebuild_run later.sound run
    have means₃ := stands₃ .plain (Lexicon.plain_reads fits)
    have all : s₁.Advances s₃ := Movement.trans later move'
    rw [all.meaning (fun _ _ => id) means'] at means₃
    cases r with
    | error _ => cases means₃
    | ok w => exact ⟨w, rfl, all, means₃.symm⟩
  constructor
  · rintro t rfl
    have there : s₁.HasType t := known _ rfl
    obtain ⟨d', recipe, means'⟩ := Formed.told move.sound.toConsistent (told _ means)
    obtain ⟨described, same⟩ : Finds s₁ (Describing.type own t) _ := Describing.type_finds move.sound.stays there
    refine ⟨d', _, Prod.ext (same.trans recipe) rfl, fun r s₃ run fits => ?_⟩
    obtain ⟨w, rfl, all, denoted⟩ := again means' described run fits
    obtain ⟨u, rfl, tree⟩ := s₃.type_of_denote denoted
    refine ⟨u, rfl, ?_⟩
    rw [sameType_tree all.sound.toConsistent, tree, all.tree there]
    exact TypeTree.same_refl _
  · rintro e rfl
    obtain ⟨d', recipe, means'⟩ := told _ means
    obtain ⟨described, same⟩ : Finds s₁ (Describing.element own e) _ :=
      Describing.element_finds move.sound.stays (known _ rfl)
    refine ⟨d', _, Prod.ext (same.trans recipe) rfl, fun r s₃ run fits => ?_⟩
    obtain ⟨w, rfl, _, denoted⟩ := again means' described run fits
    rw [s₃.element_of_denote denoted]

/-- The method of `lang.Comparable`, by a parameter type that is not erased and in a list worded otherwise. -/
def compareToRecipe : Recipe :=
  let type := Recipe.runtime.within .typeElement [Recipe.runtime.ofName "lang.Comparable"]
  let parameter := Recipe.runtime.within .typeParameterElement [type, Recipe.runtime.ofName "T"]
  Recipe.runtime.within .executableElement [type, .elementKind .method, Recipe.runtime.ofName "compareTo",
    .invoke .listOfArray [Recipe.runtime.within .typeVariable [parameter]]]

theorem compareTo_normalises : ∃ e s₁,
    (rebuild (some .runtime) compareToRecipe).run withPlatform = (.ok (.element e), s₁) ∧
      s₁.ElementReturns .runtime e := by
  have followed : ((rebuildElement (some .runtime) compareToRecipe).run withPlatform).1.toOption = some ⟨23⟩ := by
    decide +kernel
  have followed := rebuildElement_iff.mp (leaves (ok_of_toOption followed))
  have usable : ((rebuildElement (some .runtime) compareToRecipe).run withPlatform).2.UsableBounds := by decide +kernel
  exact ⟨_, _, followed, (recipes_normalise .rest followed usable).2 _ rfl⟩

end normalising

end Store

end Nominal
