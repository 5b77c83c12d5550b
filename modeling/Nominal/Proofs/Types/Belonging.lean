import Nominal.Proofs.Types.Instantiating
/-!
Members of an instantiation. What a member is seen as from a generic type with arguments is what it is seen as from
the prototype, with the arguments in the places of the variables, whatever type between them it is inherited through.
-/

namespace Nominal

open Store StoreM

namespace Store

/-- A member of a type that may be another one from elsewhere. -/
structure Belongs (s : Store) (e o : ElementId) (member : ElementRecord) : Prop where
  complete : s.record? e = some member
  enclosing : member.enclosing = some o
  dynamic : member.isStatic = false
  type : s.IsType o

variable {s s' : Store} {c e o : ElementId} {r member owner : ElementRecord} {t : TypeTree} {args : List TypeTree}
  {σ : ElementId → Option TypeTree}

theorem super?_self (outer : TypeTree) : s.super? (.declared outer c args) c = some (some (.declared outer c args)) :=
  super?_eq_some_iff.mpr ⟨1, by rw [search?_usage, if_pos rfl]⟩

theorem seenAs_declared (outer : TypeTree) : s.seenAs owner member (.declared outer o args) =
    if owner.typeParameters.isEmpty then s.tree member.asType
    else if args.isEmpty then s.erased (s.tree member.asType)
    else (s.tree member.asType).substitute (TypeTree.binding owner.typeParameters args) := rfl

theorem seenAs_substitute (outer : TypeTree) (unbound : ∀ p ∈ (s.tree member.asType).mentions,
      TypeTree.binding owner.typeParameters args p = none → σ p = none) :
    s.seenAs owner member ((TypeTree.declared outer o args).substitute σ) =
      (s.seenAs owner member (.declared outer o args)).substitute σ := by
  rw [TypeTree.substitute, TypeTree.substituteAll_eq, seenAs_declared, seenAs_declared, List.isEmpty_map]
  split
  · rename_i plain
    refine (TypeTree.substitute_fixed _ fun p mem => ?_).symm
    rw [unbound p mem (by rw [List.isEmpty_iff.mp plain]; rfl), Option.getD_none]
  · split
    · exact s.substitute_erased _ |>.symm
    · refine TypeTree.substitute_comp _ fun p mem => ?_
      rw [TypeTree.binding_map]
      cases bound : TypeTree.binding owner.typeParameters args p with
      | some v => rfl
      | none => simp [TypeTree.substitute, unbound p mem bound]

theorem seenAs_prototype (outer : TypeTree) :
    s.seenAs owner member (.declared outer o (owner.typeParameters.map .typeVariable)) = s.tree member.asType := by
  rw [seenAs_declared, List.isEmpty_map]
  split
  · rfl
  · exact TypeTree.substitute_fixed _ fun p _ => TypeTree.binding_variables

theorem Belongs.member? (belongs : s.Belongs e o member) (h : s.Sound) (neat : s.Neat) (declared : t.kind = .declared) :
    s.member? t e = (s.record? o).bind fun owner => (s.super? t o).map (Option.map (s.seenAs owner member)) := by
  rw [Store.member?, if_neg (not_not.mpr declared), neat.outline belongs.complete, Option.bind_some,
    show member.childless.enclosing = some o from belongs.enclosing]
  dsimp only
  cases complete : s.record? o with
  | none =>
    obtain ⟨k, kind, type⟩ := belongs.type
    obtain ⟨slot, found, rfl⟩ := kind?_eq_some_iff.mp kind
    rw [outline?, found, Option.bind_eq_bind, Option.bind_some, if_neg (ElementKind.isType_not_container type), complete]
    rfl
  | some owner =>
    obtain ⟨_, _, fits⟩ := h.fits complete
    have isType : owner.childless.kind.isType := (h.lasting_of_type complete belongs.type).1
    rw [neat.outline complete, Option.bind_some, show member.childless.isStatic = false from belongs.dynamic, isType,
      show owner.childless.id = o from fits.id]
    rfl

/-- What a member is seen as from a prototype, it is seen as from an instantiation with the arguments in the places of
the variables. Only members of the type itself may speak of its variables. -/
theorem Belongs.instantiate (belongs : s.Belongs e o member) (h : s.Sound) (neat : s.Neat) (resolves : s.ResolvesAbove c)
    (own : s.OwnAbove c) (complete : s.record? c = some r) (type : s.IsType c)
    (length : args.length = r.typeParameters.length)
    (foreign : ∀ p ∈ (s.tree member.asType).mentions, p ∈ r.typeParameters → o = c) {seen : Option TypeTree}
    (told : s.member? (s.tree r.asType) e = some seen) :
    s.member? (.declared .none c args) e = some (seen.map (.substitute (TypeTree.binding r.typeParameters args))) ∧
      (o = c → seen = some (s.tree member.asType)) := by
  have prototype := (h.prototype_tree complete type).2
  rw [belongs.member? h neat (by rw [prototype]; rfl)] at told
  obtain ⟨owner, complete', told⟩ := Option.bind_eq_some_iff.mp told
  obtain ⟨view, search, rfl⟩ := Option.map_eq_some_iff.mp told
  constructor
  · rw [belongs.member? h neat rfl, complete', Option.bind_some,
      h.super?_instantiate resolves own complete type length search, Option.map_some]
    cases view with
    | none => rfl
    | some view =>
      obtain ⟨outer, seenArgs, rfl⟩ := super?_found search
      simp only [Option.map_some]
      congr 2
      refine seenAs_substitute outer fun p mem unbound => TypeTree.binding_none fun parameter => ?_
      cases foreign p mem parameter
      cases complete.symm.trans complete'
      rw [prototype, super?_self] at search
      cases search
      exact TypeTree.mem_of_unbound (by simp) unbound parameter
  · rintro rfl
    cases complete.symm.trans complete'
    rw [prototype, super?_self] at search
    cases search
    rw [Option.map_some, seenAs_prototype]

end Store

namespace StoreM

variable {s s₁ : Store} {c e : ElementId} {t : TypeId}

/-- Through ancestors that were resolved the view of a member is found, or found not to be there. -/
theorem asMemberOf?_ends (h : s.Sound) (known : s.HasType t) (ancestor : s.Ancestor c (s.tree t)) (e : ElementId) :
    Ensures Advances s (asMemberOf? t e).run fun answer s' => s'.ResolvesAbove c → answer.isSome := by
  refine .option_get ?_
  split
  · exact .pure h.stays fun _ => rfl
  refine .option_step (complete_outline h e) fun member s₁ move₁ told => ?_
  have record := told.1
  split
  · exact .pure move₁.sound.stays fun _ => rfl
  rename_i o _
  refine .option_step (complete_outline move₁.sound o) fun owner s₂ move₂ _ => ?_
  split
  · exact .pure move₂.sound.stays fun _ => rfl
  have from₂ := Movement.trans move₁ move₂
  have known₂ := from₂.moves.grows.has_type known
  have ancestor₂ : s₂.Ancestor c (s₂.tree t) := from₂.tree known ▸ from₂.toRetains.ancestor ancestor
  have search := asSuper?_ensures move₂.sound known₂ owner.id
  have both : Ensures Advances s₂ (asSuper? t owner.id).run fun answer s' =>
      (∀ u? ∈ answer, ∀ u ∈ u?, s'.HasType u) ∧ (s'.ResolvesAbove c → answer.isSome) :=
    ⟨search.1, search.2.1, asSuper?_ends move₂.sound known₂ ancestor₂ rfl⟩
  refine both.option_bind (fun s₃ _ found => found.2) fun view s₃ move₃ found => ?_
  cases view with
  | none => exact .option_get (.pure move₃.sound.stays fun _ => rfl)
  | some view =>
    have record₃ := record.advance (Movement.trans move₂ move₃)
    exact .option_step (viewMember_ensures move₃.sound owner record₃ (found.1 _ rfl view rfl)) fun u s₄ move₄ _ =>
      .pure move₄.sound.stays fun _ => rfl

end StoreM

/-- Views of members commute with the instantiation of a generic type: a member is one of the instantiation if and only
if it is one of the prototype, and then it is seen as what it is seen as from the prototype with the arguments in the
places of the parameters. From the prototype of its own type a member is seen as it was declared. -/
theorem member_views_commute_with_instantiation {s s₁ s₂ s₃ s₄ : Store} {c m o : ElementId} {usage : TypeId}
    {args : List TypeId} {r member : ElementRecord} {answer answer' : Option (Except Fault TypeId)}
    (reachable : s.Reachable) (there : s.HasElement m) (made : (declaredType none c args).run s = (.ok usage, s₁))
    (viewed : (asMemberOf? usage m).run s₁ = (answer, s₂)) (completed : (complete c).run s₂ = (r, s₃))
    (viewed' : (asMemberOf? r.asType m).run s₃ = (answer', s₄)) (length : args.length = r.typeParameters.length)
    (resolves : s₄.ResolvesAbove c) (own : s₄.OwnAbove c) (belongs : s₄.Belongs m o member)
    (foreign : ∀ p ∈ (s₄.tree member.asType).mentions, p ∈ r.typeParameters → o = c) :
    ((∃ fault fault', answer = some (.error fault) ∧ answer' = some (.error fault')) ∨
      ∃ u v, answer = some (.ok u) ∧ answer' = some (.ok v) ∧
        ∀ w s₅, (substitute ⟨r.typeParameters, args⟩ v).run s₄ = (w, s₅) → s₅.sameType u w) ∧
    (o = c → ∃ v, answer' = some (.ok v) ∧ s₄.sameType v member.asType) := by
  obtain ⟨move₁, type, known, there₁, tree⟩ := declaredType_accepted reachable.sound made
  have neat₁ : s₁.Neat := by
    have reached := reachable.declaredType type.there known
    rw [made] at reached
    exact reached.neat
  obtain ⟨move₂, known₂, told⟩ := (asMemberOf?_ensures move₁.sound there₁ m).result viewed
  have neat₂ := neat₁.asked (keeping_asMemberOf? usage m) move₂ viewed
  have from₂ := Movement.trans move₁ move₂
  obtain ⟨move₃, complete₃, known₃, ancestor₃⟩ := complete_prototype move₂.sound (from₂.isType type) completed
  have neat₃ := (((complete_outline move₂.sound c).result completed).2.2 neat₂).1
  obtain ⟨move₄, known₄, told'⟩ := (asMemberOf?_ensures move₃.sound known₃ m).result viewed'
  have neat₄ := neat₃.asked (keeping_asMemberOf? r.asType m) move₄ viewed'
  have later := Movement.trans move₃ move₄
  have from₃ := Movement.trans from₂ move₃
  have from₄ := Movement.trans from₂ later
  -- Neither question goes without an answer.
  have ancestor₁ : s₁.Ancestor c (s₁.tree usage) := tree ▸ .refl
  obtain ⟨x, rfl⟩ := Option.isSome_iff_exists.mp <|
    ((asMemberOf?_ends move₁.sound there₁ ancestor₁ m).result viewed).2 (later.toRetains.resolvesAbove resolves)
  obtain ⟨y, rfl⟩ := Option.isSome_iff_exists.mp <|
    ((asMemberOf?_ends move₃.sound known₃ ancestor₃ m).result viewed').2 resolves
  replace told := later.toRetains.member? (told neat₁ (move₁.moves.grows.has_element there))
  replace told' := told' neat₃ (from₃.moves.grows.has_element there)
  rw [← move₄.tree known₃] at told'
  have complete₄ := move₄.record_of_type complete₃ (from₃.isType type)
  obtain ⟨instantiated, declared⟩ : s₄.member? (.declared .none c (args.map s.tree)) m = _ ∧ _ :=
    belongs.instantiate move₄.sound neat₄ resolves own complete₄ (from₄.isType type) (by simpa using length) foreign told'
  have same := Option.some.inj (instantiated.symm.trans (tree ▸ told))
  cases y with
  | error fault' =>
    cases x with
    | error fault => exact ⟨.inl ⟨fault, fault', rfl, rfl⟩, fun own => by cases declared own⟩
    | ok u => cases same
  | ok v =>
    cases x with
    | error fault => cases same
    | ok u =>
      have there₂ : s₂.HasType u := known₂ _ rfl u rfl
      have there₄ : s₄.HasType v := known₄ _ rfl v rfl
      have types : Instantiation.Known ⟨r.typeParameters, args⟩ s₄ := fun t mem =>
        from₄.moves.grows.has_type (known t mem)
      refine ⟨.inr ⟨u, v, rfl, rfl, fun w s₅ => sameType_of_substituted move₄.sound types there₄
        (later.moves.grows.has_type there₂) ?_⟩, fun own => ⟨v, rfl, ?_⟩⟩
      · rw [later.tree there₂, Store.binding, from₄.map_tree known]
        exact (Option.some.inj same).symm
      · rw [sameType_tree move₄.sound.toConsistent, Option.some.inj (declared own)]
        exact TypeTree.same_refl _

section sample

namespace Store

def crateProgram : PackageDecl :=
  { package := commonPackage
    types :=
      [.mk { kind := .classType, name := "Object" } [],
        .mk { kind := .classType, name := "Box", typeParameters := [{ name := "T" }]
              members := [.field "content" (.var "T") []] } [],
        .mk { kind := .classType, name := "Crate", typeParameters := [{ name := "E" }]
              superclass := some (.named "lang.Box" [.named "lang.Box" [.var "E"]]) } []] }

@[irreducible] def crates : Store :=
  (Request.run (.complete ⟨2⟩) (Request.run (.enterDeclarations crateProgram) .empty).2).2

@[irreducible] def topUsed : Store := ((declaredType none ⟨1⟩ []).run crates).2

@[irreducible] def crateUsed : Store := ((declaredType none ⟨3⟩ [⟨16⟩]).run topUsed).2

theorem reachable_topUsed : topUsed.Reachable := by
  have entered : (Request.run (.enterDeclarations crateProgram) .empty).2.Reachable :=
    .ask (.enterDeclarations crateProgram) .rest ⟨by simp [Request.elements], by simp [Request.types]⟩
  have completed : crates.Reachable := by
    unfold crates
    refine .ask (.complete ⟨2⟩) entered ⟨?_, by simp [Request.types]⟩
    simp only [Request.elements, List.forall_mem_singleton]
    exact show 2 < (Request.run (.enterDeclarations crateProgram) .empty).2.elements.size by decide +kernel
  unfold topUsed
  exact completed.declaredType (show 1 < crates.elements.size by decide +kernel) (by simp)

end Store

/-- What is in a crate of top types is a box of them, as what is in any crate is a box. -/
theorem content_of_crate : ∃ s₂ s₃ s₄, (asMemberOf? ⟨17⟩ ⟨5⟩).run crateUsed = (some (.ok ⟨22⟩), s₂) ∧
    (asMemberOf? ⟨19⟩ ⟨5⟩).run s₃ = (some (.ok ⟨20⟩), s₄) ∧
    ∀ w s₅, (substitute ⟨[⟨6⟩], [⟨16⟩]⟩ ⟨20⟩).run s₄ = (w, s₅) → s₅.sameType ⟨22⟩ w := by
  have made : (declaredType none ⟨3⟩ [⟨16⟩]).run topUsed = (.ok ⟨17⟩, crateUsed) := by
    unfold crateUsed
    exact leaves (by decide +kernel)
  obtain ⟨s₂, viewed, is⟩ : ∃ s₂, (asMemberOf? ⟨17⟩ ⟨5⟩).run crateUsed = (some (.ok ⟨22⟩), s₂) ∧
      s₂ = ((asMemberOf? ⟨17⟩ ⟨5⟩).run crateUsed).2 := ⟨_, leaves (by decide +kernel), rfl⟩
  obtain ⟨r, s₃, completed, asType, parameters, is'⟩ : ∃ r s₃, (complete ⟨3⟩).run s₂ = (r, s₃) ∧ r.asType = ⟨19⟩ ∧
      r.typeParameters = [⟨6⟩] ∧ s₃ = ((complete ⟨3⟩).run s₂).2 := by
    refine ⟨_, _, rfl, ?_, ?_, rfl⟩ <;> rw [is] <;> decide +kernel
  obtain ⟨s₄, viewed', resolves, own, ⟨member, recorded, enclosing, dynamic, foreign⟩, kind⟩ : ∃ s₄,
      (asMemberOf? ⟨19⟩ ⟨5⟩).run s₃ = (some (.ok ⟨20⟩), s₄) ∧ s₄.ResolvesAbove ⟨3⟩ ∧ s₄.OwnAbove ⟨3⟩ ∧
      (∃ member ∈ s₄.record? ⟨5⟩, member.enclosing = some ⟨2⟩ ∧ member.isStatic = false ∧
        ∀ p ∈ (s₄.tree member.asType).mentions, p ∉ [⟨6⟩]) ∧ s₄.kind? ⟨2⟩ = some .classType := by
    rw [is', is]
    exact ⟨_, leaves (by decide +kernel), resolvesAbove_of_all (by decide +kernel),
      ownAbove_of_all (by decide +kernel), by decide +kernel, by decide +kernel⟩
  obtain ⟨told, _⟩ := member_views_commute_with_instantiation reachable_topUsed
    (show 5 < topUsed.elements.size by decide +kernel) made viewed completed (asType ▸ viewed')
    (by rw [parameters]; rfl) resolves own ⟨recorded, enclosing, dynamic, .classType, kind, rfl⟩
    fun p mentioned parameter => absurd (parameters ▸ parameter) (foreign p mentioned)
  rcases told with ⟨_, _, refused, _⟩ | ⟨u, v, seen, seen', same⟩
  · cases refused
  · cases seen
    cases seen'
    exact ⟨s₂, s₃, s₄, viewed, viewed', parameters ▸ same⟩

end sample

end Nominal
