import Nominal.Proofs.Types.Descending
/-!
Supertypes of an instantiation. The search over the supertypes of a generic type with arguments and the one over the
supertypes of its prototype visit the same elements in the same order, and each type that the one meets is what the
other meets with the arguments put in the places of the variables.
-/

namespace Nominal

open Store StoreM

namespace TypeTree

variable {σ : ElementId → Option TypeTree} {parameters : List ElementId} {args : List TypeTree} {p : ElementId}

theorem binding_map (f : TypeTree → TypeTree) : binding parameters (args.map f) p = (binding parameters args p).map f := by
  simp [binding, Option.map_bind]

theorem binding_none (apart : p ∉ parameters) : binding parameters args p = .none := by
  rw [binding, List.idxOf?_eq_none_iff.mpr apart, Option.bind_none]

theorem mem_of_unbound (length : args.length = parameters.length) (unbound : binding parameters args p = .none) :
    p ∉ parameters := by
  intro mem
  obtain ⟨i, place⟩ := Option.ne_none_iff_exists'.mp (mt List.idxOf?_eq_none_iff.mp (not_not.mpr mem))
  obtain ⟨bound, _⟩ := List.idxOf?_eq_some_iff.mp place
  rw [binding, place, Option.bind_some, List.getElem?_eq_none_iff] at unbound
  omega

theorem map_binding (nodup : parameters.Nodup) (length : args.length = parameters.length) :
    (parameters.map typeVariable).map (substitute (binding parameters args)) = args := by
  refine List.ext_getElem (by simp [length]) fun i _ bound => ?_
  have there : i < parameters.length := length ▸ bound
  have place : parameters.idxOf? parameters[i] = some i :=
    List.idxOf?_eq_some_iff.mpr ⟨there, rfl, fun j less same =>
      absurd ((List.Nodup.getElem_inj_iff nodup).mp same) (by omega)⟩
  simp [substitute, binding, place, bound]

theorem binding_variables : (binding parameters (parameters.map typeVariable) p).getD (typeVariable p) = typeVariable p := by
  unfold binding
  cases place : parameters.idxOf? p with
  | none => rfl
  | some i =>
    obtain ⟨bound, same, _⟩ := List.idxOf?_eq_some_iff.mp place
    simp [bound, same]

theorem mentions_erase {c : Context} (top : c.top.mentions = []) (depth : Nat) (t : TypeTree) :
    (t.erase c depth).mentions = [] := by
  have all (ts : List TypeTree) (each : ∀ t ∈ ts, t.mentions = []) : mentionsAll ts = [] := by
    induction ts with
    | nil => rfl
    | cons t ts ih => rw [mentionsAll, each t (by simp), ih fun u mem => each u (by simp [mem])]; rfl
  induction depth generalizing t with
  | zero => exact top
  | succ depth ih =>
    cases t with
    | array a => exact ih a
    | declared _ _ _ => rfl
    | typeVariable e => exact ih _
    | wildcard upper lower =>
      cases upper with
      | none => exact top
      | some b => exact ih b
    | intersection ts | union ts =>
      cases ts with
      | nil => rfl
      | cons b _ => exact ih b
    | executable n ps r ts =>
      have each (us : List TypeTree) : mentionsAll (us.map (erase c depth)) = [] := by
        refine all _ fun t mem => ?_
        obtain ⟨u, _, rfl⟩ := List.mem_map.mp mem
        exact ih u
      simp only [erase, mentions, each, ih, List.append_nil]
    | primitive _ | noType _ | null | error _ => rfl

end TypeTree

def Outlook.substitute (σ : ElementId → Option TypeTree) (o : Outlook) : Outlook :=
  ⟨o.seen, o.next.map (.substitute σ)⟩

namespace Store

/-- What is declared as a supertype by `c`, or by a type that `c` descends from, has no other variables than those of
the type that declares it. -/
def OwnAbove (s : Store) (c : ElementId) : Prop :=
  ∀ d r, s.Descends c d → s.lasting? d = some r →
    ∀ t ∈ r.superclass :: r.interfaces, ∀ p ∈ (s.tree t).mentions, p ∈ r.typeParameters

def Confined (s : Store) (c : ElementId) (σ : ElementId → Option TypeTree) : Prop :=
  ∀ d r, d ≠ c → s.record? d = some r → ∀ p ∈ r.typeParameters, σ p = none

variable {s s' : Store} {c d target : ElementId} {r : ElementRecord} {t u : TypeTree} {args : List TypeTree}
  {σ : ElementId → Option TypeTree}

theorem mentions_objectTree (s : Store) : s.objectTree.mentions = [] := by
  rcases s.context_fits with nothing | ⟨e, same⟩
  · exact congrArg _ nothing
  · exact congrArg _ same

theorem substitute_erased (s : Store) (t : TypeTree) : (s.erased t).substitute σ = s.erased t := by
  refine TypeTree.substitute_fixed _ fun p mem => ?_
  rw [erased, TypeTree.mentions_erase s.mentions_objectTree] at mem
  cases mem

section parameters

theorem Grown.isType (move : s.Grown s') (type : s.IsType c) : s'.IsType c := by
  obtain ⟨k, kind, isType⟩ := type
  exact ⟨k, move.grows.kind kind, isType⟩

theorem Sound.lasting_of_type (h : s.Sound) (complete : s.record? c = some r) (type : s.IsType c) :
    r.kind.isType ∧ s.lasting? c = some r := by
  obtain ⟨k, kind, isType⟩ := type
  obtain ⟨rfl, lasts⟩ := h.lasting_of_kind complete kind (ElementKind.isType_not_container isType)
  exact ⟨isType, lasts⟩

theorem Sound.confined (h : s.Sound) (complete : s.record? c = some r) : s.Confined c (TypeTree.binding r.typeParameters args) := by
  intro d r' other complete' p mem
  obtain ⟨_, _, fits⟩ := h.fits complete
  obtain ⟨_, _, fits'⟩ := h.fits complete'
  refine TypeTree.binding_none fun mem' => other ?_
  rw [fits'.typeParameters] at mem
  rw [fits.typeParameters] at mem'
  obtain ⟨slot, found, _, inside, _⟩ := mem_ownedOf.mp mem
  obtain ⟨slot', found', _, inside', _⟩ := mem_ownedOf.mp mem'
  cases found.symm.trans found'
  exact Option.some.inj (inside.symm.trans inside')

theorem Consistent.variables_tree (h : s.Consistent) {parameters : List ElementId} {variables_ : List TypeId}
    (all : List.Forall₂ s.IsVariable parameters variables_) :
    variables_.map s.tree = parameters.map .typeVariable := by
  induction all with
  | nil => rfl
  | cons first _ ih =>
    obtain ⟨upper, shape⟩ := first
    rw [List.map_cons, List.map_cons, ih, h.tree_of_shape shape, TypeShape.unfold]

theorem Retains.record_of_type (move : s.Retains s') (complete : s.record? c = some r) (type : s.IsType c) :
    s'.record? c = some r :=
  (lasting?_eq_some_iff.mp (move.lasting (move.start.lasting_of_type complete type).2)).1

theorem Sound.prototype_tree (h : s.Sound) (complete : s.record? c = some r) (type : s.IsType c) :
    r.typeParameters.Nodup ∧ s.tree r.asType = .declared .none c (r.typeParameters.map .typeVariable) := by
  obtain ⟨slot, found, fits⟩ := h.fits complete
  obtain ⟨k, kind, isType⟩ := type
  rw [kind?, found] at kind
  cases kind
  obtain ⟨vars, shape, all⟩ := fits.prototype isType
  refine ⟨fits.typeParameters ▸ (s.owned_nodup c).filter _, ?_⟩
  rw [h.tree_of_shape shape, TypeShape.unfold, h.tree_none, h.variables_tree all]

end parameters

section search

theorem OwnAbove.declaredAbove (own : s.OwnAbove c) (descends : s.Descends c d) (lasts : s.lasting? d = some r)
    (mem : u ∈ s.declaredAbove r) : ∀ p ∈ u.mentions, p ∈ r.typeParameters := by
  rcases declaredAbove_cases mem with ⟨t, listed, rfl⟩ | ⟨_, _, rfl⟩
  · exact own d r descends lasts t listed
  · rw [s.mentions_objectTree]
    simp

theorem seenAbove_substitute (own : ∀ u ∈ s.declaredAbove r, ∀ p ∈ u.mentions, p ∈ r.typeParameters)
    (unbound : ∀ p ∈ r.typeParameters, TypeTree.binding r.typeParameters args p = none → σ p = none) :
    s.seenAbove r (args.map (.substitute σ)) = (s.seenAbove r args).map (.substitute σ) := by
  unfold seenAbove
  rw [List.isEmpty_map]
  split
  · rename_i plain
    refine (List.map_id _).symm.trans (List.map_congr_left fun u mem => (TypeTree.substitute_fixed u fun p there => ?_).symm)
    rw [List.isEmpty_iff] at plain
    exact absurd (own u mem p there) (by simp [plain])
  · split
    · rw [List.map_map]
      exact List.map_congr_left fun u _ => (s.substitute_erased u).symm
    · rw [List.map_map]
      refine List.map_congr_left fun u mem => TypeTree.substitute_comp u fun p there => ?_
      rw [TypeTree.binding_map]
      cases bound : TypeTree.binding r.typeParameters args p with
      | some v => rfl
      | none => simp [TypeTree.substitute, unbound p (own u mem p there) bound]

theorem look_seen {o o' : Outlook} (looked : s.look target o t = some (.inr o')) : o.seen ⊆ o'.seen := by
  have keeps (looked : some (.inr o) = some (Sum.inr o' : TypeTree ⊕ Outlook)) : o.seen ⊆ o'.seen := by
    cases looked
    exact List.Subset.refl _
  have follows (ts? : Option (List TypeTree)) (looked :
      ts?.map (fun ts => Sum.inr { o with next := o.next ++ ts }) = some (Sum.inr o' : TypeTree ⊕ Outlook)) :
      o.seen ⊆ o'.seen := by
    obtain ⟨ts, _, same⟩ := Option.map_eq_some_iff.mp looked
    cases same
    exact List.Subset.refl _
  cases t with
  | declared outer e args =>
    rw [look] at looked
    split at looked
    · cases looked
    · split at looked
      · exact keeps looked
      · obtain ⟨ts, _, same⟩ := Option.map_eq_some_iff.mp looked
        cases same
        exact List.subset_cons_self _ _
  | typeVariable _ | intersection _ =>
    rw [look] at looked
    exact follows _ looked
  | _ => exact keeps looked

theorem lookAll_seen {o o' : Outlook} {ts : List TypeTree} (looked : s.lookAll target o ts = some (.inr o')) :
    o.seen ⊆ o'.seen := by
  induction ts generalizing o with
  | nil =>
    cases looked
    exact List.Subset.refl _
  | cons t ts ih =>
    obtain ⟨first, looked₁, looked⟩ := Option.bind_eq_some_iff.mp looked
    cases first with
    | inl v => cases looked
    | inr o₁ => exact List.Subset.trans (look_seen looked₁) (ih looked)

theorem look_substitute (own : s.OwnAbove c) (confined : s.Confined c σ) {o : Outlook} (seen : c ∈ o.seen)
    (ancestor : s.Ancestor c t) : s.look target (o.substitute σ) (t.substitute σ) =
      (s.look target o t).map (Sum.map (.substitute σ) (.substitute σ)) := by
  cases t with
  | declared outer d args =>
    rw [TypeTree.substitute, TypeTree.substituteAll_eq, look, look]
    change (if d = target then _ else if d ∈ o.seen then _ else _) = _
    split
    · rw [Option.map_some, Sum.map_inl, TypeTree.substitute, TypeTree.substituteAll_eq]
    · split
      · rfl
      · rename_i new
        simp only [above?, Option.map_map]
        refine Option.map_congr fun r lasts => ?_
        have apart := confined d r (fun same => new (same ▸ seen)) (lasting?_eq_some_iff.mp lasts).1
        have seenAbove : s.seenAbove r (args.map (.substitute σ)) = (s.seenAbove r args).map (.substitute σ) :=
          seenAbove_substitute (fun u mem => own.declaredAbove ancestor lasts mem) fun p mem _ => apart p mem
        by_cases isType : r.kind.isType <;> simp [isType, seenAbove, Outlook.substitute]
  | error _ | noType _ => rfl
  | _ => exact ancestor.elim

theorem lookAll_substitute (h : s.Sound) (resolves : s.ResolvesAbove c) (own : s.OwnAbove c) (confined : s.Confined c σ)
    {o : Outlook} {ts : List TypeTree} (seen : c ∈ o.seen) (next : ∀ t ∈ o.next, s.Ancestor c t)
    (ancestors : ∀ t ∈ ts, s.Ancestor c t) : s.lookAll target (o.substitute σ) (ts.map (.substitute σ)) =
      (s.lookAll target o ts).map (Sum.map (.substitute σ) (.substitute σ)) := by
  induction ts generalizing o with
  | nil => rfl
  | cons t ts ih =>
    rw [List.map_cons, lookAll, lookAll, look_substitute own confined seen (ancestors t (by simp))]
    cases looked : s.look target o t with
    | none => rfl
    | some first =>
      cases first with
      | inl v => rfl
      | inr o₁ =>
        have next₁ := (resolves.look h next (ancestors t (by simp)) looked).2 o₁ rfl
        simpa using ih (look_seen looked seen) next₁ fun t mem => ancestors t (by simp [mem])

theorem search?_substitute (h : s.Sound) (resolves : s.ResolvesAbove c) (own : s.OwnAbove c) (confined : s.Confined c σ)
    {o : Outlook} (seen : c ∈ o.seen) (next : ∀ t ∈ o.next, s.Ancestor c t) (levels : Nat) :
    s.search? target levels (o.substitute σ) = (s.search? target levels o).map (Option.map (.substitute σ)) := by
  induction levels generalizing o with
  | zero => rfl
  | succ levels ih =>
    rw [search?_succ, lookStep, lookStep, Outlook.substitute, List.isEmpty_map]
    split
    · rfl
    · have looks : s.lookAll target ⟨o.seen, []⟩ (o.next.map (.substitute σ)) = _ :=
        lookAll_substitute h resolves own confined (o := { o with next := [] }) seen (by simp) next
      rw [looks]
      cases looked : s.lookAll target { o with next := [] } o.next with
      | none => rfl
      | some first =>
        cases first with
        | inl v => rfl
        | inr o₁ =>
          have next₁ := (resolves.lookAll h (o := { o with next := [] }) (by simp) next looked).2 o₁ rfl
          simpa using ih (lookAll_seen looked seen) next₁

theorem search?_usage (o : TypeTree) (levels : Nat) : s.search? target (levels + 1) ⟨[], [.declared o c args]⟩ =
    if c = target then some (some (.declared o c args))
    else (s.above? (.declared o c args)).bind fun ts => s.search? target levels ⟨[c], ts⟩ := by
  rw [search?_succ]
  simp only [lookStep, List.isEmpty_cons, lookAll, look, List.not_mem_nil, if_false, List.nil_append,
    Bool.false_eq_true]
  split
  · rfl
  · cases s.above? (.declared o c args) <;> rfl

/-- What is found above a prototype is found above an instantiation, with the arguments in the places of the variables. -/
theorem Sound.super?_instantiate (h : s.Sound) (resolves : s.ResolvesAbove c) (own : s.OwnAbove c)
    (complete : s.record? c = some r) (type : s.IsType c) (length : args.length = r.typeParameters.length)
    {found : Option TypeTree} (search : s.super? (s.tree r.asType) target = some found) :
    s.super? (.declared .none c args) target = some (found.map (.substitute (TypeTree.binding r.typeParameters args))) := by
  obtain ⟨levels, search⟩ := super?_eq_some_iff.mp search
  obtain ⟨nodup, prototype⟩ := h.prototype_tree complete type
  refine super?_eq_some_iff.mpr ⟨levels, ?_⟩
  obtain ⟨isType, lasts⟩ := h.lasting_of_type complete type
  have above (as : List TypeTree) : s.above? (.declared .none c as) = some (s.seenAbove r as) := by
    rw [above?, lasts, Option.map_some, if_pos isType]
  have instantiated := TypeTree.map_binding nodup length
  generalize r.typeParameters.map TypeTree.typeVariable = variables_ at prototype instantiated
  cases levels with
  | zero => cases search
  | succ levels =>
    rw [prototype, search?_usage, above, Option.bind_some] at search
    rw [search?_usage, above, Option.bind_some]
    split
    · rw [if_pos ‹_›] at search
      cases search
      rw [Option.map_some, TypeTree.substitute, TypeTree.substituteAll_eq, instantiated]
    · rw [if_neg ‹_›] at search
      have seenAbove : s.seenAbove r args =
          (s.seenAbove r variables_).map (.substitute (TypeTree.binding r.typeParameters args)) := by
        rw [← seenAbove_substitute (fun u mem => own.declaredAbove .refl lasts mem) fun p mem unbound =>
          absurd mem (TypeTree.mem_of_unbound ?_ unbound), instantiated]
        rw [← length, ← instantiated, List.length_map]
      have next (u : TypeTree) (mem : u ∈ s.seenAbove r variables_) : s.Ancestor c u :=
        resolves.seenAbove h .refl lasts isType mem
      rw [seenAbove]
      refine (search?_substitute h resolves own (h.confined complete) (o := ⟨[c], s.seenAbove r variables_⟩)
        (List.mem_singleton_self c) next levels).trans ?_
      exact congrArg (Option.map _) search

end search

end Store

namespace StoreM

variable {s s₁ : Store} {c : ElementId} {usage : TypeId} {args : List TypeId}

theorem declaredType_accepted (h : s.Sound) (made : (declaredType none c args).run s = (.ok usage, s₁)) :
    s.Advances s₁ ∧ s.IsType c ∧ (∀ t ∈ args, s.HasType t) ∧ s₁.HasType usage ∧
      s₁.tree usage = .declared .none c (args.map s.tree) := by
  have makes := declaredType_makes (s := s) none c args
  by_cases holds : s.Admits (.declared .none c args) ∧ ∀ t ∈ none, s.Is isOuterKind t
  · obtain ⟨⟨type, _, arguments⟩, _⟩ := id holds
    have known (t : TypeId) (mem : t ∈ args) : s.HasType t := (arguments t mem).known
    have composes : s.Composes (.declared .none c args) := by
      refine ⟨by simpa [TypeShape.parts] using ⟨h.has_none, known⟩, ?_, by simp⟩
      rintro _ _ _ ⟨⟩
      exact ⟨type, .inl rfl⟩
    rw [makes.made holds] at made
    cases made
    obtain ⟨move, there, tree⟩ := newType_tree h composes
    refine ⟨move, type, known, there, tree.trans ?_⟩
    rw [TypeShape.unfold, h.tree_none]
  · obtain ⟨fault, refused⟩ := makes.refused holds
    rw [refused] at made
    cases made

theorem complete_prototype {r : ElementRecord} (h : s.Sound) (type : s.IsType c) (completed : (complete c).run s = (r, s₁)) :
    s.Advances s₁ ∧ s₁.record? c = some r ∧ s₁.HasType r.asType ∧ s₁.Ancestor c (s₁.tree r.asType) := by
  obtain ⟨move, recorded⟩ := (complete_record h type.there).result completed
  refine ⟨move, recorded, (move.sound.recordKnown recorded).asType, ?_⟩
  rw [(move.sound.prototype_tree recorded (move.isType type)).2]
  exact .refl

/-- What is made by substitution is the same type as what has the tree. -/
theorem sameType_of_substituted {i : Instantiation} {v w u : TypeId} (h : s.Sound) (types : i.Known s)
    (known : s.HasType v) (known' : s.HasType u) (same : s.tree u = (s.tree v).substitute (s.binding i))
    (substituted : (substitute i v).run s = (w, s₁)) : s₁.sameType u w := by
  obtain ⟨move, there, tree⟩ := (substitute_ensures h types known).result substituted
  exact move.sound.same_of_tree (by rw [move.tree known', same, tree])

end StoreM

/-- Views of the supertypes of a generic type commute with its instantiation. Both searches come to an end, whatever
circles there are above the type, and the one finds a usage of the element if and only if the other does; this is what
the other one found with the arguments in the places of the parameters. -/
theorem supertype_views_commute_with_instantiation {s s₁ s₂ s₃ s₄ : Store} {c e : ElementId} {usage : TypeId}
    {args : List TypeId} {r : ElementRecord} {answer answer' : Option (Option TypeId)} (reachable : s.Reachable)
    (made : (declaredType none c args).run s = (.ok usage, s₁))
    (searched : (asSuper? usage e).run s₁ = (answer, s₂)) (completed : (complete c).run s₂ = (r, s₃))
    (searched' : (asSuper? r.asType e).run s₃ = (answer', s₄)) (length : args.length = r.typeParameters.length)
    (resolves : s₄.ResolvesAbove c) (own : s₄.OwnAbove c) :
    answer = some none ∧ answer' = some none ∨ ∃ u v, answer = some (some u) ∧ answer' = some (some v) ∧
      ∀ w s₅, (substitute ⟨r.typeParameters, args⟩ v).run s₄ = (w, s₅) → s₅.sameType u w := by
  obtain ⟨move₁, type, known, there, tree⟩ := declaredType_accepted reachable.sound made
  obtain ⟨move₂, there₂, found⟩ := (asSuper?_ensures move₁.sound there e).result searched
  have from₂ := Movement.trans move₁ move₂
  obtain ⟨move₃, complete₃, known₃, ancestor₃⟩ := complete_prototype move₂.sound (from₂.isType type) completed
  obtain ⟨move₄, there₄, found'⟩ := (asSuper?_ensures move₃.sound known₃ e).result searched'
  have later := Movement.trans move₃ move₄
  have from₄ := Movement.trans from₂ later
  -- Neither search goes on for ever.
  have ancestor₁ : s₁.Ancestor c (s₁.tree usage) := tree ▸ .refl
  obtain ⟨x, rfl⟩ := Option.isSome_iff_exists.mp <|
    asSuper?_ends move₁.sound there ancestor₁ searched (later.toRetains.resolvesAbove resolves)
  obtain ⟨y, rfl⟩ := Option.isSome_iff_exists.mp <| asSuper?_ends move₃.sound known₃ ancestor₃ searched' resolves
  rw [← move₄.tree known₃] at found'
  have complete₄ := move₄.record_of_type complete₃ (Movement.trans from₂ move₃ |>.isType type)
  have instantiated : s₄.super? (.declared .none c (args.map s.tree)) e = _ :=
    move₄.sound.super?_instantiate resolves own complete₄ (from₄.isType type) (by simpa using length) found'
  have same := instantiated.symm.trans (tree ▸ later.toRetains.super? found)
  cases y with
  | none =>
    cases x with
    | none => exact .inl ⟨rfl, rfl⟩
    | some u => cases same
  | some v =>
    cases x with
    | none => cases same
    | some u =>
      have known₂ : s₂.HasType u := there₂ _ rfl u rfl
      have types : Instantiation.Known ⟨r.typeParameters, args⟩ s₄ := fun t mem =>
        from₄.moves.grows.has_type (known t mem)
      refine .inr ⟨u, v, rfl, rfl, fun w s₅ => sameType_of_substituted move₄.sound types (there₄ _ rfl v rfl)
        (later.moves.grows.has_type known₂) ?_⟩
      rw [later.tree known₂, Store.binding, from₄.map_tree known]
      exact (Option.some.inj (Option.some.inj same)).symm

section sample

namespace Store

@[irreducible] def ringOfObjects : Store := ((declaredType none ⟨2⟩ [⟨13⟩]).run ringUsages).2

theorem ownAbove_of_all {s : Store} {c : ElementId} (all : ∀ i < s.elements.size, ∀ r ∈ s.lasting? ⟨i⟩,
    ∀ t ∈ r.superclass :: r.interfaces, ∀ p ∈ (s.tree t).mentions, p ∈ r.typeParameters) : s.OwnAbove c := by
  intro d r _ lasts
  obtain ⟨slot, found, _⟩ := record?_eq_some_iff.mp (lasting?_eq_some_iff.mp lasts).1
  exact all d.index (has_element_iff.mpr ⟨slot, found⟩) r lasts

end Store

/-- Above a ring of top types there is a bow of rings of rings of them. -/
theorem bow_above_ring : ∃ s₂ s₃ s₄, (asSuper? ⟨16⟩ ⟨3⟩).run ringOfObjects = (some (some ⟨25⟩), s₂) ∧
    (asSuper? ⟨19⟩ ⟨3⟩).run s₃ = (some (some ⟨22⟩), s₄) ∧
    ∀ w s₅, (substitute ⟨[⟨5⟩], [⟨13⟩]⟩ ⟨22⟩).run s₄ = (w, s₅) → s₅.sameType ⟨25⟩ w := by
  have made : (declaredType none ⟨2⟩ [⟨13⟩]).run ringUsages = (.ok ⟨16⟩, ringOfObjects) := by
    unfold ringOfObjects
    exact leaves (by decide +kernel)
  obtain ⟨s₂, searched, viewed⟩ : ∃ s₂, (asSuper? ⟨16⟩ ⟨3⟩).run ringOfObjects = (some (some ⟨25⟩), s₂) ∧
      s₂ = ((asSuper? ⟨16⟩ ⟨3⟩).run ringOfObjects).2 := ⟨_, leaves (by decide +kernel), rfl⟩
  obtain ⟨r, s₃, completed, asType, parameters, known⟩ : ∃ r s₃, (complete ⟨2⟩).run s₂ = (r, s₃) ∧ r.asType = ⟨19⟩ ∧
      r.typeParameters = [⟨5⟩] ∧ s₃ = ((complete ⟨2⟩).run s₂).2 := by
    refine ⟨_, _, rfl, ?_, ?_, rfl⟩ <;> rw [viewed] <;> decide +kernel
  obtain ⟨s₄, searched', resolves, own⟩ : ∃ s₄, (asSuper? ⟨19⟩ ⟨3⟩).run s₃ = (some (some ⟨22⟩), s₄) ∧
      s₄.ResolvesAbove ⟨2⟩ ∧ s₄.OwnAbove ⟨2⟩ := by
    rw [known, viewed]
    exact ⟨_, leaves (by decide +kernel), resolvesAbove_of_all (by decide +kernel), ownAbove_of_all (by decide +kernel)⟩
  rcases supertype_views_commute_with_instantiation reachable_ringUsages made searched completed (asType ▸ searched')
    (by rw [parameters]; rfl) resolves own with ⟨nothing, _⟩ | ⟨u, v, found, found', same⟩
  · cases nothing
  · cases found
    cases found'
    exact ⟨s₂, s₃, s₄, searched, searched', parameters ▸ same⟩

end sample

end Nominal
