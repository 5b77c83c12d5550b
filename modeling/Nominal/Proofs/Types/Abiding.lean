import Nominal.Proofs.Store.Immutable
import Nominal.Proofs.Types.Viewing
/-!
Answers abide. Whatever is requested after a question about types was answered, the question is answered again, and
in the same way. What is completed, entered and made in between may be anything, and a search that was long may
become longer, but it comes to the same end.
-/

namespace Nominal

open Store StoreM

namespace Store

variable {s s' : Store}

theorem LeadsTo.neat (leads : s.LeadsTo s') (h : s.Sound) (neat : s.Neat) : s'.Neat := by
  refine ⟨?_, (leads.houses h).housed neat.housed⟩
  clear h
  induction leads with
  | rest => exact neat.tidy
  | ask r _ _ ih => exact (r.keeping_run (R := Keeps) _).tidy ih

theorem Reachable.neat (reachable : s.Reachable) : s.Neat :=
  LeadsTo.neat reachable sound_empty
    ⟨fun e slot found => by simp [slot?, empty] at found, fun e slot o found => by simp [slot?, empty] at found⟩

/-- A question leaves nothing behind that could be said against. -/
theorem Neat.asked {α : Type} {ask : Searching α} {answer : Option α} (neat : s.Neat) (keeps : Keeping Keeps ask)
    (move : s.Advances s') (answered : ask.run s = (answer, s')) : s'.Neat := by
  have kept := keeps s
  rw [answered] at kept
  exact ⟨kept.tidy neat.tidy, move.houses.housed neat.housed⟩

/-- After `ask` was answered, and whatever is requested then, it is answered again, and alike. A search that never
ends is no answer. -/
def Abides {α : Type} (s : Store) (ask : Searching α) (alike : Store → α → α → Prop) : Prop :=
  ∀ a s₁ t, ask.run s = (some a, s₁) → s₁.LeadsTo t → ∃ b t₁, ask.run t = (some b, t₁) ∧ alike t₁ a b

structure Asks {α β : Type} (s : Store) (ask : Searching α) (known : Store → Option β) (view : Store → α → β)
    (there : Store → α → Prop) : Prop where
  keeps : Keeping Keeps ask
  tells : ∀ t, s.Retains t → t.Neat →
    Ensures Advances t ask.run fun r t₁ => (∀ a ∈ r, there t₁ a) ∧ known t₁ = r.map (view t₁)
  lasts : ∀ t t' b, t.Retains t' → known t = some b → known t' = some b
  views : ∀ t t' a, t.Retains t' → there t a → view t' a = view t a

theorem Asks.abides {α β : Type} {ask : Searching α} {known : Store → Option β} {view : Store → α → β}
    {there : Store → α → Prop} {alike : Store → α → α → Prop} (asks : s.Asks ask known view there)
    (reachable : s.Reachable) {top : ElementId} (object : s.objectElement? = some top)
    (agree : ∀ t a b, t.Sound → view t a = view t b → alike t a b) : s.Abides ask alike := by
  intro a s₁ t answered leads
  obtain ⟨move, within, told⟩ := (asks.tells s reachable.sound.stays.toRetains reachable.neat).result answered
  have neat₁ := reachable.neat.asked asks.keeps move answered
  have retains : s₁.Retains t := (leads.grown move.sound).retains (move.object.trans object)
  obtain ⟨move', _, told'⟩ := asks.tells t (Movement.trans move.toRetains retains) (leads.neat move.sound neat₁)
  have later := Movement.trans retains move'.toRetains
  rw [asks.lasts s₁ _ _ later told] at told'
  obtain ⟨b, again, same⟩ := Option.map_eq_some_iff.mp told'.symm
  refine ⟨b, _, Prod.ext again rfl, agree _ a b move'.sound ?_⟩
  rw [same, asks.views s₁ _ a later (within a rfl)]

section questions

variable {a b : TypeId} {e : ElementId}

theorem asks_sameType (known : s.HasType a) (known' : s.HasType b) :
    s.Asks (do return (← get).sameType a b : Searching Bool) (fun _ => some ((s.tree a).same (s.tree b)))
      (fun _ x => x) fun _ _ => True where
  keeps := Keeper.bind keeping_partial_get fun _ => Keeper.pure _
  tells t move _ := by
    refine .option_get (.pure move.sound.stays ⟨fun _ _ => trivial, ?_⟩)
    rw [sameType_tree move.sound.toConsistent, move.tree known, move.tree known']
    rfl
  lasts _ _ _ _ := id
  views _ _ _ _ _ := rfl

theorem asks_isSubtype? (known : s.HasType a) (known' : s.HasType b) :
    s.Asks (isSubtype? a b) (fun t => t.below? boundDepth (s.tree a) (s.tree b)) (fun _ x => x) fun _ _ => True where
  keeps := keeping_isSubtypeN boundDepth a b
  tells t move _ := by
    have told := isSubtype?_ensures move.sound (move.grows.has_type known) (move.grows.has_type known')
    rw [move.tree known, move.tree known'] at told
    exact told.imp fun r _ _ same => ⟨fun _ _ => trivial, by rw [same, Option.map_id']⟩
  lasts _ _ _ move := move.below?
  views _ _ _ _ _ := rfl

theorem asks_erase (known : s.HasType a) :
    s.Asks (liftM (erase a)) (fun _ => some (s.erased (s.tree a))) Store.tree Store.HasType where
  keeps := keeping_partial_lift (keeping_erase a)
  tells t move _ := by
    have made := erase_ensures move.sound (move.grows.has_type known)
    rw [move.erased known] at made
    refine .option_lift (made.imp fun u t₁ _ ⟨there, tree⟩ => ⟨fun v same => ?_, congrArg some tree.symm⟩)
    cases same
    exact there
  lasts _ _ _ _ := id
  views _ _ _ move there := move.tree there

theorem asks_directSupertypes (known : s.HasType a) :
    s.Asks (liftM (directSupertypes a)) (fun t => t.above? (s.tree a)) (fun t us => us.map t.tree)
      fun t us => ∀ u ∈ us, t.HasType u where
  keeps := keeping_partial_lift (keeping_directSupertypes a)
  tells t move _ := by
    have found := directSupertypes_ensures move.sound a
    rw [move.tree known] at found
    refine .option_lift (found.imp fun us t₁ _ ⟨there, above⟩ => ⟨fun vs same => ?_, above⟩)
    cases same
    exact there
  lasts _ _ _ move := move.above?
  views _ _ _ move there := move.map_tree there

theorem asks_asSuper? (known : s.HasType a) :
    s.Asks (asSuper? a e) (fun t => t.super? (s.tree a) e) (fun t u? => u?.map t.tree)
      fun t u? => ∀ u ∈ u?, t.HasType u where
  keeps := keeping_asSuper? a e
  tells t move _ := by
    have told := asSuper?_ensures move.sound (move.grows.has_type known) e
    rwa [move.tree known] at told
  lasts _ _ _ move := move.super?
  views _ _ _ move there := move.optional_tree there

theorem asks_asMemberOf? (known : s.HasType a) (there : s.HasElement e) :
    s.Asks (asMemberOf? a e) (fun t => t.member? (s.tree a) e) answered fun t answer => AnswerKnown answer t where
  keeps := keeping_asMemberOf? a e
  tells t move neat := by
    have told := asMemberOf?_ensures move.sound (move.grows.has_type known) e
    refine told.imp fun r t₁ _ ⟨within, same⟩ => ⟨within, ?_⟩
    rw [← move.tree known]
    exact same neat (move.grows.has_element there)
  lasts _ _ _ move := move.member?
  views t t' answer move there := by
    cases answer with
    | ok u => exact congrArg some (move.tree (there u rfl))
    | error fault => rfl

end questions

section alike

variable {t : Store}

theorem Sound.same_of_trees (h : t.Sound) {us vs : List TypeId} (trees : us.map t.tree = vs.map t.tree) :
    List.Forall₂ (t.sameType · ·) us vs := by
  rw [← List.forall₂_eq_eq_eq, List.forall₂_map_left_iff, List.forall₂_map_right_iff] at trees
  exact trees.imp fun _ _ => h.same_of_tree

theorem Sound.same_of_optional (h : t.Sound) {u v : Option TypeId} (trees : u.map t.tree = v.map t.tree) :
    Option.Rel (t.sameType · ·) u v := by
  cases u <;> cases v <;> simp only [Option.map_none, Option.map_some, Option.some.injEq, reduceCtorEq] at trees
  · exact .none
  · exact .some (h.same_of_tree trees)

end alike

end Store

/-- Every answer to a question about types and members abides: whether a type is below another one or the same, its
erasure, its immediate supertypes, its supertype over an element, and the type of a member as seen from it. -/
theorem answers_abide {s : Store} {top e : ElementId} {a b : TypeId} (reachable : s.Reachable)
    (object : s.objectElement? = some top) (known : s.HasType a) (known' : s.HasType b) (there : s.HasElement e) :
    s.Abides (isSubtype? a b) (fun _ x y => x = y) ∧
      s.Abides (do return (← get).sameType a b) (fun _ x y => x = y) ∧
      s.Abides (liftM (erase a)) (fun t u v => t.sameType u v) ∧
      s.Abides (liftM (directSupertypes a)) (fun t => List.Forall₂ (t.sameType · ·)) ∧
      s.Abides (asSuper? a e) (fun t => Option.Rel (t.sameType · ·)) ∧
      s.Abides (asMemberOf? a e) (fun t x y => Option.Rel (t.sameType · ·) x.toOption y.toOption) := by
  exact ⟨(asks_isSubtype? known known').abides reachable object fun _ _ _ _ => id,
    (asks_sameType known known').abides reachable object fun _ _ _ _ => id,
    (asks_erase known).abides reachable object fun _ _ _ h => h.same_of_tree,
    (asks_directSupertypes known).abides reachable object fun _ _ _ h => h.same_of_trees,
    (asks_asSuper? known).abides reachable object fun _ _ _ h => h.same_of_optional,
    (asks_asMemberOf? known there).abides reachable object fun _ _ _ h trees => h.same_of_optional trees⟩

/-- A generic type applied to its own variable is below the top type, whatever comes; and so for the types of its
members. -/
theorem usage_answers_abide :
    withUsage.objectElement? = some ⟨1⟩ ∧ ((isSubtype? ⟨15⟩ ⟨14⟩).run withUsage).1 = some true ∧
      (∀ t, ((isSubtype? ⟨15⟩ ⟨14⟩).run withUsage).2.LeadsTo t → ((isSubtype? ⟨15⟩ ⟨14⟩).run t).1 = some true) ∧
      withUsage.Abides (asMemberOf? ⟨15⟩ ⟨4⟩)
        fun t x y => Option.Rel (t.sameType · ·) x.toOption y.toOption := by
  have object : withUsage.objectElement? = some ⟨1⟩ := by decide +kernel
  have known : withUsage.HasType ⟨15⟩ := show 15 < withUsage.types.size by decide +kernel
  have known' : withUsage.HasType ⟨14⟩ := show 14 < withUsage.types.size by decide +kernel
  have there : withUsage.HasElement ⟨4⟩ := show 4 < withUsage.elements.size by decide +kernel
  obtain ⟨below, _, _, _, _, member⟩ := answers_abide reachable_withUsage object known known' there
  have now : ((isSubtype? ⟨15⟩ ⟨14⟩).run withUsage).1 = some true := by decide +kernel
  refine ⟨object, now, fun t leads => ?_, member⟩
  obtain ⟨b, t₁, again, rfl⟩ := below true _ t (leaves now) leads
  exact congrArg Prod.fst again

end Nominal
