import Nominal.Proofs.Store.Entering
import Nominal.Proofs.Store.Keeper
import Nominal.Proofs.Types.Below
import Nominal.Types.Membership
/-!
Members as seen from a type, on trees. What a module or package has in it may change between two questions, but
nothing that the answer depends on.
-/

namespace Nominal

open Store StoreM

def ElementRecord.childless (r : ElementRecord) : ElementRecord := { r with enclosed := [] }

namespace Store

def outline? (s : Store) (e : ElementId) : Option ElementRecord := do
  let slot ← s.slot? e
  if slot.kind.isContainer then return (containerRecord e slot).childless
  else return (← s.record? e).childless

def seenAs (s : Store) (owner member : ElementRecord) (view : TypeTree) : TypeTree :=
  if owner.typeParameters.isEmpty then s.tree member.asType
  else if view.arguments.isEmpty then s.erased (s.tree member.asType)
  else (s.tree member.asType).substitute (TypeTree.binding owner.typeParameters view.arguments)

noncomputable def member? (s : Store) (t : TypeTree) (e : ElementId) : Option (Option TypeTree) :=
  if t.kind ≠ .declared then some none
  else (s.outline? e).bind fun member =>
    match member.enclosing with
    | none => some (some (s.tree member.asType))
    | some o => (s.outline? o).bind fun owner =>
      if member.isStatic || !owner.kind.isType then some (some (s.tree member.asType))
      else (s.super? t owner.id).map fun view => view.map (s.seenAs owner member)

/-- What there is nothing to be said against in a store that one comes to by asking. -/
structure Neat (s : Store) : Prop where
  tidy : s.Tidy
  housed : s.Housed

variable {s s' : Store} {t : TypeId} {e o : ElementId} {r : ElementRecord}

theorem Sound.outline_known (h : s.Sound) (outline : s.outline? e = some r) :
    s.HasType r.asType ∧ ∃ slot, s.slot? e = some slot ∧ r.enclosing = slot.enclosing := by
  obtain ⟨slot, found, outline⟩ := Option.bind_eq_some_iff.mp outline
  split at outline
  · cases outline
    refine ⟨?_, slot, found, rfl⟩
    simp only [ElementRecord.childless, containerRecord]
    split <;> exact h.has_initial (by decide)
  · obtain ⟨record, complete, outline⟩ := Option.bind_eq_some_iff.mp outline
    cases outline
    obtain ⟨slot', found', fits⟩ := h.fits complete
    cases found.symm.trans found'
    exact ⟨fits.asType, slot, found, fits.enclosing⟩

theorem Neat.outline (neat : s.Neat) (complete : s.record? e = some r) : s.outline? e = some r.childless := by
  obtain ⟨slot, found, _⟩ := record?_eq_some_iff.mp complete
  rw [outline?, found]
  by_cases container : slot.kind.isContainer
  · rw [neat.tidy.record found container complete]
    exact if_pos container
  · refine (if_neg container).trans ?_
    rw [complete]
    rfl

theorem Grown.outline (move : s.Grown s') (outline : s.outline? e = some r) : s'.outline? e = some r := by
  obtain ⟨slot, found, outline⟩ := Option.bind_eq_some_iff.mp outline
  obtain ⟨children, state, found'⟩ := move.slot found
  rw [outline?, found']
  split at outline
  · rename_i container
    exact (if_pos container).trans outline
  · rename_i plain
    obtain ⟨record, complete, outline⟩ := Option.bind_eq_some_iff.mp outline
    obtain ⟨slot', again, done⟩ := record?_eq_some_iff.mp complete
    cases found.symm.trans again
    refine (if_neg plain).trans ?_
    rw [move.grows.record found plain done]
    exact outline

theorem Retains.seenAs (move : s.Retains s') {owner member : ElementRecord} (known : s.HasType member.asType)
    (view : TypeTree) : s'.seenAs owner member view = s.seenAs owner member view := by
  rw [Store.seenAs, move.tree known, ← move.tree known, move.erased known, move.tree known, Store.seenAs]

theorem Retains.member? (move : s.Retains s') {t : TypeTree} {m : Option TypeTree} (known : s.member? t e = some m) :
    s'.member? t e = some m := by
  unfold Store.member? at known ⊢
  split
  · rwa [if_pos ‹_›] at known
  rw [if_neg ‹_›] at known
  obtain ⟨member, outline, known⟩ := Option.bind_eq_some_iff.mp known
  have type := (move.start.outline_known outline).1
  rw [move.outline outline, Option.bind_some, move.tree type]
  cases enclosing : member.enclosing with
  | none => rwa [enclosing] at known
  | some o =>
    rw [enclosing] at known
    obtain ⟨owner, outline', known⟩ := Option.bind_eq_some_iff.mp known
    dsimp only
    rw [move.outline outline', Option.bind_some]
    split
    · rwa [if_pos ‹_›] at known
    · rw [if_neg ‹_›] at known
      obtain ⟨view, found, known⟩ := Option.map_eq_some_iff.mp known
      have sees : s'.seenAs owner member = s.seenAs owner member := funext (move.seenAs type)
      rw [move.super? found, Option.map_some, ← known, sees]

end Store

namespace StoreM

variable {s s' : Store} {t : TypeId} {e : ElementId}

theorem complete_outline (h : s.Sound) (e : ElementId) :
    Ensures Advances s (complete e) fun r s' =>
      s'.RecordKnown r ∧ (s.Neat → s'.Neat ∧ (s.HasElement e → s'.outline? e = some r.childless)) := by
  obtain ⟨move, record⟩ := complete_known h e
  refine ⟨move, record, fun neat => ?_⟩
  have tidy := (keeping_complete (R := Keeps) e s : s.Keeps _).tidy neat.tidy
  have neat' : Neat _ := ⟨tidy, move.houses.housed neat.housed⟩
  exact ⟨neat', fun there => neat'.outline (complete_record h there).2⟩

theorem viewMember_ensures {member : ElementRecord} (h : s.Sound) (owner : ElementRecord)
    (record : s.RecordKnown member) {view : TypeId} (known : s.HasType view) :
    Ensures Advances s (viewMember owner member view) fun t s' =>
      s'.HasType t ∧ s'.tree t = s.seenAs owner member (s.tree view) := by
  obtain ⟨arguments, trees⟩ := arguments_known h.toConsistent known
  refine .get ?_
  dsimp only
  rw [seenAs, ← trees, List.isEmpty_map]
  split
  · exact .pure h.stays ⟨record.asType, rfl⟩
  · split
    · exact erase_ensures h record.asType
    · exact substitute_ensures h arguments record.asType

def AnswerKnown (answer : Except Fault TypeId) (s : Store) : Prop := ∀ u, answer = .ok u → s.HasType u

def answered (s : Store) (answer : Except Fault TypeId) : Option TypeTree := answer.toOption.map s.tree

def MemberTold (s : Store) (t : TypeId) (e : ElementId) (r : Option (Except Fault TypeId)) (s' : Store) : Prop :=
  (∀ answer ∈ r, AnswerKnown answer s') ∧
    (s.Neat → s.HasElement e → s'.member? (s.tree t) e = r.map (answered s'))

theorem asMemberOf?_ensures (h : s.Sound) (known : s.HasType t) (e : ElementId) :
    Ensures Advances s (asMemberOf? t e).run (MemberTold s t e) := by
  have answer (s' : Store) (move : s.Advances s') (u : TypeId) (there : s'.HasType u)
      (told : s.Neat → s.HasElement e → s'.member? (s.tree t) e = some (some (s'.tree u))) :
      Ensures Advances s' (pure (.ok u) : Searching (Except Fault TypeId)).run (MemberTold s t e) := by
    refine .pure move.sound.stays ⟨fun a same => ?_, told⟩
    cases same
    exact fun u same => by cases same; exact there
  have refuse (s' : Store) (move : s.Advances s') (fault : Fault)
      (told : s.Neat → s.HasElement e → s'.member? (s.tree t) e = some none) :
      Ensures Advances s' (pure (.error fault) : Searching (Except Fault TypeId)).run (MemberTold s t e) := by
    refine .pure move.sound.stays ⟨fun a same => ?_, told⟩
    cases same
    nofun
  refine .option_get ?_
  split
  · rename_i other
    refine refuse s h.stays _ fun _ _ => ?_
    rw [member?, if_pos (by rwa [h.tree_kind])]
  rename_i declared
  have asks (s' : Store) : s'.member? (s.tree t) e = (s'.outline? e).bind fun member =>
      match member.enclosing with
      | none => some (some (s'.tree member.asType))
      | some o => (s'.outline? o).bind fun owner =>
        if member.isStatic || !owner.kind.isType then some (some (s'.tree member.asType))
        else (s'.super? (s.tree t) owner.id).map fun view => view.map (s'.seenAs owner member) := by
    rw [member?, if_neg (by rwa [h.tree_kind])]
  refine Ensures.option_step (complete_outline h e) fun member s₁ move₁ ⟨record, neat₁⟩ => ?_
  have childless : member.childless.enclosing = member.enclosing := rfl
  cases enclosing : member.enclosing with
  | none =>
    refine answer s₁ move₁ _ record.asType fun neat there => ?_
    rw [asks, (neat₁ neat).2 there, Option.bind_some, childless, enclosing]
    rfl
  | some o =>
    refine Ensures.option_step (complete_outline move₁.sound o) fun owner s₂ move₂ ⟨_, neat₂⟩ => ?_
    have from₂ := Movement.trans move₁ move₂
    have record₂ := record.advance move₂
    have outlines (neat : s.Neat) (there : s.HasElement e) (s' : Store) (later : s₂.Advances s') :
        s'.member? (s.tree t) e =
          if member.isStatic || !owner.kind.isType then some (some (s'.tree member.asType))
          else (s'.super? (s.tree t) owner.id).map fun view => view.map (s'.seenAs owner member) := by
      obtain ⟨neat₁, outline⟩ := neat₁ neat
      obtain ⟨_, slot, found, inside⟩ := move₁.sound.outline_known (outline there)
      have outline' := (neat₂ neat₁).2 (neat₁.housed e slot o found (inside.symm.trans enclosing))
      rw [asks, (Movement.trans move₂ later).outline (outline there), Option.bind_some, childless, enclosing]
      dsimp only
      rw [later.outline outline']
      rfl
    split
    · rename_i plain
      refine answer s₂ from₂ _ record₂.asType fun neat there => ?_
      rw [outlines neat there s₂ move₂.sound.stays, if_pos plain]
    · rename_i seen
      have search := asSuper?_ensures move₂.sound (from₂.moves.grows.has_type known) owner.id
      rw [from₂.tree known] at search
      refine search.option_bind (fun s₃ move₃ ⟨_, endless⟩ => ?_) fun view s₃ move₃ ⟨views, found⟩ => ?_
      · refine ⟨nofun, fun neat there => ?_⟩
        rw [outlines neat there s₃ move₃, if_neg seen, endless]
        rfl
      have from₃ := Movement.trans from₂ move₃
      cases view with
      | none =>
        refine .option_get (refuse s₃ from₃ _ fun neat there => ?_)
        rw [outlines neat there s₃ move₃, if_neg seen, found]
        rfl
      | some view =>
        have record₃ := record₂.advance move₃
        refine Ensures.option_step (viewMember_ensures move₃.sound owner record₃ (views _ rfl view rfl))
          fun u s₄ move₄ ⟨there', tree⟩ => ?_
        refine answer s₄ (Movement.trans from₃ move₄) u there' fun neat there => ?_
        rw [outlines neat there s₄ (Movement.trans move₃ move₄), if_neg seen, move₄.super? found, tree,
          ← move₄.seenAs record₃.asType]
        rfl

theorem asMemberOf_ensures (h : s.Sound) (known : s.HasType t) (e : ElementId) :
    Ensures Advances s (asMemberOf t e).run AnswerKnown := by
  refine (asMemberOf?_ensures h known e).except_step fun r s₁ move₁ ⟨answer, _⟩ => ?_
  cases r with
  | some a =>
    cases a with
    | ok u => exact .pure move₁.sound.stays (answer _ rfl)
    | error fault => exact .pure move₁.sound.stays nofun
  | none =>
    refine .except_step (complete_known move₁.sound e) fun member s₂ move₂ _ => ?_
    exact .except_get (.pure move₂.sound.stays nofun)

end StoreM

end Nominal
