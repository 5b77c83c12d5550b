import Nominal.Proofs.Recipe.Keeping
import Nominal.Proofs.Store.KindedEntering
import Nominal.Proofs.Store.Reachable
import Nominal.Proofs.Types.Accepting
import Nominal.Proofs.Types.Suiting
/-!
Types that came about in any way and types that a factory makes. The factories look at the kinds of the parts, but
nobody else does: a type is resolved as it is written, and type arguments that are wildcards are put wherever the
variable of their type parameter stands. Where all that is declared is well kinded and no wildcard gets to be a
component or a bound, the factories accept the parts of every type there is.
-/

namespace Nominal

open Store
open StoreM (isComponentKind isArgumentKind)

namespace Store

def SeenFrom (s : Store) (e : ElementId) (r : ElementRecord) (t : TypeId) : Prop :=
  t = r.superclass ∨ t ∈ r.interfaces ∨
    ∃ m member, s.record? m = some member ∧ member.enclosing = some e ∧ t = member.asType

/-- Wherever something is seen from a usage, no wildcard among the arguments gets to be a component or a bound. -/
def Harmless (s : Store) : Prop := ∀ t o e args r, s.shape? t = some (.declared o e args) → s.record? e = some r →
  ∀ u, s.SeenFrom e r u → s.Guards ⟨r.typeParameters, args⟩ u

structure Tends (f s s' : Store) : Prop where
  advances : s.Advances s'
  kinded : f.Harmless → s'.Grown f → s.Kinded → s'.Kinded

def Tending (f s s' : Store) : Prop := s.Sound → Tends f s s'

variable {f s s' : Store} {t : TypeId} {e : ElementId} {r : ElementRecord}

instance : Movement (Tends f) where
  trans first second :=
    ⟨Movement.trans first.advances second.advances, fun harmless grown k =>
      second.kinded harmless grown (first.kinded harmless (Movement.trans second.advances.toGrown grown) k)⟩
  stay h := ⟨Movement.stay h.advances, fun _ _ => id⟩

theorem Sound.tends (h : s.Sound) : Tends f s s := ⟨h.stays, fun _ _ => id⟩

theorem Is.known {p : TypeKind → Bool} (is : s.Is p t) : s.HasType t := by
  obtain ⟨shape, found, _⟩ := is
  exact has_type_iff.mpr ⟨shape, found⟩

def Bare (s : Store) (t : TypeId) : Prop := ∃ shape, s.shape? t = some shape ∧ shape.replaced = []

theorem Bare.grow (bare : s.Bare t) (move : s.Grown s') : s'.Bare t := by
  obtain ⟨shape, found, nothing⟩ := bare
  exact ⟨shape, move.grows.shape found, nothing⟩

theorem Bare.guards {i : Instantiation} (bare : s.Bare t) : s.Guards i t := by
  obtain ⟨shape, found, nothing⟩ := bare
  rintro e u - - (⟨found', part, _⟩ | ⟨found', part, _⟩)
  all_goals cases found.symm.trans found'
  · simpa [nothing] using TypeShape.replaced_of_guarded part
  · simp [nothing] at part

theorem Consistent.bare_of_object (h : s.Consistent) (object : s.IsObject t) : s.Bare t := by
  unfold IsObject at object
  split at object
  · exact ⟨_, object, rfl⟩
  · subst object
    exact ⟨_, h.initial 0 (.noType .none) rfl, rfl⟩

theorem Grown.record_of_type (move : s.Grown s') (recorded : s.record? e = some r) (type : r.kind.isType) :
    s'.record? e = some r := by
  obtain ⟨slot, found, fits⟩ := move.start.fits recorded
  obtain ⟨slot', found', state⟩ := record?_eq_some_iff.mp recorded
  cases found.symm.trans found'
  exact move.grows.record found (ElementKind.isType_not_container (fits.kind ▸ type)) state

theorem Harmless.suits {o : TypeId} {args : List TypeId} {u : TypeId} (harmless : f.Harmless) (grown : s.Grown f)
    (k : s.Kinded) (usage : s.shape? t = some (.declared o e args)) (recorded : s.record? e = some r)
    (type : r.kind.isType) (seen : f.SeenFrom e r u ∨ s.Bare u) : s.Suits ⟨r.typeParameters, args⟩ u where
  arguments e' u' stands := by
    obtain ⟨n, _, there⟩ := Option.bind_eq_some_iff.mp stands
    exact (k.shapes t _ usage).2.2 u' (List.mem_of_getElem? there)
  guards := by
    rcases seen with seen | bare
    · exact (harmless t o e args r (grown.grows.shape usage) (grown.record_of_type recorded type) u seen).shrink grown
    · exact bare.guards

end Store

section asking

variable {f s : Store} {t : TypeId}

theorem internName_kinds (k : s.Kinded) (name : String) : s.KeepsKinds (StoreM.internName name s).2 :=
  k.retouch rfl rfl rfl k.usage

instance : Calm (Tending f) where
  refl _ h := h.tends
  trans first second h := Movement.trans (first h) (second (first h).advances.sound)
  internName name _ h :=
    ⟨(h.ensures (internName_ensures h.toConsistent name)).1, fun _ _ k => (internName_kinds k name).kinded⟩

instance : Attentive (Tending f) where
  complete e _ h :=
    ⟨(h.ensures (StoreM.complete_ensures h.toConsistent e)).1, fun _ _ k => (StoreM.complete_asks h k e).keeps.kinded⟩

namespace StoreM

section making

variable {make : Checked TypeId} {shape : TypeShape} {c : Prop}

theorem Makes.tends (makes : Makes s make shape c) (h : s.Sound) (composes : c → s.Composes shape)
    (admits : c → s.Admits shape) : Tends f s (make.run s).2 := by
  by_cases holds : c
  · rw [makes.made holds]
    exact ⟨(newType_tree h (composes holds)).1, fun _ _ k => (k.pushType (admits holds)).kinded⟩
  · obtain ⟨fault, refused⟩ := makes.refused holds
    rw [refused]
    exact h.tends

theorem arrayType_tends (h : s.Sound) (c : TypeId) : Tends f s ((arrayType c).run s).2 :=
  (arrayType_makes c).tends h (fun component => ⟨by simpa [TypeShape.parts] using Is.known component, by simp, by simp⟩) id

theorem wildcardType_tends (h : s.Sound) (upper lower : Option TypeId) :
    Tends f s ((wildcardType upper lower).run s).2 := by
  refine (wildcardType_makes upper lower).tends h (fun holds => ⟨fun p mem => ?_, by simp, by simp⟩) id
  obtain ⟨_, above, below⟩ := holds
  simp only [TypeShape.parts, List.mem_append, Option.mem_toList] at mem
  exact mem.elim (fun mem => (above p mem).known) fun mem => (below p mem).known

theorem declaredType_tends (h : s.Sound) (enclosing : Option TypeId) (e : ElementId) (args : List TypeId) :
    Tends f s ((declaredType enclosing e args).run s).2 := by
  refine (declaredType_makes enclosing e args).tends h (fun ⟨⟨type, _, arguments⟩, around⟩ => ?_) And.left
  refine ⟨fun p mem => ?_, ?_, by simp⟩
  · rcases List.mem_cons.mp mem with rfl | mem
    · cases enclosing with
      | none => exact h.has_none
      | some o => exact (around o rfl).known
    · exact (arguments p mem).known
  · rintro _ _ _ ⟨⟩
    refine ⟨type, ?_⟩
    cases enclosing with
    | none => exact .inl rfl
    | some o =>
      obtain ⟨shape, found, outer⟩ := around o rfl
      refine h.outer_of_kind ?_
      rw [h.tree_kind, typeKind, Option.getD_some, shape_of_shape? found]
      simpa [isOuterKind] using outer

end making

section supertypes

theorem objectType_tends (h : s.Sound) : Ensures (Tends f) s objectType fun t s' => s'.IsObject t := by
  obtain ⟨move, object⟩ := h.ensures (objectType_ensures h.toConsistent)
  exact ⟨⟨move, fun _ _ k => (objectType_kinds k).1.kinded⟩, object⟩

theorem erase_tends (h : s.Sound) (t : TypeId) : Tends f s (erase t s).2 := by
  refine ⟨?_, fun _ _ k => (eraseN_adds k (k.bounded h) _ t).1.kinded⟩
  cases found : s.shape? t with
  | some shape => exact (erase_ensures h (has_type_iff.mpr ⟨shape, found⟩)).1
  | none =>
    have unknown : s.shape t = .unknown := by rw [Store.shape, found]; rfl
    have nothing : Ensures Advances s (eraseN (64 + 1) t) fun _ _ => True :=
      .get (by rw [unknown]; exact .pure h.stays trivial)
    exact nothing.1

theorem substitute_tends {i : Instantiation} (h : s.Sound) (types : i.Known s) (known : s.HasType t)
    (suits : f.Harmless → s.Grown f → s.Kinded → s.Suits i t) : Tends f s (substitute i t s).2 := by
  have advances := (substitute_ensures h types known).1
  exact ⟨advances, fun harmless grown k =>
    (substitute_adds h k known (suits harmless (Movement.trans advances.toGrown grown) k)).kinded⟩

theorem complete_tends {e : ElementId} (h : s.Sound) (there : s.HasElement e) :
    Ensures (Tends f) s (complete e) fun r s' => s'.record? e = some r :=
  ⟨(keeping_complete e : Keeping (Tending f) _) s h, (complete_record h there).2⟩

theorem declaredSupertypes_tends {r : ElementRecord} (h : s.Sound) (record : s.RecordKnown r) :
    Ensures (Tends f) s (declaredSupertypes r) fun us s' =>
      ∀ u ∈ us, s'.HasType u ∧ ((u = r.superclass ∨ u ∈ r.interfaces) ∨ s'.Bare u) := by
  have others (s' : Store) (move : s.Advances s') : ∀ u ∈ r.interfaces, s'.HasType u ∧
      ((u = r.superclass ∨ u ∈ r.interfaces) ∨ s'.Bare u) :=
    fun u mem => ⟨move.moves.grows.has_type (record.interfaces u mem), .inl (.inr mem)⟩
  unfold declaredSupertypes
  split
  · exact .pure h.tends (List.forall_mem_cons.mpr ⟨⟨record.superclass, .inl (.inl rfl)⟩, others s h.stays⟩)
  · split
    · refine (objectType_tends h).bind fun object s₁ move₁ is => .pure (Movement.stay move₁) ?_
      have h₁ := move₁.advances.sound
      split
      · exact others s₁ move₁.advances
      · exact List.forall_mem_cons.mpr
          ⟨⟨h₁.has_object is, .inr (h₁.bare_of_object is)⟩, others s₁ move₁.advances⟩
    · exact .pure h.tends (others s h.stays)

theorem directSupertypes_tends (h : s.Sound) (t : TypeId) : Tends f s (directSupertypes t s).2 := by
  suffices Ensures (Tends f) s (directSupertypes t) fun _ _ => True from this.1
  refine .get ?_
  cases found : s.shape? t with
  | none =>
    rw [show s.shape t = .unknown by rw [Store.shape, found]; rfl]
    exact .pure h.tends trivial
  | some shape =>
    have known := has_type_iff.mpr ⟨shape, found⟩
    have fits := h.shapes t shape found
    rw [shape_of_shape? found]
    cases shape with
    | declared o e args =>
      refine (complete_tends h (fits.declared o e args rfl).1.there).bind fun r s₁ move₁ recorded => ?_
      have h₁ := move₁.advances.sound
      split
      · exact .pure (Movement.stay move₁) trivial
      rename_i other
      have type : r.kind.isType := by simpa using other
      refine (declaredSupertypes_tends h₁ (h₁.recordKnown recorded)).bind fun us s₂ move₂ above => ?_
      have from₂ := (Movement.trans move₁ move₂).advances
      have each (m : TypeId → StoreM TypeId) (ok : ∀ u ∈ us, ∀ s', Tends f s₂ s' → Tends f s' (m u s').2) :
          Ensures (Tends f) s₂ (us.mapM m) fun _ _ => True :=
        (Ensures.mapM_all (P := fun _ _ => True) (Movement.stay move₂) (fun _ _ _ _ => id)
          fun u mem s' move => ⟨ok u mem s' move, trivial⟩).imp fun _ _ _ _ => trivial
      split
      · exact .pure (Movement.stay move₂) trivial
      split
      · exact each erase fun u _ s' move => erase_tends move.advances.sound u
      · refine each _ fun u mem s₃ move₃ => ?_
        obtain ⟨there, seen⟩ := above u mem
        have from₃ := Movement.trans from₂ move₃.advances
        have types : Instantiation.Known ⟨r.typeParameters, args⟩ s₃ := fun a mem =>
          from₃.moves.grows.has_type (fits.part_known known (List.mem_cons_of_mem _ mem))
        refine substitute_tends move₃.advances.sound types (move₃.advances.moves.grows.has_type there)
          fun harmless grown k => ?_
        have recorded₃ := (Movement.trans move₂ move₃).advances.toGrown.record_of_type recorded type
        refine harmless.suits grown k (from₃.moves.grows.shape found) recorded₃ type ?_
        rcases seen with (same | mem) | bare
        · exact .inl (.inl same)
        · exact .inl (.inr (.inl mem))
        · exact .inr (bare.grow move₃.advances.toGrown)
    | array c =>
      exact (objectType_tends h).bind fun object s₁ move₁ _ => .pure (Movement.stay move₁) trivial
    | typeVariable e upper => dsimp only; split <;> exact .pure h.tends trivial
    | _ => exact .pure h.tends trivial

end supertypes

end StoreM

instance : Asking (Tending f) where
  objectType _ h := (StoreM.objectType_tends h).1
  erase t _ h := StoreM.erase_tends h t
  directSupertypes t _ h := StoreM.directSupertypes_tends h t
  arrayType c _ h := StoreM.arrayType_tends h c
  declaredType enclosing e args _ h := StoreM.declaredType_tends h enclosing e args
  wildcardType upper lower _ h := StoreM.wildcardType_tends h upper lower

end asking

section members

open StoreM

namespace Store

variable {s : Store} {target : ElementId} {u : TypeTree}

theorem look_found {o : Outlook} {t : TypeTree} (found : s.look target o t = some (.inl u)) :
    ∃ outer args, u = .declared outer target args := by
  cases t with
  | declared outer e args =>
    rw [look] at found
    split at found
    · rename_i same
      cases found
      exact ⟨outer, args, by rw [same]⟩
    · split at found
      · cases found
      · simp at found
  | typeVariable _ | intersection _ => simp [look] at found
  | _ => cases found

theorem lookAll_found {o : Outlook} {ts : List TypeTree} (found : s.lookAll target o ts = some (.inl u)) :
    ∃ outer args, u = .declared outer target args := by
  induction ts generalizing o with
  | nil => cases found
  | cons t ts ih =>
    obtain ⟨first, looked, found⟩ := Option.bind_eq_some_iff.mp found
    cases first with
    | inl u' =>
      cases found
      exact look_found looked
    | inr o' => exact ih found

/-- What a search finds is a usage of the element that was searched for. -/
theorem super?_found {t : TypeTree} (found : s.super? t target = some (some u)) :
    ∃ outer args, u = .declared outer target args := by
  obtain ⟨levels, found⟩ := super?_eq_some_iff.mp found
  generalize (⟨[], [t]⟩ : Outlook) = o at found
  induction levels generalizing o with
  | zero => cases found
  | succ levels ih =>
    rw [search?_succ, lookStep] at found
    split at found
    · cases found
    · obtain ⟨first, looked, found⟩ := Option.bind_eq_some_iff.mp found
      cases first with
      | inl u' =>
        cases found
        exact lookAll_found looked
      | inr o' => exact ih o' found

theorem Consistent.usage_of_tree (h : s.Consistent) {t : TypeId} {outer : TypeTree} {e : ElementId}
    {args : List TypeTree} (tree : s.tree t = .declared outer e args) :
    ∃ o as, s.shape? t = some (.declared o e as) := by
  obtain ⟨shape, found, unfolds⟩ := h.shape?_of_tree (t := t) (by rw [tree]; nofun)
  rw [tree] at unfolds
  cases shape with
  | declared o e' as =>
    cases unfolds
    exact ⟨o, as, found⟩
  | _ => cases unfolds

end Store

namespace StoreM

variable {f s : Store} {t view : TypeId} {e o : ElementId} {owner member : ElementRecord}

structure Answered (s : Store) (e : ElementId) (r : ElementRecord) : Prop where
  id : r.id = e
  known : s.RecordKnown r
  recorded : s.record? e = some r ∨ r.enclosing = none ∧ r.typeParameters = []

theorem complete_answered (h : s.Sound) (e : ElementId) :
    Ensures (Tends f) s (complete e) fun r s' => Answered s' e r := by
  have move := (keeping_complete e : Keeping (Tending f) _) s h
  have is : Completion.IsRecordOf (complete e s).2 e (complete e s).1 := (complete_ensures h.toConsistent e).2
  have record : (complete e s).2.RecordKnown (complete e s).1 := (complete_known h e).2
  unfold Completion.IsRecordOf at is
  split at is
  · rw [is] at record
    exact ⟨move, by rw [is]; rfl, by rwa [is], .inr (by rw [is]; exact ⟨rfl, rfl⟩)⟩
  · rename_i slot found
    have recorded := is.resolve_right fun completing => move.advances.sound.settled e ⟨slot, found, completing.1⟩
    obtain ⟨_, _, fits⟩ := move.advances.sound.fits recorded
    exact ⟨move, fits.id, record, .inl recorded⟩

theorem Answered.seen (answered : Answered s e member) (k : s.Kinded) (inside : member.enclosing = some o)
    (owner : ElementRecord) (grown : s.Grown f) : f.SeenFrom o owner member.asType ∨ s.Bare member.asType := by
  have recorded : s.record? e = some member := answered.recorded.resolve_right fun nothing => by
    rw [nothing.1] at inside
    cases inside
  obtain ⟨slot, found, state⟩ := record?_eq_some_iff.mp recorded
  by_cases container : slot.kind.isContainer
  · have initial (i : Nat) (n : NoType) (place : TypeShape.initial[i]? = some (.noType n)) : s.Bare ⟨i⟩ := by
      exact ⟨_, grown.start.initial i _ place, rfl⟩
    have place := (k.record (kind?_eq_some_iff.mpr ⟨slot, found, rfl⟩) recorded).place container
    rcases place with place | place <;> rw [place]
    · exact .inr (initial 3 .module rfl)
    · exact .inr (initial 2 .package rfl)
  · exact .inl (.inr (.inr ⟨e, member, grown.grows.record found container state, inside, rfl⟩))

theorem viewMember_tends (h : s.Sound) (record : s.RecordKnown member)
    (outer : s.record? o = some owner ∨ owner.typeParameters = []) (type : owner.kind.isType)
    {enclosing : TypeId} {args : List TypeId} (usage : s.shape? view = some (.declared enclosing o args))
    (seen : s.Grown f → f.SeenFrom o owner member.asType ∨ s.Bare member.asType) :
    Tends f s (viewMember owner member view s).2 := by
  have known := has_type_iff.mpr ⟨_, usage⟩
  suffices Ensures (Tends f) s (viewMember owner member view) fun _ _ => True from this.1
  refine .get ?_
  rw [shape_of_shape? usage]
  dsimp only
  split
  · exact .pure h.tends trivial
  rename_i generic
  split
  · exact ⟨erase_tends h _, trivial⟩
  · have types : Instantiation.Known ⟨owner.typeParameters, args⟩ s := fun a mem =>
      (h.shapes view _ usage).part_known known (List.mem_cons_of_mem _ mem)
    have recorded := outer.resolve_right fun bare => generic (by rw [bare]; rfl)
    refine ⟨substitute_tends h types record.asType fun harmless grown k => ?_, trivial⟩
    exact harmless.suits grown k usage recorded type (seen grown)

theorem asMemberOf?_tends (h : s.Sound) (k : s.Kinded) (known : s.HasType t) (e : ElementId) :
    Ensures (Tends f) s (asMemberOf? t e).run fun _ _ => True := by
  refine .option_get ?_
  split
  · exact .pure h.tends trivial
  have k₁ := (complete_asks h k e).keeps.kinded
  have first : Ensures (Tends f) s (complete e) fun r s' => Answered s' e r ∧ s'.Kinded :=
    ⟨(complete_answered h e).1, (complete_answered (f := f) h e).2, k₁⟩
  refine Ensures.option_step first fun member s₁ move₁ ⟨answered, k₁⟩ => ?_
  have h₁ := move₁.advances.sound
  cases inside : member.enclosing with
  | none => exact .pure h₁.tends trivial
  | some o =>
    refine Ensures.option_step (complete_answered h₁ o) fun owner s₂ move₂ answered' => ?_
    have h₂ := move₂.advances.sound
    split
    · exact .pure h₂.tends trivial
    rename_i viewed
    have type : owner.kind.isType := by simp_all
    have known₂ := (Movement.trans move₁ move₂).advances.moves.grows.has_type known
    have search : Ensures (Tends f) s₂ (asSuper? t owner.id).run fun r s' =>
        ∀ view, r = some (some view) → ∃ enclosing args, s'.shape? view = some (.declared enclosing o args) := by
      refine ⟨(keeping_asSuper? t owner.id : Keeping (Tending f) _) s₂ h₂, fun view same => ?_⟩
      obtain ⟨move, _, found⟩ := asSuper?_ensures h₂ known₂ owner.id
      rw [same] at found
      obtain ⟨_, _, tree⟩ := super?_found found
      rw [← answered'.id]
      exact move.sound.usage_of_tree tree
    refine search.option_bind (fun _ _ _ => trivial) fun view s₃ move₃ finds => ?_
    have h₃ := move₃.advances.sound
    cases view with
    | none => exact .option_get (.pure h₃.tends trivial)
    | some view =>
      obtain ⟨enclosing, args, usage⟩ := finds view rfl
      have move₂₃ := Movement.trans move₂ move₃
      have outer := answered'.recorded.imp (move₃.advances.toGrown.record_of_type · type) And.right
      have views : Ensures (Tends f) s₃ (viewMember owner member view) fun _ _ => True := by
        refine ⟨viewMember_tends h₃ (answered.known.advance move₂₃.advances) outer type usage fun grown => ?_, trivial⟩
        exact (answered.seen k₁ inside owner (Movement.trans move₂₃.advances.toGrown grown)).imp id
          (Bare.grow · move₂₃.advances.toGrown)
      exact views.option_step fun u s₄ move₄ _ => .pure (Movement.stay move₄) trivial

theorem asMemberOf_tends (h : s.Sound) (k : s.Kinded) (known : s.HasType t) (e : ElementId) :
    Tends f s (asMemberOf t e s).2 := by
  suffices Ensures (Tends f) s (asMemberOf t e).run fun _ _ => True from this.1
  refine (asMemberOf?_tends h k known e).except_step fun r s₁ move₁ _ => ?_
  have h₁ := move₁.advances.sound
  cases r with
  | some answer => cases answer <;> exact .pure h₁.tends trivial
  | none =>
    refine .except_step (complete_answered h₁ e) fun member s₂ move₂ _ => ?_
    exact .except_get (.pure (Movement.stay move₂) trivial)

end StoreM

end members

namespace Request

open StoreM

variable {f s : Store}

def Proper (r : Request) (s : Store) : Prop :=
  match r with
  | enterType _ d => d.wellKinded
  | enterDeclarations p => TypeDecl.allWellKinded p.types
  | enterLocal _ _ _ t => t.wellKinded
  | substitute i t => s.Suits i t
  | intersectionType ts | unionType ts => ∀ t ∈ ts, s.Is isErasable t
  | _ => True

theorem kinded (h : s.Sound) (k : s.Kinded) (r : Request) (inRange : r.InRange s) (proper : r.Proper s)
    (harmless : f.Harmless) (grown : (r.run s).2.Grown f) : (r.run s).2.Kinded := by
  obtain ⟨elements, types⟩ := inRange
  have asked (tends : Tends f s (r.run s).2) : (r.run s).2.Kinded := tends.kinded harmless grown k
  cases r with
  | enterModule name => exact (enterModule_kinds k name).kinded
  | enterPackage module name => exact (enterPackage_kinds k module name).kinded
  | enterType package d => exact (enterType_kinds k package proper).kinded
  | enterDeclarations p => exact (enterDeclarations_kinds k proper).kinded
  | enterLocal owner kind name type => exact (enterLocal_kinds h k owner kind name proper).kinded
  | internName name => exact (internName_kinds k name).kinded
  | intersectionType ts =>
    have admits : s.Admits (.intersection ts) := proper
    exact (k.pushType admits).kinded
  | unionType ts =>
    have admits : s.Admits (.union ts) := proper
    exact (k.pushType admits).kinded
  | substitute i t =>
    exact (substitute_adds h k (types t (by simp [Request.types])) proper).kinded
  | asMemberOf t e => exact asked (asMemberOf_tends h k (types t (by simp [Request.types])) e)
  | complete e => exact asked ((keeping_complete e : Keeping (Tending f) _) s h)
  | inspect t => exact asked ((keeping_inspect t : Keeping (Tending f) _) s h)
  | objectType => exact asked ((keeping_topType : Keeping (Tending f) _) s h)
  | arrayType c => exact asked (arrayType_tends h c)
  | declaredType enclosing e arguments => exact asked (declaredType_tends h enclosing e arguments)
  | wildcardType upper lower => exact asked (wildcardType_tends h upper lower)
  | typeVariable e => exact asked ((keeping_typeVariable e : Keeping (Tending f) _) s h)
  | erase t => exact asked (erase_tends h t)
  | directSupertypes t => exact asked (directSupertypes_tends h t)
  | asSuper t target => exact asked ((keeping_asSuper t target : Keeping (Tending f) _) s h)
  | isSubtype a b => exact asked ((keeping_isSubtype a b : Keeping (Tending f) _) s h)
  | executable enclosing kind name ts =>
    exact asked ((keeping_executable? enclosing kind name ts : Keeping (Tending f) _) s h)
  | memberVariable enclosing name => exact asked ((keeping_memberVariable? enclosing name : Keeping (Tending f) _) s h)
  | typeParameter generic name => exact asked ((keeping_typeParameter? generic name : Keeping (Tending f) _) s h)
  | recordComponent e name => exact asked ((keeping_recordComponent? e name : Keeping (Tending f) _) s h)
  | describeElement own e => exact asked ((Describing.keeping_element own e : Keeping (Tending f) _) s h)
  | describeType own t => exact asked ((Describing.keeping_type own t : Keeping (Tending f) _) s h)
  | rebuild own r => exact asked ((Rebuilding.keeping_rebuild own r : Keeping (Tending f) _) s h)

end Request

/-- The factory that makes types of a shape, if there is one that looks at the parts. -/
def TypeShape.factory? : TypeShape → Option (Checked TypeId)
  | array c => some (StoreM.arrayType c)
  | declared enclosing e args => some (StoreM.declaredType (some enclosing) e args)
  | wildcard upper lower => some (StoreM.wildcardType upper lower)
  | _ => none

namespace Store

variable {s s' f : Store}

/-- Proper requests are made one after the other, each of what is in the store by then. -/
inductive LeadsProperly (s : Store) : Store → Prop
  | rest : LeadsProperly s s
  | ask {s' : Store} (r : Request) : LeadsProperly s s' → r.InRange s' → r.Proper s' → LeadsProperly s (r.run s').2

theorem LeadsProperly.leads (leads : s.LeadsProperly s') : s.LeadsTo s' := by
  induction leads with
  | rest => exact .rest
  | ask r _ inRange _ ih => exact .ask r ih inRange

theorem LeadsProperly.kinded (leads : s.LeadsProperly s') (h : s.Sound) (k : s.Kinded) (harmless : f.Harmless)
    (grown : s'.Grown f) : s'.Kinded := by
  induction leads with
  | rest => exact k
  | ask r before inRange proper ih =>
    have h' := (before.leads.grown h).sound
    have step := (r.addresses h' inRange).toGrown
    exact r.kinded h' (ih (Movement.trans step grown)) inRange proper harmless grown

theorem Sound.factory_accepts {t : TypeId} {shape : TypeShape} {make : Checked TypeId} (h : s.Sound)
    (found : s.shape? t = some shape) (admits : s.Admits shape) (factory : shape.factory? = some make) :
    make.run s = (.ok ⟨s.types.size⟩, s.pushType shape) := by
  cases shape with
  | array c =>
    cases factory
    exact (StoreM.arrayType_makes c).made admits
  | wildcard upper lower =>
    cases factory
    exact (StoreM.wildcardType_makes upper lower).made admits
  | declared enclosing e args =>
    cases factory
    refine (StoreM.declaredType_makes (some enclosing) e args).made ⟨admits, ?_⟩
    rintro _ ⟨⟩
    rcases ((h.shapes t _ found).declared enclosing e args rfl).2 with rfl | ⟨o, e', args', usage⟩
    · exact ⟨_, h.initial 0 (.noType .none) rfl, rfl⟩
    · exact ⟨_, usage, rfl⟩
  | _ => cases factory

/-- Whatever is properly asked of a store that begins with the platform, and however a type came about, the factory
for types of its shape accepts its parts and makes such a type again, unless somewhere a wildcard gets to be a
component or a bound. -/
theorem factories_accept_every_type {t : TypeId} {shape : TypeShape} {make : Checked TypeId}
    (leads : withPlatform.LeadsProperly f) (harmless : f.Harmless) (found : f.shape? t = some shape)
    (factory : shape.factory? = some make) :
    ∃ u f', make.run f = (.ok u, f') ∧ f'.shape? u = some shape := by
  have h := reachable_withPlatform.sound
  have sound := (leads.leads.grown h).sound
  have k := leads.kinded h kinded_withPlatform harmless (Movement.stay (leads.leads.grown h))
  refine ⟨_, _, sound.factory_accepts found (k.shapes t shape found) factory, ?_⟩
  rw [shape?_push, if_pos rfl]

section sample

theorem harmless_of_plain (plain : ∀ shape ∈ s.types.toList, ∀ p ∈ shape.guarded, s.typeKind p ≠ .typeVariable) :
    s.Harmless := by
  rintro _ _ _ _ _ - - u - e a - - exposes
  induction exposes with
  | here found part variable_ =>
    obtain ⟨upper, found'⟩ := variable_
    refine plain _ (Array.mem_toList_iff.mpr (Array.mem_of_getElem? found)) _ part ?_
    rw [typeKind, shape_of_shape? found']
    rfl
  | inside _ _ _ ih => exact ih

def bagProgram (items : TypeExpr) : PackageDecl :=
  { package := "app"
    types := [.mk { kind := .classType, name := "Bag", members := [.field "items" items []] } []] }

def someNumbers : TypeExpr := .named "util.List" [.wildcard (some (.named "lang.Number" [])) none]

@[irreducible] def numberBag : Store := (Request.run (.enterDeclarations (bagProgram someNumbers)) withPlatform).2

@[irreducible] def completeBag : Store := (Request.run (.complete ⟨23⟩) numberBag).2

@[irreducible] def openedBag : Store := (Request.run (.directSupertypes ⟨17⟩) completeBag).2

theorem openedBag_holds : 23 < numberBag.elements.size ∧ 17 < completeBag.types.size ∧
    openedBag.shape? ⟨23⟩ = some (.declared .none ⟨16⟩ [⟨16⟩]) ∧
    ∀ shape ∈ openedBag.types.toList, ∀ p ∈ shape.guarded, openedBag.typeKind p ≠ .typeVariable := by
  decide +kernel

theorem openedBag_leads : withPlatform.LeadsProperly openedBag := by
  have entered : withPlatform.LeadsProperly numberBag := by
    unfold numberBag
    exact .ask (.enterDeclarations (bagProgram someNumbers)) .rest ⟨by simp [Request.elements], by simp [Request.types]⟩
      (show TypeDecl.allWellKinded (bagProgram someNumbers).types by decide)
  obtain ⟨(there : numberBag.HasElement ⟨23⟩), (known : completeBag.HasType ⟨17⟩), -⟩ := openedBag_holds
  have completed : withPlatform.LeadsProperly completeBag := by
    unfold completeBag
    exact .ask (.complete ⟨23⟩) entered ⟨by simpa [Request.elements] using there, by simp [Request.types]⟩ trivial
  unfold openedBag
  exact .ask (.directSupertypes ⟨17⟩) completed ⟨by simp [Request.elements], by simpa [Request.types] using known⟩ trivial

/-- What the items of the bag are seen as above: a type that substitution made. -/
theorem collection_accepted_again :
    withPlatform.LeadsProperly openedBag ∧ openedBag.Harmless ∧
      openedBag.shape? ⟨23⟩ = some (.declared .none ⟨16⟩ [⟨16⟩]) ∧
      (TypeShape.declared .none ⟨16⟩ [⟨16⟩]).factory? = some (StoreM.declaredType (some .none) ⟨16⟩ [⟨16⟩]) ∧
      ∃ u f', (StoreM.declaredType (some .none) ⟨16⟩ [⟨16⟩]).run openedBag = (.ok u, f') ∧
        f'.shape? u = some (.declared .none ⟨16⟩ [⟨16⟩]) := by
  obtain ⟨-, -, made, plain⟩ := openedBag_holds
  have harmless := harmless_of_plain plain
  exact ⟨openedBag_leads, harmless, made, rfl, factories_accept_every_type openedBag_leads harmless made rfl⟩

@[irreducible] def intBag : Store :=
  (Request.run (.complete ⟨23⟩) (Request.run (.enterDeclarations
    (bagProgram (.named "util.List" [.primitive .int]))) withPlatform).2).2

/-- What is declared need not be well kinded: a list of a primitive is resolved, and its factory refuses it. -/
theorem resolved_type_refused : ∃ s t shape make fault, withPlatform.LeadsTo s ∧ s.shape? t = some shape ∧
    shape.factory? = some make ∧ make.run s = (.error fault, s) := by
  have computed : 23 < (Request.run (.enterDeclarations
        (bagProgram (.named "util.List" [.primitive .int]))) withPlatform).2.elements.size ∧
      intBag.shape? ⟨15⟩ = some (.declared .none ⟨17⟩ [.primitive .int]) ∧
      intBag.shape? (.primitive .int) = some (.primitive .int) := by decide +kernel
  obtain ⟨there, items, int⟩ := computed
  have leads : withPlatform.LeadsTo intBag := by
    unfold intBag
    refine .ask (.complete ⟨23⟩) (.ask (.enterDeclarations _) .rest ⟨by simp [Request.elements], by simp [Request.types]⟩)
      ⟨?_, by simp [Request.types]⟩
    simp only [Request.elements, List.mem_singleton, forall_eq]
    exact there
  obtain ⟨fault, refused⟩ := (StoreM.declaredType_makes (s := intBag) (some .none) ⟨17⟩ [.primitive .int]).refused
    fun holds => by
      obtain ⟨⟨_, _, arguments⟩, _⟩ := holds
      obtain ⟨shape, found, kind⟩ := arguments _ (List.mem_singleton_self _)
      cases int.symm.trans found
      cases kind
  exact ⟨intBag, ⟨15⟩, _, _, fault, leads, items, rfl, refused⟩

end sample

end Store

end Nominal
