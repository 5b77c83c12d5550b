import Nominal.Proofs.Types.Substituting
import Nominal.Types.Supertype
/-!
The immediate supertypes of a type, on trees. They are read off the record of its element, so they are not known
before that element is complete; once they are known, they are never other ones.
-/

namespace Nominal

def TypeTree.members : TypeTree → List TypeTree
  | intersection bounds => bounds
  | bound => [bound]

open Store StoreM

namespace Store

def lasting? (s : Store) (e : ElementId) : Option ElementRecord := (s.record? e).filter fun r => !r.kind.isContainer

def bound? (s : Store) (e : ElementId) : Option TypeTree := do
  match s.shape? (← s.lasting? e).asType with
  | some (.typeVariable _ upper) => s.tree upper
  | _ => none

def declaredAbove (s : Store) (r : ElementRecord) : List TypeTree :=
  let interfaces := r.interfaces.map s.tree
  if r.superclass ≠ .none then s.tree r.superclass :: interfaces
  else if r.kind.isInterface ∧ ¬ s.objectTree.isNone then s.objectTree :: interfaces
  else interfaces

def seenAbove (s : Store) (r : ElementRecord) (args : List TypeTree) : List TypeTree :=
  if r.typeParameters.isEmpty then s.declaredAbove r
  else if args.isEmpty then (s.declaredAbove r).map s.erased
  else (s.declaredAbove r).map (.substitute (TypeTree.binding r.typeParameters args))

def above? (s : Store) : TypeTree → Option (List TypeTree)
  | .declared _ e args => (s.lasting? e).map fun r => if r.kind.isType then s.seenAbove r args else []
  | .typeVariable e => (s.bound? e).map TypeTree.members
  | .intersection bounds => some bounds
  | .array _ => some (if s.objectTree.isNone then [] else [s.objectTree])
  | _ => some []

variable {s s' : Store} {t : TypeId} {e : ElementId} {r : ElementRecord}

section lasting

theorem lasting?_eq_some_iff : s.lasting? e = some r ↔ s.record? e = some r ∧ ¬ r.kind.isContainer := by
  simp [lasting?, Option.filter_eq_some_iff]

theorem Grown.lasting (move : s.Grown s') (lasts : s.lasting? e = some r) : s'.lasting? e = some r := by
  obtain ⟨complete, kind⟩ := lasting?_eq_some_iff.mp lasts
  obtain ⟨slot, found, fits⟩ := move.start.fits complete
  obtain ⟨slot', found', state⟩ := record?_eq_some_iff.mp complete
  cases found.symm.trans found'
  rw [fits.kind] at kind
  exact lasting?_eq_some_iff.mpr ⟨move.grows.record found kind state, by rwa [fits.kind]⟩

theorem Sound.lasting_of_kind (h : s.Sound) (complete : s.record? e = some r) {k : ElementKind}
    (kind : s.kind? e = some k) (plain : ¬ k.isContainer) : r.kind = k ∧ s.lasting? e = some r := by
  obtain ⟨slot, found, fits⟩ := h.fits complete
  obtain ⟨slot', found', rfl⟩ := kind?_eq_some_iff.mp kind
  cases found.symm.trans found'
  exact ⟨fits.kind, lasting?_eq_some_iff.mpr ⟨complete, by rwa [fits.kind]⟩⟩

/-- The types of a record are in the store. -/
structure RecordKnown (s : Store) (r : ElementRecord) : Prop where
  asType : s.HasType r.asType
  superclass : s.HasType r.superclass
  interfaces : ∀ t ∈ r.interfaces, s.HasType t

theorem RecordKnown.advance (known : s.RecordKnown r) (move : s.Advances s') : s'.RecordKnown r :=
  ⟨move.moves.grows.has_type known.asType, move.moves.grows.has_type known.superclass,
    fun t mem => move.moves.grows.has_type (known.interfaces t mem)⟩

theorem Sound.recordKnown (h : s.Sound) (complete : s.record? e = some r) : s.RecordKnown r := by
  obtain ⟨_, _, fits⟩ := h.fits complete
  exact ⟨fits.asType, fits.superclass, fits.interfaces⟩

theorem Sound.bound?_eq (h : s.Sound) {upper : TypeId} (found : s.shape? t = some (.typeVariable e upper)) :
    s.bound? e = some (s.tree upper) := by
  obtain ⟨kind, _, unique⟩ := (h.shapes t _ found).typeVariable e upper rfl
  obtain ⟨r, complete⟩ := h.record_of_owned kind rfl
  have lasts := (h.lasting_of_kind complete kind nofun).2
  simp [bound?, lasts, unique r complete, found]

theorem Retains.bound? (move : s.Retains s') {bound : TypeTree} (known : s.bound? e = some bound) :
    s'.bound? e = some bound := by
  obtain ⟨r, lasts, known⟩ := Option.bind_eq_some_iff.mp known
  have h := move.start
  obtain ⟨complete, _⟩ := lasting?_eq_some_iff.mp lasts
  split at known
  · rename_i e' upper found
    have upper_known := ((h.shapes _ _ found).typeVariable _ upper rfl).2.1
    simp only [Store.bound?, move.lasting lasts, Option.bind_eq_bind, Option.bind_some, move.grows.shape found]
    rw [move.tree upper_known]
    exact known
  · cases known

end lasting

section stability

theorem Retains.declaredAbove (move : s.Retains s') (known : s.RecordKnown r) :
    s'.declaredAbove r = s.declaredAbove r := by
  simp only [Store.declaredAbove]
  rw [move.tree known.superclass, move.map_tree known.interfaces, move.objectTree]

theorem mem_declaredAbove (known : s.RecordKnown r) {u : TypeTree} (mem : u ∈ s.declaredAbove r) :
    u = s.objectTree ∨ ∃ t, s.HasType t ∧ s.tree t = u := by
  have interfaces (mem : u ∈ r.interfaces.map s.tree) : ∃ t, s.HasType t ∧ s.tree t = u := by
    obtain ⟨t, there, rfl⟩ := List.mem_map.mp mem
    exact ⟨t, known.interfaces t there, rfl⟩
  simp only [Store.declaredAbove] at mem
  split at mem
  · rcases List.mem_cons.mp mem with rfl | mem
    · exact .inr ⟨_, known.superclass, rfl⟩
    · exact .inr (interfaces mem)
  · split at mem
    · rcases List.mem_cons.mp mem with rfl | mem
      · exact .inl rfl
      · exact .inr (interfaces mem)
    · exact .inr (interfaces mem)

theorem erased_objectTree (s : Store) : s.erased s.objectTree = s.objectTree :=
  TypeTree.erase_top s.context_fits boundDepth

theorem Retains.erased_above (move : s.Retains s') (known : s.RecordKnown r) :
    (s'.declaredAbove r).map s'.erased = (s.declaredAbove r).map s.erased := by
  rw [move.declaredAbove known]
  refine List.map_congr_left fun u mem => ?_
  rcases mem_declaredAbove known mem with rfl | ⟨t, there, rfl⟩
  · rw [s.erased_objectTree, ← move.objectTree, s'.erased_objectTree]
  · rw [← move.tree there, move.erased there, move.tree there]

theorem Retains.seenAbove (move : s.Retains s') (known : s.RecordKnown r) (args : List TypeTree) :
    s'.seenAbove r args = s.seenAbove r args := by
  unfold Store.seenAbove
  rw [move.erased_above known, move.declaredAbove known]

/-- Once the supertypes of a type are known, they stay the same. -/
theorem Retains.above? (move : s.Retains s') {u : TypeTree} {us : List TypeTree} (known : s.above? u = some us) :
    s'.above? u = some us := by
  cases u with
  | declared o e args =>
    obtain ⟨r, lasts, rfl⟩ := Option.map_eq_some_iff.mp known
    have recorded := move.start.recordKnown (lasting?_eq_some_iff.mp lasts).1
    rw [Store.above?, move.lasting lasts, Option.map_some, move.seenAbove recorded]
  | typeVariable e =>
    obtain ⟨bound, found, rfl⟩ := Option.map_eq_some_iff.mp known
    rw [Store.above?, move.bound? found, Option.map_some]
  | array c => rw [← known, Store.above?, Store.above?, move.objectTree]
  | _ => exact known

end stability

theorem Consistent.members_eq (h : s.Consistent) (t : TypeId) :
    (s.tree t).members = (match s.shape t with | .intersection ts => ts | _ => [t]).map s.tree := by
  have unfolds := h.tree_eq t
  split
  · rename_i same
    rw [unfolds, same]
    rfl
  · rename_i other
    rw [List.map_singleton, unfolds]
    cases same : s.shape t with
    | intersection ts => exact absurd same (other ts)
    | _ => rfl

end Store

namespace StoreM

variable {s s' : Store} {t : TypeId} {e : ElementId} {r : ElementRecord}

theorem complete_known (h : s.Sound) (e : ElementId) :
    Ensures Advances s (complete e) fun r s' => s'.RecordKnown r := by
  refine (h.ensures (complete_ensures h.toConsistent e)).imp fun r s' move is => ?_
  unfold Completion.IsRecordOf at is
  split at is
  · rw [is]
    exact ⟨move.sound.has_none, move.sound.has_none, nofun⟩
  · rename_i slot found
    rcases is with complete | ⟨completing, _⟩
    · exact move.sound.recordKnown complete
    · exact absurd ⟨slot, found, completing⟩ (move.sound.settled e)

theorem objectType_above (h : s.Sound) {rest : List TypeId} (known : ∀ t ∈ rest, s.HasType t) :
    Ensures Advances s (do
      let object ← objectType
      return if object = .none then rest else object :: rest)
      fun ts s' => (∀ t ∈ ts, s'.HasType t) ∧ ts.map s'.tree =
        if s.objectTree.isNone then rest.map s.tree else s.objectTree :: rest.map s.tree := by
  refine (objectType_tree h).bind fun object s₁ move ⟨there, tree⟩ => .pure move.sound.stays ?_
  have rest₁ (t : TypeId) (mem : t ∈ rest) : s₁.HasType t := move.moves.grows.has_type (known t mem)
  rw [← tree]
  by_cases nothing : object = .none
  · rw [if_pos nothing, if_pos (move.sound.tree_isNone.mpr nothing)]
    exact ⟨rest₁, move.map_tree known⟩
  · rw [if_neg nothing, if_neg fun isNone => nothing (move.sound.tree_isNone.mp isNone)]
    exact ⟨List.forall_mem_cons.mpr ⟨there, rest₁⟩, by rw [List.map_cons, move.map_tree known]⟩

theorem declaredSupertypes_ensures (h : s.Sound) (known : s.RecordKnown r) :
    Ensures Advances s (declaredSupertypes r) fun ts s' =>
      (∀ t ∈ ts, s'.HasType t) ∧ ts.map s'.tree = s.declaredAbove r := by
  unfold declaredSupertypes Store.declaredAbove
  dsimp only
  split
  · exact .pure h.stays ⟨List.forall_mem_cons.mpr ⟨known.superclass, known.interfaces⟩, List.map_cons⟩
  · split
    · rename_i isInterface
      refine (objectType_above h known.interfaces).imp fun ts s' _ ⟨there, trees⟩ => ⟨there, trees.trans ?_⟩
      split <;> simp_all
    · exact .pure h.stays ⟨known.interfaces, by simp_all⟩

theorem directSupertypes_ensures (h : s.Sound) (t : TypeId) :
    Ensures Advances s (directSupertypes t) fun ts s' =>
      (∀ u ∈ ts, s'.HasType u) ∧ s'.above? (s.tree t) = some (ts.map s'.tree) := by
  refine .get ?_
  rw [h.tree_eq]
  cases found : s.shape? t with
  | none =>
    rw [show s.shape t = .unknown by rw [shape, found]; rfl]
    exact .pure h.stays ⟨by simp, rfl⟩
  | some shape =>
    have known := has_type_iff.mpr ⟨shape, found⟩
    have fits := h.shapes t shape found
    have part (p : TypeId) (mem : p ∈ shape.parts) := fits.part_known known mem
    rw [shape_of_shape? found]
    cases shape with
    | declared enclosing e args =>
      obtain ⟨⟨k, kind, type⟩, _⟩ := fits.declared enclosing e args rfl
      have there : s.HasElement e := IsType.there ⟨k, kind, type⟩
      -- The element is completed first, and its record is what the tree of the usage is read against.
      refine (complete_record h there).bind fun r s₁ move₁ complete => ?_
      obtain ⟨sameKind, lasts⟩ := move₁.sound.lasting_of_kind complete (move₁.moves.grows.kind kind)
        (ElementKind.isType_not_container type)
      rw [if_neg (by simp [sameKind, type])]
      have record := move₁.sound.recordKnown complete
      refine (declaredSupertypes_ensures move₁.sound record).bind fun supers s₂ move₂ told => ?_
      obtain ⟨above, trees⟩ := told
      have record₂ := record.advance move₂
      have trees₂ : supers.map s₂.tree = s₂.declaredAbove r := trees.trans (move₂.declaredAbove record).symm
      have seen (s₃ : Store) (move₃ : s₂.Advances s₃) :
          s₃.above? ((TypeShape.declared enclosing e args).unfold s.tree t) =
            some (s₂.seenAbove r (args.map s.tree)) := by
        rw [TypeShape.unfold, above?, move₃.lasting (move₂.lasting lasts), Option.map_some,
          if_pos (by rw [sameKind, type]), move₃.seenAbove record₂]
      have above' (p : TypeId) (mem : p ∈ supers) (s₃ : Store) (move : s₂.Advances s₃) : s₃.HasType p :=
        move.moves.grows.has_type (above p mem)
      split
      · rename_i plain
        refine .pure move₂.sound.stays ⟨above, ?_⟩
        rw [seen s₂ move₂.sound.stays, seenAbove, if_pos plain, trees₂]
      rename_i generic
      split
      · rename_i raw
        have erases : Ensures Advances s₂ (supers.mapM erase) fun ts s' =>
            s'.Made (fun p => s₂.erased (s₂.tree p)) supers ts := by
          refine Made.ensures move₂.sound fun p mem s₃ move₃ => ?_
          rw [← move₃.erased (above p mem)]
          exact erase_ensures move₃.sound (above' p mem s₃ move₃)
        refine erases.imp fun ts s₃ move₃ made => ⟨made.known, ?_⟩
        rw [seen s₃ move₃, seenAbove, if_neg generic, if_pos (by simpa using raw), made.map_tree, ← trees₂,
          List.map_map]
        rfl
      · rename_i parameterized
        have known₂ : Instantiation.Known ⟨r.typeParameters, args⟩ s₂ := fun u mem =>
          (Movement.trans move₁ move₂).moves.grows.has_type (part u (by simp [TypeShape.parts, mem]))
        have binding₂ : s₂.binding ⟨r.typeParameters, args⟩ =
            TypeTree.binding r.typeParameters (args.map s.tree) := by
          rw [Store.binding, (Movement.trans move₁ move₂).map_tree fun u mem => part u (by simp [TypeShape.parts, mem])]
        have substitutes : Ensures Advances s₂ (supers.mapM (substitute ⟨r.typeParameters, args⟩)) fun ts s' =>
            s'.Made (fun p => (s₂.tree p).substitute (s₂.binding ⟨r.typeParameters, args⟩)) supers ts := by
          refine Made.ensures move₂.sound fun p mem s₃ move₃ => ?_
          rw [← move₃.tree (above p mem), ← move₃.binding known₂]
          exact substitute_ensures move₃.sound (fun u there => move₃.moves.grows.has_type (known₂ u there))
            (above' p mem s₃ move₃)
        refine substitutes.imp fun ts s₃ move₃ made => ⟨made.known, ?_⟩
        rw [seen s₃ move₃, seenAbove, if_neg generic, if_neg (by simpa using parameterized), made.map_tree, ← trees₂,
          binding₂, List.map_map]
        rfl
    | typeVariable e upper =>
      have bound := (fits.typeVariable e upper rfl).2.1
      have members : s.above? (.typeVariable e) = some (s.tree upper).members := by
        rw [above?, h.bound?_eq found, Option.map_some]
      rw [h.members_eq] at members
      dsimp only
      split
      · rename_i bounds same
        rw [same] at members
        obtain ⟨shape', found'⟩ := has_type_iff.mp bound
        rw [shape_of_shape? found'] at same
        cases same
        exact .pure h.stays ⟨fun u mem => (h.shapes upper _ found').part_known bound mem, members⟩
      · rename_i other
        refine .pure h.stays ⟨by simpa using bound, members.trans ?_⟩
        split
        · rename_i bounds same
          exact absurd same (other bounds)
        · rfl
    | intersection bounds =>
      exact .pure h.stays ⟨fun u mem => part u (by simpa [TypeShape.parts] using mem), rfl⟩
    | array c => exact (objectType_above h (List.forall_mem_nil s.HasType)).imp fun ts s' move told =>
        ⟨told.1, by rw [told.2, TypeShape.unfold, Store.above?, move.objectTree]; rfl⟩
    | primitive _ | noType _ | null | error _ | wildcard _ _ | executable _ | union _ =>
      exact .pure h.stays ⟨by simp, rfl⟩

end StoreM

end Nominal
