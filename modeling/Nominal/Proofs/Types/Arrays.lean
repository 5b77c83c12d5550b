import Nominal.Proofs.Types.Admitting
import Nominal.Proofs.Types.Erased
import Nominal.Proofs.Types.Limit
/-!
Arrays under erasure and subtyping. Both go into the components, and each array takes one of the levels that are
followed. Up to the limit the erasure of an array is the array of the erasure, and arrays are below each other as
their components are. At the limit neither holds: there the array of a component that is its own erasure is not, and
arrays of types that are below each other are unrelated.
-/

namespace Nominal

open Store StoreM

namespace TypeTree

theorem erase_arrays (c : Context) (t : TypeTree) (n depth : Nat) :
    (array^[n] t).erase c (n + depth) = array^[n] (t.erase c depth) := by
  induction n with
  | zero => rw [Nat.zero_add, Function.iterate_zero_apply, Function.iterate_zero_apply]
  | succ n ih =>
    rw [Function.iterate_succ_apply', Function.iterate_succ_apply', Nat.add_right_comm, erase, ih]

theorem array_injective : Function.Injective array := fun _ _ => array.inj

theorem same_arrays (a b : TypeTree) (n : Nat) : (array^[n] a).same (array^[n] b) = a.same b := by
  induction n with
  | zero => rfl
  | succ n ih => rw [Function.iterate_succ_apply', Function.iterate_succ_apply', same, ih]

theorem reference_arrays {a : TypeTree} (reference : a.kind.isPrimitive = false) (n : Nat) :
    (array^[n] a).kind.isPrimitive = false := by
  cases n with
  | zero => exact reference
  | succ n =>
    rw [Function.iterate_succ_apply']
    rfl

theorem top_apart {c : Context} (fits : c.Fits) (p : Primitive) : c.top.same (primitive p) = false := by
  rcases fits with top | ⟨e, top⟩ <;> rw [top] <;> rfl

theorem arrays_ne_top {c : Context} (fits : c.Fits) (p : Primitive) (n : Nat) : array^[n] (primitive p) ≠ c.top := by
  cases n with
  | zero => rcases fits with top | ⟨e, top⟩ <;> simp [top, none]
  | succ n =>
    rw [Function.iterate_succ_apply']
    rcases fits with top | ⟨e, top⟩ <;> simp [top, none]

/-- What is cut short has the top type in the place of what was too deep. -/
theorem lt_of_erase_arrays {c : Context} (fits : c.Fits) {p : Primitive} {n depth : Nat}
    (same : (array^[n] (primitive p)).erase c depth = array^[n] (primitive p)) : n < depth := by
  by_contra deep
  obtain ⟨k, rfl⟩ := Nat.exists_eq_add_of_le (Nat.le_of_not_lt deep)
  have cut : (array^[depth + k] (primitive p)).erase c depth = array^[depth] c.top := by
    rw [Function.iterate_add_apply]
    exact erase_arrays c _ depth 0
  rw [cut, Function.iterate_add_apply] at same
  exact arrays_ne_top fits p k (array_injective.iterate depth same).symm

end TypeTree

namespace Store

variable {s : Store} {t u c : TypeId} {n depth : Nat} {a b : TypeTree}

/-- An array of so many dimensions over a type. -/
inductive ArrayOf (s : Store) (u : TypeId) : Nat → TypeId → Prop
  | base : ArrayOf s u 0 u
  | array {n : Nat} {t c : TypeId} : s.shape? t = some (.array c) → ArrayOf s u n c → ArrayOf s u (n + 1) t

theorem ArrayOf.tree (h : s.Consistent) (arrays : s.ArrayOf u n t) : s.tree t = TypeTree.array^[n] (s.tree u) := by
  induction arrays with
  | base => rfl
  | array found _ ih => rw [h.tree_of_shape found, TypeShape.unfold, ih, Function.iterate_succ_apply']

theorem ArrayOf.grow {s' : Store} (arrays : s.ArrayOf u n t) (move : s.Grown s') : s'.ArrayOf u n t := by
  induction arrays with
  | base => exact .base
  | array found _ ih => exact .array (move.grows.shape found) ih

theorem ArrayOf.known (arrays : s.ArrayOf u n t) (known : s.HasType u) : s.HasType t := by
  cases arrays with
  | base => exact known
  | array found _ => exact has_type_iff.mpr ⟨_, found⟩

theorem ArrayOf.remains (arrays : s.ArrayOf u n t) (remains : s.Remains depth u) : s.Remains (n + depth) t := by
  induction arrays with
  | base => rwa [Nat.zero_add]
  | array found _ ih =>
    rw [Nat.add_right_comm]
    exact .array found ih

theorem ArrayOf.unsigned (arrays : s.ArrayOf u n t) (unsigned : s.Unsigned u) : s.Unsigned t := by
  induction arrays with
  | base => exact unsigned
  | array found _ ih =>
    refine throughout_of_parts found rfl fun p part => ?_
    cases List.mem_singleton.mp part
    exact ih

theorem Is.grow {s' : Store} {p : TypeKind → Bool} (is : s.Is p t) (move : s.Grown s') : s'.Is p t := by
  obtain ⟨shape, found, kind⟩ := is
  exact ⟨shape, move.grows.shape found, kind⟩

theorem Sound.array_of_tree (h : s.Sound) (tree : s.tree t = .array a) :
    ∃ c, s.shape? t = some (.array c) ∧ s.HasType c ∧ s.tree c = a := by
  obtain ⟨shape, found, unfolds⟩ := h.shape?_of_tree (t := t) (by rw [tree]; nofun)
  rw [tree] at unfolds
  cases shape with
  | array c =>
    cases unfolds
    have part : c ∈ (TypeShape.array c).parts := by simp [TypeShape.parts]
    exact ⟨c, found, (h.shapes t _ found).part_known (has_type_iff.mpr ⟨_, found⟩) part, rfl⟩
  | _ => cases unfolds

/-- Arrays are compared as their components are, with one level less. -/
theorem below?_array (s : Store) (positive : 0 < depth) (reference : a.kind.isPrimitive = false)
    (reference' : b.kind.isPrimitive = false) : s.below? (depth + 1) (.array a) (.array b) = s.below? depth a b := by
  obtain ⟨n, rfl⟩ := Nat.exists_eq_add_of_lt positive
  rw [below?, TypeTree.same]
  split
  · rw [below?, if_pos ‹_›]
  · rw [compare?, reference, reference']
    rfl

theorem below?_arrays (s : Store) (n depth : Nat) (reference : a.kind.isPrimitive = false)
    (reference' : b.kind.isPrimitive = false) :
    s.below? (n + depth + 1) (TypeTree.array^[n] a) (TypeTree.array^[n] b) = s.below? (depth + 1) a b := by
  induction n with
  | zero => rw [Nat.zero_add, Function.iterate_zero_apply, Function.iterate_zero_apply]
  | succ n ih =>
    rw [Function.iterate_succ_apply', Function.iterate_succ_apply', Nat.add_right_comm n 1 depth,
      s.below?_array (Nat.succ_pos _) (TypeTree.reference_arrays reference n) (TypeTree.reference_arrays reference' n),
      ih]

/-- With as many dimensions as there are levels, types are unrelated unless they are the same. -/
theorem below?_arrays_deep (s : Store) (depth : Nat) (apart : a.same b = false) (reference : a.kind.isPrimitive = false)
    (reference' : b.kind.isPrimitive = false) :
    s.below? depth (TypeTree.array^[depth] a) (TypeTree.array^[depth] b) = some false := by
  cases depth with
  | zero => rfl
  | succ n =>
    rw [Function.iterate_succ_apply, Function.iterate_succ_apply]
    refine (s.below?_arrays n 0 rfl rfl).trans ?_
    rw [below?, TypeTree.same, apart, compare?, reference, reference']
    rfl

theorem below?_array_top {outer : TypeTree} {e : ElementId} {args : List TypeTree}
    (object : s.objectElement? = some e) : s.below? (depth + 1) (.array a) (.declared outer e args) = some true := by
  have compared : s.below? (depth + 1) (.array a) (.declared outer e args) = some (s.objectElement? == some e) := rfl
  rw [compared, object, beq_self_eq_true]

end Store

namespace StoreM

variable {s s₁ : Store} {a c : TypeId}

theorem arrayType_accepted (h : s.Sound) (made : (arrayType c).run s = (.ok a, s₁)) :
    s.Advances s₁ ∧ s.HasType c ∧ s₁.HasType a ∧ s₁.tree a = .array (s.tree c) := by
  have makes := arrayType_makes (s := s) c
  by_cases component : s.Admits (.array c)
  · have known : s.HasType c := Is.known component
    rw [makes.made component] at made
    cases made
    have composes : s.Composes (.array c) := ⟨by simpa [TypeShape.parts] using known, by simp, by simp⟩
    obtain ⟨move, there, tree⟩ := newType_tree h composes
    exact ⟨move, known, there, tree⟩
  · obtain ⟨fault, refused⟩ := makes.refused component
    rw [refused] at made
    cases made

/-- An array that is accepted is erased to an array, with a level less for the component. -/
theorem erase_arrayType (h : s.Sound) (made : (arrayType c).run s = (.ok a, s₁)) :
    ∃ a' s₂ d, (erase a).run s₁ = (a', s₂) ∧ s₁.Advances s₂ ∧ s₂.shape? a' = some (.array d) ∧ s₂.HasType d ∧
      s₂.tree d = (s.tree c).erase s.context (boundDepth - 1) := by
  obtain ⟨move, known, there, tree⟩ := arrayType_accepted h made
  obtain ⟨a', s₂, erased⟩ : ∃ a' s₂, (erase a).run s₁ = (a', s₂) := ⟨_, _, rfl⟩
  obtain ⟨move', _, tree'⟩ := (erase_ensures move.sound there).result erased
  have left : s₂.tree a' = .array ((s.tree c).erase s.context (boundDepth - 1)) := by
    rw [← move.toRetains.erase known, move.tree known, tree', tree]
    rfl
  obtain ⟨d, found, known', component⟩ := move'.sound.array_of_tree left
  exact ⟨a', s₂, d, erased, move', found, known', component⟩

/-- Arrays within the limit stay what they are, over what does. -/
theorem erase_arrays_again {u : TypeId} {n depth : Nat} (h : s.Consistent) (arrays : s.ArrayOf u n a)
    (le : n + depth ≤ boundDepth) (remains : s.Remains depth u) (unsigned : s.Unsigned u) : (erase a).run s = (a, s) :=
  eraseN_again h ((arrays.remains remains).deepen le) (arrays.unsigned unsigned)

theorem erase_primitive_arrays {p : Primitive} {n : Nat} (h : s.Consistent) (arrays : s.ArrayOf (.primitive p) n a)
    (lt : n < boundDepth) : (erase a).run s = (a, s) := by
  have remains : s.Remains 1 (.primitive p) := .plain (h.shape?_primitive p) rfl trivial
  exact erase_arrays_again h arrays lt remains (throughout_of_parts (h.shape?_primitive p) rfl nofun)

theorem isSubtype?_arrays {s₂ s₃ s₄ : Store} {b x y : TypeId} {r r' : Option Bool} (h : s.Sound)
    (made : (arrayType a).run s = (.ok x, s₁)) (made' : (arrayType b).run s₁ = (.ok y, s₂))
    (asked : (isSubtype? x y).run s₂ = (r, s₃)) (asked' : (isSubtype? a b).run s₃ = (r', s₄)) :
    s.HasType a ∧ s₁.HasType b ∧ s.Advances s₁ ∧ s₁.Advances s₃ ∧ s₃.Advances s₄ ∧
      s₃.below? boundDepth (.array (s.tree a)) (.array (s₁.tree b)) = r ∧
      s₄.below? boundDepth (s.tree a) (s₁.tree b) = r' := by
  obtain ⟨move₁, known, there, tree⟩ := arrayType_accepted h made
  obtain ⟨move₂, known', there', tree'⟩ := arrayType_accepted move₁.sound made'
  obtain ⟨move₃, below⟩ := (isSubtype?_ensures move₂.sound (move₂.moves.grows.has_type there) there').result asked
  have from₁ := Movement.trans move₂ move₃
  have from₀ := Movement.trans move₁ from₁
  obtain ⟨move₄, below'⟩ := (isSubtype?_ensures move₃.sound (from₀.moves.grows.has_type known)
    (from₁.moves.grows.has_type known')).result asked'
  rw [move₂.tree there, tree, tree'] at below
  rw [from₀.tree known, from₁.tree known'] at below'
  exact ⟨known, known', move₁, from₁, move₄, below, below'⟩

end StoreM

/-- Erasure goes into the components of arrays. An array is left of an array, and its component is what is left of the
component, as long as there is a level to spare; so an array that stays within the limit is its own erasure if what
it is made of is, and over a primitive type only then. -/
theorem array_erasure_is_structural_up_to_limit {s : Store} (reachable : s.Reachable) :
    (∀ c a s₁, (arrayType c).run s = (.ok a, s₁) →
      ∃ a' s₂ d, (erase a).run s₁ = (a', s₂) ∧ s₂.shape? a' = some (.array d) ∧
        ∀ depth < boundDepth, (s.tree c).ErasedWithin s.context depth →
          ∀ c' s₃, (erase c).run s₂ = (c', s₃) → s₃.sameType d c' ∧ s₃.sameType c' d) ∧
    (∀ n depth t u, s.ArrayOf u n t → n + depth ≤ boundDepth → s.Remains depth u → s.Unsigned u →
      (erase t).run s = (t, s)) ∧
    ∀ n t p, s.ArrayOf (.primitive p) n t → (((erase t).run s).1 = t ↔ n < boundDepth) := by
  have h := reachable.sound
  refine ⟨fun c a s₁ made => ?_, fun n depth t u arrays => erase_arrays_again h.toConsistent arrays,
    fun n t p arrays => ⟨fun same => ?_, fun lt => ?_⟩⟩
  · obtain ⟨move₁, known, _⟩ := arrayType_accepted h made
    obtain ⟨a', s₂, d, erased, move₂, found, there, component⟩ := erase_arrayType h made
    refine ⟨a', s₂, d, erased, found, fun depth lt within c' s₃ erased' => ?_⟩
    have from₂ := Movement.trans move₁ move₂
    obtain ⟨move₃, _, tree₃⟩ := (erase_ensures move₂.sound (from₂.moves.grows.has_type known)).result erased'
    have together : s₃.tree d = s₃.tree c' := by
      rw [move₃.tree there, component, tree₃, from₂.toRetains.erased known, Store.erased,
        TypeTree.erase_of_within within (Nat.le_sub_one_of_lt lt), TypeTree.erase_of_within within lt.le]
    exact ⟨move₃.sound.same_of_tree together, move₃.sound.same_of_tree together.symm⟩
  · have known : s.HasType t := arrays.known (h.has_primitive p)
    obtain ⟨move, _, tree⟩ := (erase_ensures h known).result (leaves same)
    rw [move.tree known, arrays.tree h.toConsistent, h.tree_primitive] at tree
    exact TypeTree.lt_of_erase_arrays s.context_fits tree.symm
  · rw [erase_primitive_arrays h.toConsistent arrays lt]

section sample

namespace Store

def stackArrays : Nat → TypeId × Store → TypeId × Store
  | 0, top => top
  | n + 1, (t, s) => stackArrays n (⟨s.types.size⟩, (Request.run (.arrayType t) s).2)

theorem stackArrays_spec {s : Store} {t u : TypeId} {k : Nat} (h : s.Sound) (component : s.Is isComponentKind t)
    (arrays : s.ArrayOf u k t) (n : Nat) : ∃ t' s', stackArrays n (t, s) = (t', s') ∧ s.LeadsTo s' ∧ s.Advances s' ∧
      s'.Is isComponentKind t' ∧ s'.ArrayOf u (n + k) t' := by
  induction n generalizing s t k with
  | zero => exact ⟨t, s, rfl, .rest, h.stays, component, by rwa [Nat.zero_add]⟩
  | succ n ih =>
    have inRange : (Request.arrayType t).InRange s := ⟨nofun, by simpa [Request.types] using Is.known component⟩
    have made := (arrayType_makes t).made component
    obtain ⟨move, _⟩ := arrayType_accepted h made
    have found : (s.pushType (.array t)).shape? ⟨s.types.size⟩ = some (.array t) := by rw [shape?_push, if_pos rfl]
    obtain ⟨t', s', stacked, leads, move', component', arrays'⟩ :=
      ih move.sound ⟨_, found, rfl⟩ (.array found (arrays.grow move.toGrown))
    have last : (Request.run (.arrayType t) s).2 = s.pushType (.array t) := congrArg Prod.snd made
    refine ⟨t', s', ?_, ?_, Movement.trans move move', component', by rwa [Nat.add_right_comm]⟩
    · rw [stackArrays, last, stacked]
    · exact LeadsTo.trans (last ▸ .ask (.arrayType t) .rest inRange) leads

end Store

/-- The array of a usage is erased to an array of the usage without its argument. -/
theorem box_array_erased_structurally : ∃ s₁ a' s₂ d c' s₃, (arrayType ⟨15⟩).run withUsage = (.ok ⟨18⟩, s₁) ∧
    (erase ⟨18⟩).run s₁ = (a', s₂) ∧ s₂.shape? a' = some (.array d) ∧ (erase ⟨15⟩).run s₂ = (c', s₃) ∧
      s₃.sameType d c' := by
  obtain ⟨s₁, made⟩ : ∃ s₁, (arrayType ⟨15⟩).run withUsage = (.ok ⟨18⟩, s₁) := ⟨_, leaves (by decide +kernel)⟩
  obtain ⟨a', s₂, d, erased, found, component⟩ :=
    (array_erasure_is_structural_up_to_limit reachable_withUsage).1 ⟨15⟩ ⟨18⟩ s₁ made
  obtain ⟨c', s₃, erased'⟩ : ∃ c' s₃, (erase ⟨15⟩).run s₂ = (c', s₃) := ⟨_, _, rfl⟩
  have within : (withUsage.tree ⟨15⟩).ErasedWithin withUsage.context 1 := by
    have found : withUsage.shape? ⟨15⟩ = some (.declared .none ⟨2⟩ [⟨13⟩]) := by decide +kernel
    rw [reachable_withUsage.sound.tree_of_shape found, TypeShape.unfold, reachable_withUsage.sound.tree_none]
    exact .inl rfl
  exact ⟨s₁, a', s₂, d, c', s₃, made, erased, found, erased', (component 1 (by decide) within c' s₃ erased').1⟩

namespace Store

/-- The most dimensions of integers that erasure follows. -/
def intTower : TypeId × Store := stackArrays (boundDepth - 1) (.primitive .int, withUsage)

end Store

/-- With one dimension more, the array of a component that is its own erasure is erased to an array of another one. -/
theorem deep_array_erased_otherwise : intTower.2.Reachable ∧ intTower.2.objectElement?.isSome ∧
    ∃ a s₁ a' s₂ d s₃, (arrayType intTower.1).run intTower.2 = (.ok a, s₁) ∧ (erase a).run s₁ = (a', s₂) ∧
      s₂.shape? a' = some (.array d) ∧ (erase intTower.1).run s₂ = (intTower.1, s₃) ∧
        s₃.sameType d intTower.1 = false := by
  have h := reachable_withUsage.sound
  obtain ⟨c, s, stacked, leads, move, component, arrays⟩ :=
    stackArrays_spec h ⟨.primitive .int, h.shape?_primitive .int, rfl⟩ .base (boundDepth - 1)
  have object : s.objectElement?.isSome := by
    rw [move.object]
    decide +kernel
  obtain ⟨s₁, made⟩ : ∃ s₁, (arrayType c).run s = (.ok ⟨s.types.size⟩, s₁) := ⟨_, (arrayType_makes c).made component⟩
  obtain ⟨move₁, known, _⟩ := arrayType_accepted move.sound made
  obtain ⟨a', s₂, d, erased, move₂, found, _, tree⟩ := erase_arrayType move.sound made
  have later := Movement.trans move₁ move₂
  have kept := erase_primitive_arrays later.sound.toConsistent (arrays.grow later.toGrown) (by decide)
  rw [show intTower = (c, s) from stacked]
  refine ⟨reachable_withUsage.trans leads, object, _, s₁, a', s₂, d, s₂, made, erased, found, kept, ?_⟩
  have cut : s₂.tree d = TypeTree.array^[boundDepth - 1] s.context.top := by
    rw [tree, arrays.tree move.sound.toConsistent]
    exact TypeTree.erase_arrays s.context _ (boundDepth - 1) 0
  rw [sameType_tree later.sound.toConsistent, cut, later.tree known, arrays.tree move.sound.toConsistent,
    move.sound.tree_primitive]
  exact (TypeTree.same_arrays _ _ (boundDepth - 1)).trans (TypeTree.top_apart s.context_fits .int)

end sample

/-- Arrays are covariant as far as types are followed. They are never below each other without their components being
so, and where the question about the components is settled before the limit, both have the same answer. -/
theorem arrays_are_covariant_up_to_limit {s s₁ s₂ s₃ s₄ : Store} {a b x y : TypeId} {r r' : Bool}
    (reachable : s.Reachable) (made : (arrayType a).run s = (.ok x, s₁)) (made' : (arrayType b).run s₁ = (.ok y, s₂))
    (reference : (s.typeKind a).isPrimitive = false) (reference' : (s₁.typeKind b).isPrimitive = false)
    (asked : (isSubtype? x y).run s₂ = (some r, s₃)) (asked' : (isSubtype? a b).run s₃ = (some r', s₄)) :
    (r → r') ∧ ∀ depth < boundDepth, (s₄.settles? depth (s₄.tree a) (s₄.tree b)).isSome → r = r' := by
  obtain ⟨known, known', move₁, from₁, move₄, below, below'⟩ :=
    isSubtype?_arrays reachable.sound made made' asked asked'
  have last := Movement.trans from₁ move₄
  have components : s₄.below? (boundDepth - 1) (s.tree a) (s₁.tree b) = some r := by
    rw [← reachable.sound.tree_kind] at reference
    rw [← move₁.sound.tree_kind] at reference'
    have positive : 0 < boundDepth - 1 := by decide
    exact (s₄.below?_array positive reference reference').symm.trans (move₄.toRetains.below? below)
  rw [last.tree known', (Movement.trans move₁ last).tree known]
  refine ⟨fun holds => ?_, fun depth lt settled => ?_⟩
  · rw [holds] at components
    have raised := below?_raises s₄ (Nat.sub_le boundDepth 1) _ _ components
    rw [below'] at raised
    simpa using raised
  · obtain ⟨q, settled⟩ := Option.isSome_iff_exists.mp settled
    have early := move₄.sound.below?_of_settles settled (Nat.le_sub_one_of_lt lt)
    have late := move₄.sound.below?_of_settles settled lt.le
    rw [components] at early
    rw [below'] at late
    exact Option.some.inj (early.trans late.symm)

section sample

namespace Store

@[irreducible] def boxes : Store := ((arrayType ⟨15⟩).run withUsage).2

/-- Arrays of usages, to the limit and beyond it. -/
def boxTower : TypeId × Store := stackArrays boundDepth (⟨15⟩, withUsage)

/-- Arrays of the top type, to the limit, beside them. -/
def objectTower : TypeId × Store := stackArrays (boundDepth - 1) (⟨14⟩, boxTower.2)

end Store

/-- An array over a usage is below the top type, and so the array of it is below the array of that. -/
theorem box_arrays_covariant : ∃ s₁ s₂ s₃ s₄, (arrayType ⟨18⟩).run boxes = (.ok ⟨19⟩, s₁) ∧
    (arrayType ⟨14⟩).run s₁ = (.ok ⟨20⟩, s₂) ∧ (isSubtype? ⟨19⟩ ⟨20⟩).run s₂ = (some true, s₃) ∧
      (isSubtype? ⟨18⟩ ⟨14⟩).run s₃ = (some true, s₄) := by
  have reachable : boxes.Reachable := by
    have known : withUsage.HasType ⟨15⟩ := show 15 < withUsage.types.size by decide +kernel
    unfold boxes
    exact .ask (.arrayType ⟨15⟩) reachable_withUsage ⟨nofun, by simpa [Request.types] using known⟩
  obtain ⟨s₁, made, is₁⟩ : ∃ s₁, (arrayType ⟨18⟩).run boxes = (.ok ⟨19⟩, s₁) ∧
      s₁ = ((arrayType ⟨18⟩).run boxes).2 := ⟨_, leaves (by decide +kernel), rfl⟩
  obtain ⟨s₂, made', is₂⟩ : ∃ s₂, (arrayType ⟨14⟩).run s₁ = (.ok ⟨20⟩, s₂) ∧ s₂ = ((arrayType ⟨14⟩).run s₁).2 := by
    rw [is₁]
    exact ⟨_, leaves (by decide +kernel), rfl⟩
  obtain ⟨r, s₃, asked, is₃⟩ : ∃ r s₃, (isSubtype? ⟨19⟩ ⟨20⟩).run s₂ = (some r, s₃) ∧
      s₃ = ((isSubtype? ⟨19⟩ ⟨20⟩).run s₂).2 := by
    rw [is₂, is₁]
    exact ⟨true, _, leaves (by decide +kernel), rfl⟩
  obtain ⟨s₄, asked', found, top⟩ : ∃ s₄, (isSubtype? ⟨18⟩ ⟨14⟩).run s₃ = (some true, s₄) ∧
      s₄.shape? ⟨18⟩ = some (.array ⟨15⟩) ∧ s₄.shape? ⟨14⟩ = some (.declared .none ⟨1⟩ []) := by
    rw [is₃, is₂, is₁]
    exact ⟨_, leaves (by decide +kernel), by decide +kernel, by decide +kernel⟩
  obtain ⟨_, _, _, _, move₄, _⟩ := isSubtype?_arrays reachable.sound made made' asked asked'
  have settled : (s₄.settles? 1 (s₄.tree ⟨18⟩) (s₄.tree ⟨14⟩)).isSome := by
    rw [move₄.sound.tree_of_shape found, move₄.sound.tree_of_shape top]
    rfl
  have reference : (s₁.typeKind ⟨14⟩).isPrimitive = false := by
    rw [is₁]
    decide +kernel
  obtain ⟨_, same⟩ :=
    arrays_are_covariant_up_to_limit reachable made made' (by decide +kernel) reference asked asked'
  rw [same 1 (by decide) settled] at asked
  exact ⟨s₁, s₂, s₃, s₄, made, made', asked, asked'⟩

/-- Of two types of which one is below the other, with a dimension more neither is. -/
theorem deep_arrays_unrelated : objectTower.2.Reachable ∧ objectTower.2.objectElement?.isSome ∧
    (objectTower.2.typeKind boxTower.1).isPrimitive = false ∧
      (objectTower.2.typeKind objectTower.1).isPrimitive = false ∧
        ∃ x y s₁ s₂ s₃ s₄, (arrayType boxTower.1).run objectTower.2 = (.ok x, s₁) ∧
          (arrayType objectTower.1).run s₁ = (.ok y, s₂) ∧ (isSubtype? x y).run s₂ = (some false, s₃) ∧
            (isSubtype? boxTower.1 objectTower.1).run s₃ = (some true, s₄) := by
  have h := reachable_withUsage.sound
  have used : withUsage.shape? ⟨15⟩ = some (.declared .none ⟨2⟩ [⟨13⟩]) := by decide +kernel
  obtain ⟨a, s', stacked', leads', move', component', arrays'⟩ :=
    stackArrays_spec h ⟨_, used, rfl⟩ .base boundDepth
  have top : withUsage.shape? ⟨14⟩ = some (.declared .none ⟨1⟩ []) := by decide +kernel
  obtain ⟨b, s, stacked, leads, move, component, arrays⟩ :=
    stackArrays_spec move'.sound ⟨_, move'.moves.grows.shape top, rfl⟩ .base (boundDepth - 1)
  have from₀ := Movement.trans move' move
  have object : s.objectElement? = some ⟨1⟩ := by
    rw [from₀.object]
    decide +kernel
  have found := move.moves.grows.shape (move'.moves.grows.shape top)
  obtain ⟨box, tree⟩ : ∃ box, s.tree a = TypeTree.array^[boundDepth - 1] (.array box) :=
    ⟨_, (arrays'.grow move.toGrown).tree move.sound.toConsistent⟩
  have tree' : s.tree b = TypeTree.array^[boundDepth - 1] (.declared .none ⟨1⟩ []) := by
    rw [arrays.tree move.sound.toConsistent, move.sound.tree_of_shape found, TypeShape.unfold, move.sound.tree_none]
    rfl
  -- Both arrays are made, one after the other.
  obtain ⟨s₁, made⟩ : ∃ s₁, (arrayType a).run s = (.ok ⟨s.types.size⟩, s₁) :=
    ⟨_, (arrayType_makes a).made (component'.grow move.toGrown)⟩
  obtain ⟨move₁, _⟩ := arrayType_accepted move.sound made
  obtain ⟨s₂, made'⟩ : ∃ s₂, (arrayType b).run s₁ = (.ok ⟨s₁.types.size⟩, s₂) :=
    ⟨_, (arrayType_makes b).made (component.grow move₁.toGrown)⟩
  obtain ⟨r, s₃, asked⟩ : ∃ r s₃, (isSubtype? ⟨s.types.size⟩ ⟨s₁.types.size⟩).run s₂ = (r, s₃) := ⟨_, _, rfl⟩
  obtain ⟨r', s₄, asked'⟩ : ∃ r' s₄, (isSubtype? a b).run s₃ = (r', s₄) := ⟨_, _, rfl⟩
  obtain ⟨_, _, _, move₃, move₄, below, below'⟩ := isSubtype?_arrays move.sound made made' asked asked'
  have known : s.HasType b := component.known
  rw [move₁.tree known, tree, tree'] at below below'
  have apart : r = some false := by
    rw [← below]
    exact s₃.below?_arrays_deep boundDepth rfl rfl rfl
  have under : r' = some true := by
    rw [← below']
    refine (s₄.below?_arrays (boundDepth - 1) 0 rfl rfl).trans (below?_array_top ?_)
    rw [move₄.object, move₃.object, move₁.object, object]
  subst apart under
  have is : boxTower = (a, s') := stacked'
  have is' : objectTower = (b, s) := by
    rw [objectTower, is]
    exact stacked
  rw [is', is]
  refine ⟨reachable_withUsage.trans (leads'.trans leads), by rw [object]; rfl, ?_, ?_,
    _, _, s₁, s₂, s₃, s₄, made, made', asked, asked'⟩
  · rw [← move.sound.tree_kind, tree]
    rfl
  · rw [← move.sound.tree_kind, tree']
    rfl

end sample

end Nominal
