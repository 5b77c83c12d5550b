import Nominal.Proofs.Recipe.Foremost
/-!
When siblings can be told apart. Variables, components and type parameters are told apart by their names,
constructors and methods by their kinds, their names and the erased types of their parameters. What can be told
apart from all its siblings comes first in every search for it.
-/

namespace Nominal

namespace StoreM

def erasedParameters (e : ElementId) : StoreM (List TypeId) := do
  (← complete e).parameters.mapM fun p => do erase (← complete p).asType

def sameErasedParameters (d e : ElementId) : StoreM Bool := do
  let ts ← erasedParameters d
  let us ← erasedParameters e
  return Store.sameList (← get).sameType ts us

end StoreM

namespace Store

/-- Two elements in one place, with one name, that are looked up in one way. -/
def SharesName (s : Store) (sel : Selection) (d e : ElementId) : Prop :=
  ∃ a b, s.slot? d = some a ∧ s.slot? e = some b ∧ a.enclosing = b.enclosing ∧
    a.simpleName = b.simpleName ∧ sel.picks a.kind ∧ sel.picks b.kind

/-- Two constructors or methods of one type, with one name and the same erased parameter types. -/
def SharesSignature (s : Store) (d e : ElementId) : Prop :=
  ∃ a b, s.slot? d = some a ∧ s.slot? e = some b ∧ a.enclosing = b.enclosing ∧
    a.simpleName = b.simpleName ∧ a.kind.isExecutable ∧ a.kind = b.kind ∧
    (StoreM.sameErasedParameters d e s).1

/-- No sibling can be taken for the element. -/
structure Distinguishable (s : Store) (e : ElementId) : Prop where
  name : ∀ sel d, s.SharesName sel d e → d = e
  signature : ∀ d, s.SharesSignature d e → d = e

/-! Whether siblings can be told apart can be looked up. -/

instance (s : Store) (sel : Selection) (d e : ElementId) : Decidable (s.SharesName sel d e) :=
  decidable_of_iff ((s.slot? d).any fun a => (s.slot? e).any fun b => a.enclosing == b.enclosing
    && a.simpleName == b.simpleName && sel.picks a.kind && sel.picks b.kind)
    (by simp [SharesName, Option.any_eq_true, and_assoc])

instance (s : Store) (d e : ElementId) : Decidable (s.SharesSignature d e) :=
  decidable_of_iff ((s.slot? d).any fun a => (s.slot? e).any fun b => a.enclosing == b.enclosing
    && a.simpleName == b.simpleName && a.kind.isExecutable && a.kind == b.kind
    && (StoreM.sameErasedParameters d e s).1)
    (by simp [SharesSignature, Option.any_eq_true, and_assoc])

theorem distinguishable_iff {s : Store} {e : ElementId} : s.Distinguishable e ↔
    ∀ i < s.elements.size,
      (∀ sel ∈ [Selection.value, .component, .typeParameter], s.SharesName sel ⟨i⟩ e → i = e.index) ∧
      (s.SharesSignature ⟨i⟩ e → i = e.index) := by
  constructor
  · rintro ⟨name, signature⟩ i _
    exact ⟨fun sel _ shares => congrArg ElementId.index (name sel _ shares),
      fun shares => congrArg ElementId.index (signature _ shares)⟩
  · intro all
    have there {d : ElementId} {a : Slot} (found : s.slot? d = some a) : d.index < s.elements.size :=
      has_element_iff.mpr ⟨a, found⟩
    refine ⟨fun sel d shares => ?_, fun d shares => ?_⟩
    · obtain ⟨a, _, found, _⟩ := id shares
      have same := (all d.index (there found)).1 sel (by cases sel <;> simp) shares
      cases d; cases e; simp_all
    · obtain ⟨a, _, found, _⟩ := id shares
      have same := (all d.index (there found)).2 shares
      cases d; cases e; simp_all

instance (s : Store) (e : ElementId) : Decidable (s.Distinguishable e) :=
  decidable_of_iff _ distinguishable_iff.symm

/-- The factories accept a type without variables and wildcards, down to its last part. -/
inductive Accepted (s : Store) : TypeId → Prop
  | primitive {t : TypeId} {p : Primitive} : s.shape? t = some (.primitive p) → Accepted s t
  | noType {t : TypeId} {n : NoType} : s.shape? t = some (.noType n) → (StoreM.noType n.kind).isOk →
    Accepted s t
  | null {t : TypeId} : s.shape? t = some .null → Accepted s t
  | array {t c : TypeId} : s.shape? t = some (.array c) → ((StoreM.arrayType c).run s).1.isOk →
    Accepted s c → Accepted s t
  | declared {t o : TypeId} {e : ElementId} {args : List TypeId} :
    s.shape? t = some (.declared o e args) → ((StoreM.declaredType (some o) e args).run s).1.isOk →
    Accepted s o → (∀ a ∈ args, Accepted s a) → Accepted s t

/-- The factories accept the erased parameter types of a constructor or method. -/
def AcceptedParameters (s : Store) (e : ElementId) : Prop :=
  ∀ t ∈ (StoreM.erasedParameters e s).1, (StoreM.erasedParameters e s).2.Accepted t

end Store

open Store

namespace StoreM

variable {s : Store} {d e : ElementId}

theorem erasedParameters_ensures (h : s.Sound) {k : ElementKind} (kind : s.kind? e = some k)
    (executable : k.isExecutable) :
    Ensures Advances s (erasedParameters e) fun ts s' =>
      (∀ t ∈ ts, s'.HasType t) ∧ ts.map s'.tree = s.signature e := by
  obtain ⟨slot, found, rfl⟩ := kind?_eq_some_iff.mp kind
  have owned := ElementKind.isOwned_of_executable executable
  refine (complete_record h (has_element_iff.mpr ⟨slot, found⟩)).bind fun r s₁ move recorded => ?_
  rw [(move.fits found recorded).parameters, show s₁.ownedOf e _ = s.parameters e from move.parameters kind owned]
  have each : Ensures Advances s₁ ((s.parameters e).mapM fun p => do erase (← complete p).asType)
      fun ts s' => s'.Made (fun p => s.erased (s.valueType p)) (s.parameters e) ts :=
    Made.ensures move.sound fun p mem s₂ move₂ =>
      erasedType_ensures h (kind_of_parameter mem) (Movement.trans move move₂)
  exact each.imp fun ts s' _ made => ⟨made.known, made.map_tree⟩

theorem sameErasedParameters_ensures (h : s.Sound) {k l : ElementKind} (kind : s.kind? d = some k)
    (kind' : s.kind? e = some l) (executable : k.isExecutable) (executable' : l.isExecutable) :
    Ensures Advances s (sameErasedParameters d e) fun b _ =>
      b = TypeTree.sameAll (s.signature d) (s.signature e) := by
  have grown {s' : Store} (move : s.Advances s') : s'.kind? e = some l := move.moves.grows.kind kind'
  refine (erasedParameters_ensures h kind executable).bind fun ts s₁ move₁ ⟨known, trees⟩ => ?_
  refine (erasedParameters_ensures move₁.sound (grown move₁) executable').bind
    fun us s₂ move₂ ⟨_, trees'⟩ => ?_
  refine .get (.pure move₂.sound.stays ?_)
  rw [sameList_tree us fun p _ q => sameType_tree move₂.sound.toConsistent p q, move₂.map_tree known, trees,
    trees', move₁.signature kind' (ElementKind.isOwned_of_executable executable')]

end StoreM

namespace Store

variable {s : Store} {e : ElementId} {t : TypeId}

theorem Offers.made {t? : Option TypeTree} {r : Except Fault TypeId} {s' : Store}
    (offers : StoreM.Offers t? r s') (ok : r.isOk) : ∃ t, t? = some t := by
  cases r with
  | ok t => exact ⟨_, offers.2⟩
  | error e => cases ok

theorem Accepted.closed (h : s.Sound) (accepted : s.Accepted t) : s.Closed (s.tree t) := by
  induction accepted with
  | primitive found =>
    rw [h.tree_of_shape found]
    exact .primitive _
  | noType found ok =>
    rename_i n
    rw [h.tree_of_shape found]
    cases n <;> first | exact .none | exact .void | cases ok
  | null found =>
    rw [h.tree_of_shape found]
    exact .null
  | array found ok _ ih =>
    rename_i t c _
    have known : s.HasType c := (h.shapes t _ found).part_known (has_type_iff.mpr ⟨_, found⟩)
      (by simp [TypeShape.parts])
    obtain ⟨u, made⟩ := Offers.made (StoreM.arrayType_offers h known).2 ok
    rw [TypeTree.arrayOf] at made
    split at made <;> cases made
    rw [h.tree_of_shape found]
    exact .array ‹_› ih
  | declared found ok _ _ outer inner =>
    rename_i t o e args _ _
    have part (p : TypeId) (mem : p ∈ (TypeShape.declared o e args).parts) : s.HasType p :=
      (h.shapes t _ found).part_known (has_type_iff.mpr ⟨_, found⟩) mem
    have outside : ∀ u ∈ some o, s.HasType u := by
      rintro _ ⟨⟩
      exact part o (by simp [TypeShape.parts])
    obtain ⟨u, made⟩ := Offers.made (StoreM.declaredType_offers (e := e) h outside
      fun a mem => part a (by simp [TypeShape.parts, mem])).2 ok
    rw [usage] at made
    split at made <;> cases made
    rename_i admits
    rw [h.tree_of_shape found]
    exact .declared admits outer (by simpa using inner)

theorem AcceptedParameters.closed (h : s.Sound) (accepted : s.AcceptedParameters e) {k : ElementKind}
    (kind : s.kind? e = some k) (executable : k.isExecutable) : ∀ t ∈ s.signature e, s.Closed t := by
  obtain ⟨move, known, trees⟩ := StoreM.erasedParameters_ensures h kind executable
  obtain ⟨slot, found, rfl⟩ := kind?_eq_some_iff.mp kind
  rw [← move.signature_closed found executable, move.signature kind (ElementKind.isOwned_of_executable executable),
    ← trees]
  intro t mem
  obtain ⟨t, mem', rfl⟩ := List.mem_map.mp mem
  exact (accepted t mem').closed move.sound

theorem find?_of_only {α : Type} {p : α → Bool} {a : α} {as : List α} (mem : a ∈ as) (fits : p a)
    (only : ∀ b ∈ as, p b → b = a) : as.find? p = some a := by
  obtain ⟨b, found⟩ := Option.isSome_iff_exists.mp (List.find?_isSome.mpr ⟨a, mem, fits⟩)
  rw [found, only b (List.mem_of_find?_eq_some found) (List.find?_some found)]

theorem Distinguishable.of_name {slot : Slot} {sel : Selection} (found : s.slot? e = some slot)
    (picked : sel.picks slot.kind) (name : ∀ d, s.SharesName sel d e → d = e) : s.Distinguishable e := by
  refine ⟨fun sel' d shares => name d ?_, fun d shares => ?_⟩
  · obtain ⟨a, b, here, there, enclosing, same, first, second⟩ := id shares
    cases there.symm.trans found
    exact Selection.unique picked second ▸ shares
  · obtain ⟨a, b, _, there, _, _, executable, same, _⟩ := shares
    cases there.symm.trans found
    exact absurd (same ▸ executable) (Selection.not_executable picked)

theorem Distinguishable.foremost (h : s.Sound) {slot : Slot} (found : s.slot? e = some slot)
    (owned : slot.kind.isOwned) (apart : s.Distinguishable e)
    (accepted : slot.kind.isExecutable → s.AcceptedParameters e) : s.Foremost e slot := by
  refine ⟨fun o sel enclosing picked => ?_, fun o enclosing executable => ?_⟩
  · refine find?_of_only (mem_ownedOf.mpr ⟨slot, found, owned, enclosing, picked⟩)
      (by simp [isCalled, found]) fun d mem called => apart.name sel d ?_
    obtain ⟨slot', found', _, enclosing', picked'⟩ := mem_ownedOf.mp mem
    rw [isCalled, found', Option.any_some, beq_iff_eq] at called
    exact ⟨slot', slot, found', found, enclosing'.trans enclosing.symm, called, picked', picked⟩
  · have kind : s.kind? e = some slot.kind := kind?_eq_some_iff.mpr ⟨slot, found, rfl⟩
    refine ⟨(accepted executable).closed h kind executable, ?_⟩
    refine find?_of_only (mem_ownedOf.mpr ⟨slot, found, owned, enclosing, by simp⟩)
      (by simp [isCalled, found, TypeTree.sameAll_refl]) fun d mem called => apart.signature d ?_
    obtain ⟨slot', found', _, enclosing', same⟩ := mem_ownedOf.mp mem
    rw [Bool.and_eq_true, isCalled, found', Option.any_some, beq_iff_eq] at called
    have same : slot'.kind = slot.kind := eq_of_beq same
    have kind' : s.kind? d = some slot.kind := kind?_eq_some_iff.mpr ⟨slot', found', same⟩
    refine ⟨slot', slot, found', found, enclosing'.trans enclosing.symm, called.1, same ▸ executable, same, ?_⟩
    rw [(StoreM.sameErasedParameters_ensures h kind' kind executable executable).2]
    exact called.2

theorem distinguishable_of_type (type : s.IsType e) : s.Distinguishable e := by
  obtain ⟨k, kind, isType⟩ := type
  obtain ⟨slot, found, rfl⟩ := kind?_eq_some_iff.mp kind
  have free : ¬ slot.kind.isOwned := fun owned => ElementKind.isOwned_not_type owned isType
  refine ⟨fun sel d ⟨a, b, _, found', _, _, _, picked⟩ => ?_, fun d ⟨a, b, _, found', _, _, executable, same, _⟩ => ?_⟩
  · cases found.symm.trans found'
    exact absurd (Selection.isOwned picked) free
  · cases found.symm.trans found'
    exact absurd (same ▸ ElementKind.isOwned_of_executable executable) free

end Store

end Nominal
