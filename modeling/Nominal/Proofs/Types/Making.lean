import Nominal.Proofs.Types.Erasing
import Nominal.Types.Factory
/-!
What the factories make, on trees: a type is refused or comes out as the tree of what it was made from.
Whether it is refused depends on the kinds of its parts alone.
-/

namespace Nominal

namespace TypeTree

def arrayOf (c : TypeTree) : Option TypeTree :=
  if StoreM.isComponentKind c.kind then some (array c) else .none

def wildcardOf : Option TypeTree → Option TypeTree → Option TypeTree
  | some _, some _ => .none
  | some b, .none => if StoreM.isBoundKind b.kind then some (wildcard b .none) else .none
  | .none, some b => if StoreM.isBoundKind b.kind then some (wildcard .none b) else .none
  | .none, .none => some (wildcard .none .none)

theorem arrayOf_eq {c t : TypeTree} (made : c.arrayOf = some t) : StoreM.isComponentKind c.kind ∧ t = array c := by
  rw [arrayOf] at made
  split at made <;> cases made
  exact ⟨‹_›, rfl⟩

theorem wildcardOf_eq {upper lower : Option TypeTree} {t : TypeTree} (made : wildcardOf upper lower = some t) :
    t = wildcard upper lower := by
  cases upper <;> cases lower <;> simp_all [wildcardOf]

def noTypeOf : TypeKind → Option TypeTree
  | .none => some none
  | .void => some (noType .void)
  | _ => .none

end TypeTree

namespace Store

def admitsUsage (s : Store) (enclosing : Option TypeTree) (e : ElementId) (args : List TypeTree) : Bool :=
  (s.kind? e).any (·.isType) && (args.isEmpty || args.length == s.arity e)
    && args.all (StoreM.isArgumentKind ·.kind)
    && enclosing.all fun t => t.kind == .declared || t.kind == .none

def usage (s : Store) (enclosing : Option TypeTree) (e : ElementId) (args : List TypeTree) : Option TypeTree :=
  if s.admitsUsage enclosing e args then some (.declared (enclosing.getD .none) e args) else none

theorem usage_eq {s : Store} {enclosing : Option TypeTree} {e : ElementId} {args : List TypeTree} {t : TypeTree}
    (made : s.usage enclosing e args = some t) :
    s.admitsUsage enclosing e args ∧ t = .declared (enclosing.getD .none) e args := by
  rw [usage] at made
  split at made <;> cases made
  exact ⟨‹_›, rfl⟩

variable {s s' : Store} {t : TypeId}

theorem Consistent.knownKind_eq (h : s.Consistent) (known : s.HasType t) :
    s.knownKind t = .ok (s.tree t).kind := by
  obtain ⟨shape, found⟩ := has_type_iff.mp known
  rw [h.tree_kind, typeKind, shape_of_shape? found, knownKind, found]

theorem Grows.admitsUsage {mine : ElementId → Prop} (g : s.Grows mine s') {e : ElementId}
    (there : s.HasElement e) (enclosing : Option TypeTree) (args : List TypeTree) :
    s'.admitsUsage enclosing e args = s.admitsUsage enclosing e args := by
  obtain ⟨slot, found⟩ := has_element_iff.mp there
  obtain ⟨_, found', _, _, rfl, _⟩ := g.slots e slot found
  simp [Store.admitsUsage, kind?, g.arity there, found, found']

theorem Grown.usage (move : s.Grown s') {e : ElementId} (there : s.HasElement e)
    (enclosing : Option TypeTree) (args : List TypeTree) :
    s'.usage enclosing e args = s.usage enclosing e args := by
  rw [Store.usage, Store.usage, move.grows.admitsUsage there]

theorem Consistent.shape?_primitive (h : s.Consistent) (p : Primitive) :
    s.shape? (.primitive p) = some (.primitive p) :=
  h.initial _ _ (by cases p <;> rfl)

theorem Consistent.tree_primitive (h : s.Consistent) (p : Primitive) :
    s.tree (.primitive p) = .primitive p := by
  rw [h.tree_of_shape (h.shape?_primitive p)]
  rfl

theorem Consistent.tree_null (h : s.Consistent) : s.tree .null = .null := by
  have found : s.shape? .null = some .null := h.initial 4 .null rfl
  rw [h.tree_of_shape found]
  rfl

theorem Consistent.tree_noType (h : s.Consistent) (n : NoType) : s.tree (.noType n) = .noType n := by
  have found : s.shape? (.noType n) = some (.noType n) := h.initial _ _ (by cases n <;> rfl)
  rw [h.tree_of_shape found]
  rfl

end Store

namespace StoreM

open Store

variable {s s' : Store} {t : TypeId}

def Offers (t? : Option TypeTree) (r : Except Fault TypeId) (s : Store) : Prop :=
  match r with
  | .ok t => s.HasType t ∧ t? = some (s.tree t)
  | .error _ => t? = none

theorem newType_offers {shape : TypeShape} {t? : Option TypeTree} (h : s.Sound) (c : s.Composes shape)
    (tree : ∀ t, t? = some (shape.unfold s.tree t)) :
    Ensures Advances s (liftM (newType shape) : Checked TypeId).run (Offers t?) := by
  have made := newType_tree h c
  exact ⟨made.1, made.2.1, (tree _).trans (congrArg some made.2.2.symm)⟩

theorem primitiveType_offers (h : s.Sound) (k : TypeKind) :
    Ensures Advances s (liftExcept (primitiveType k) : Checked TypeId).run
      (Offers (.primitive <$> k.primitive?)) := by
  rw [primitiveType]
  cases k.primitive? with
  | none => exact .pure h.stays rfl
  | some p => exact .pure h.stays ⟨h.has_primitive p, by rw [h.tree_primitive]; rfl⟩

theorem noType_offers (h : s.Sound) (k : TypeKind) :
    Ensures Advances s (liftExcept (noType k) : Checked TypeId).run (Offers (TypeTree.noTypeOf k)) := by
  have void : s.tree .void = .noType .void := h.tree_noType .void
  cases k with
  | none => exact .pure h.stays ⟨h.has_none, by rw [h.tree_none]; rfl⟩
  | void => exact .pure h.stays ⟨h.has_initial (by decide), by rw [void]; rfl⟩
  | _ => exact .pure h.stays rfl

theorem arrayType_offers (h : s.Sound) (known : s.HasType t) :
    Ensures Advances s (arrayType t).run (Offers (s.tree t).arrayOf) := by
  refine .except_get (.except_lift h.stays (fun e refused => ?_) fun k ok => ?_)
  · rw [h.knownKind_eq known] at refused
    cases refused
  rw [h.knownKind_eq known] at ok
  cases ok
  refine .except_guard h.stays (fun refused => ?_) fun fits => ?_
  · simpa [Offers, TypeTree.arrayOf] using refused
  · refine newType_offers h ⟨by simpa [TypeShape.parts] using known, by simp, by simp⟩ fun _ => ?_
    rw [TypeTree.arrayOf, if_pos (by simpa using fits)]
    rfl

section checks

variable {α ε : Type}

theorem guard_ok {c : Prop} [Decidable c] {e : ε} {m : Except ε α} {a : α} :
    (if c then (do throw e; m) else m) = .ok a ↔ ¬ c ∧ m = .ok a := by
  split <;> rename_i holds <;> simp [holds, bind, Except.bind, throw, throwThe, MonadExceptOf.throw]

theorem seq_ok {m : Except ε Unit} {n : Except ε α} {a : α} :
    (do m; n) = .ok a ↔ m = .ok () ∧ n = .ok a := by
  cases m <;> simp [bind, Except.bind]

theorem forM_ok {f : α → Except ε Unit} {as : List α} : as.forM f = .ok () ↔ ∀ a ∈ as, f a = .ok () := by
  induction as with
  | nil => simp [List.forM, pure, Except.pure]
  | cons a as ih => rw [List.forM, seq_ok, ih, List.forall_mem_cons]

end checks

theorem checkArgument_ok (h : s.Sound) (known : s.HasType t) :
    checkArgument s t = .ok () ↔ isArgumentKind (s.tree t).kind := by
  rw [checkArgument, h.knownKind_eq known]
  exact guard_ok.trans (by simp [pure, Except.pure])

theorem checkEnclosing_ok (h : s.Sound) (known : s.HasType t) :
    checkEnclosing s t = .ok () ↔ (s.tree t).kind = .declared ∨ (s.tree t).kind = .none := by
  rw [checkEnclosing, h.knownKind_eq known]
  refine guard_ok.trans ?_
  by_cases declared : (s.tree t).kind = .declared <;> simp [declared, pure, Except.pure]

theorem checkBound_ok (h : s.Sound) (known : s.HasType t) :
    checkBound s t = .ok () ↔ isBoundKind (s.tree t).kind := by
  rw [checkBound, h.knownKind_eq known]
  exact guard_ok.trans (by simp [pure, Except.pure])

theorem checkUsage_ok {enclosing : Option TypeId} {e : ElementId} {args : List TypeId} (h : s.Sound)
    (outer : ∀ t ∈ enclosing, s.HasType t) (known : ∀ t ∈ args, s.HasType t) :
    checkUsage s enclosing e args = .ok () ↔ s.admitsUsage (enclosing.map s.tree) e (args.map s.tree) := by
  have arguments : args.forM (checkArgument s) = .ok () ↔
      (args.map s.tree).all (isArgumentKind ·.kind) := by
    rw [forM_ok, List.all_map, List.all_eq_true]
    exact forall₂_congr fun t mem => checkArgument_ok h (known t mem)
  have around : enclosing.forM (checkEnclosing s) = .ok () ↔
      (enclosing.map s.tree).all fun t => t.kind == .declared || t.kind == .none := by
    cases enclosing with
    | none => simp [pure, Except.pure]
    | some t => simpa using checkEnclosing_ok h (outer t rfl)
  rw [checkUsage, admitsUsage]
  cases found : s.slot? e with
  | none => simp [kind?, found, throw, throwThe, MonadExceptOf.throw]
  | some slot =>
    simp only [kind?, found, Option.map_some, Option.any_some, arity, Option.getD_some]
    refine guard_ok.trans ((and_congr_right' guard_ok).trans
      ((and_congr_right' (and_congr_right' seq_ok)).trans ?_))
    rw [arguments, around]
    by_cases raw : args = [] <;> simp [raw, and_assoc, and_left_comm, and_comm]

theorem declaredType_offers {enclosing : Option TypeId} {e : ElementId} {args : List TypeId} (h : s.Sound)
    (outer : ∀ t ∈ enclosing, s.HasType t) (known : ∀ t ∈ args, s.HasType t) :
    Ensures Advances s (declaredType enclosing e args).run
      (Offers (s.usage (enclosing.map s.tree) e (args.map s.tree))) := by
  have checked := checkUsage_ok (e := e) h outer known
  refine .except_get (.except_lift h.stays (fun fault refused => ?_) fun _ ok => ?_)
  · rw [refused] at checked
    simpa [Offers, usage] using checked
  · rw [ok] at checked
    have fits := checked.mp rfl
    have c : s.Composes (.declared (enclosing.getD .none) e args) := by
      refine ⟨?_, ?_, by simp⟩
      · simp only [TypeShape.parts, List.mem_cons]
        rintro p (rfl | mem)
        · cases enclosing with
          | none => exact h.has_none
          | some t => exact outer t rfl
        · exact known p mem
      · rintro _ _ _ ⟨⟩
        simp only [admitsUsage, Bool.and_eq_true] at fits
        refine ⟨(Option.any_eq_true _ _).mp fits.1.1.1, ?_⟩
        cases enclosing with
        | none => exact .inl rfl
        | some t => exact h.outer_of_kind (by simpa using fits.2)
    refine newType_offers h c fun _ => ?_
    rw [usage, if_pos fits, TypeShape.unfold]
    cases enclosing with
    | none => rw [Option.getD_none, h.tree_none]; rfl
    | some t => rfl

theorem wildcardType_offers {upper lower : Option TypeId} (h : s.Sound) (above : ∀ t ∈ upper, s.HasType t)
    (below : ∀ t ∈ lower, s.HasType t) :
    Ensures Advances s (wildcardType upper lower).run
      (Offers (TypeTree.wildcardOf (upper.map s.tree) (lower.map s.tree))) := by
  have c : s.Composes (.wildcard upper lower) := by
    refine ⟨?_, by simp, by simp⟩
    simp only [TypeShape.parts, List.mem_append, Option.mem_toList]
    rintro p (mem | mem)
    · exact above p mem
    · exact below p mem
  refine .except_get (.except_lift h.stays (fun e refused => ?_) fun _ ok => newType_offers h c fun _ => ?_)
  · cases upper with
    | some b =>
      cases lower with
      | some b' => rfl
      | none =>
        have checked := checkBound_ok h (above b rfl)
        rw [show checkBound s b = .error e from refused] at checked
        simpa [Offers, TypeTree.wildcardOf] using checked
    | none =>
      cases lower with
      | some b =>
        have checked := checkBound_ok h (below b rfl)
        rw [show checkBound s b = .error e from refused] at checked
        simpa [Offers, TypeTree.wildcardOf] using checked
      | none => cases refused
  · cases upper with
    | some b =>
      cases lower with
      | some b' => cases ok
      | none => exact if_pos ((checkBound_ok h (above b rfl)).mp ok)
    | none =>
      cases lower with
      | some b => exact if_pos ((checkBound_ok h (below b rfl)).mp ok)
      | none => rfl

theorem typeVariable_offers {e : ElementId} (h : s.Sound) (there : s.HasElement e) :
    Ensures Advances s (typeVariable e).run (Offers
      (if s.kind? e = some .typeParameter then some (.typeVariable e) else none)) := by
  refine .except_get ?_
  obtain ⟨slot, found⟩ := has_element_iff.mp there
  have kind : s.kind? e = some slot.kind := kind?_eq_some_iff.mpr ⟨slot, found, rfl⟩
  rw [kind]
  cases same : slot.kind <;> try exact .pure h.stays rfl
  change Ensures Advances s (do return (Except.ok (← complete e).asType : Except Fault TypeId)) _
  refine (complete_record h there).bind fun r s₁ move recorded => ?_
  have fits := move.fits found recorded
  obtain ⟨_, _, upper, shape, _⟩ := fits.bound same
  refine .pure move.sound.stays ⟨fits.asType, ?_⟩
  rw [if_pos rfl, move.sound.tree_of_shape shape]
  rfl

end StoreM

end Nominal
