import Nominal.Proofs.Store.Advancing
import Nominal.Types.Sameness
/-!
What a type handle stands for: the type unfolded to a tree. The parts of a type are older than the type,
so the unfolding ends; a type variable is known by its type parameter alone. Types are the same if
their trees are.
-/

namespace Nominal

inductive TypeTree where
  | primitive (p : Primitive)
  | noType (n : NoType)
  | null
  | array (component : TypeTree)
  | declared (enclosing : TypeTree) (element : ElementId) (arguments : List TypeTree)
  /-- An error is only known by its place. -/
  | error (t : TypeId)
  | typeVariable (element : ElementId)
  | wildcard (upper lower : Option TypeTree)
  | executable (typeVariables : Nat) (parameters : List TypeTree) (result : TypeTree)
    (thrown : List TypeTree)
  | union (alternatives : List TypeTree)
  | intersection (bounds : List TypeTree)

namespace TypeTree

def none : TypeTree := noType .none

def kind : TypeTree → TypeKind
  | primitive p => p.kind
  | noType n => n.kind
  | null => .null
  | array _ => .array
  | declared .. => .declared
  | error _ => .error
  | typeVariable _ => .typeVariable
  | wildcard .. => .wildcard
  | executable .. => .executable
  | union _ => .union
  | intersection _ => .intersection

mutual

def same : TypeTree → TypeTree → Bool
  | primitive p, primitive q => p == q
  | noType m, noType n => m == n
  | null, null => true
  | array a, array b => a.same b
  | declared a d as, declared b e bs => d == e && a.same b && sameAll as bs
  | error t, error u => t == u
  | typeVariable d, typeVariable e => d == e
  | wildcard u l, wildcard u' l' => sameOpt u u' && sameOpt l l'
  | executable m as a us, executable n bs b vs =>
    m == n && sameAll as bs && a.same b && sameAll us vs
  | union as, union bs => as.length == bs.length && allAmong as bs
  | intersection as, intersection bs => as.length == bs.length && allAmong as bs
  | _, _ => false
termination_by structural a => a

def sameAll : List TypeTree → List TypeTree → Bool
  | a :: as, b :: bs => a.same b && sameAll as bs
  | [], [] => true
  | _, _ => false

def sameOpt : Option TypeTree → Option TypeTree → Bool
  | some a, some b => a.same b
  | .none, .none => true
  | _, _ => false

def allAmong : List TypeTree → List TypeTree → Bool
  | [], _ => true
  | a :: as, bs => bs.any (fun b => a.same b) && allAmong as bs

end

mutual

def plain : TypeTree → Bool
  | primitive _ | noType _ | null | error _ | typeVariable _ => true
  | array a => a.plain
  | declared a _ as => a.plain && allPlain as
  | wildcard u l => optPlain u && optPlain l
  | executable .. | union _ | intersection _ => false

def allPlain : List TypeTree → Bool
  | [] => true
  | a :: as => a.plain && allPlain as

def optPlain : Option TypeTree → Bool
  | .none => true
  | some a => a.plain

end

mutual

/-- Without alternatives and several bounds at any depth, so that the same is equal. -/
def simple : TypeTree → Bool
  | primitive _ | noType _ | null | error _ | typeVariable _ => true
  | array a => a.simple
  | declared a _ as => a.simple && allSimple as
  | wildcard u l => optSimple u && optSimple l
  | executable _ as a us => allSimple as && a.simple && allSimple us
  | union _ | intersection _ => false

def allSimple : List TypeTree → Bool
  | [] => true
  | a :: as => a.simple && allSimple as

def optSimple : Option TypeTree → Bool
  | .none => true
  | some a => a.simple

end

theorem sameAll_map {α β : Type} {f : α → TypeTree} {g : β → TypeTree} {as : List α} (bs : List β)
    (length : as.length = bs.length) :
    sameAll (as.map f) (bs.map g) = (as.zip bs).all fun (a, b) => (f a).same (g b) := by
  induction as generalizing bs with
  | nil => cases bs <;> simp_all [sameAll]
  | cons a as ih =>
    cases bs with
    | nil => simp at length
    | cons b bs =>
      rw [List.map_cons, List.map_cons, sameAll, List.zip_cons_cons, List.all_cons,
        ih bs (by simpa using length)]

theorem sameAll_length {as bs : List TypeTree} (length : as.length ≠ bs.length) :
    sameAll as bs = false := by
  induction as generalizing bs with
  | nil => cases bs <;> simp_all [sameAll]
  | cons a as ih => cases bs <;> simp_all [sameAll]

mutual

theorem same_refl : (a : TypeTree) → a.same a
  | primitive _ | noType _ | error _ | typeVariable _ => by simp [same]
  | null => rfl
  | array a => by rw [same]; exact same_refl a
  | declared a e as => by simp [same, same_refl a, sameAll_refl as]
  | wildcard u l => by simp [same, sameOpt_refl u, sameOpt_refl l]
  | executable n as a us => by simp [same, same_refl a, sameAll_refl as, sameAll_refl us]
  | union as => by simp [same, allAmong_refl as fun _ => id]
  | intersection as => by simp [same, allAmong_refl as fun _ => id]

theorem sameAll_refl : (as : List TypeTree) → sameAll as as
  | [] => rfl
  | a :: as => by simp [sameAll, same_refl a, sameAll_refl as]

theorem sameOpt_refl : (a : Option TypeTree) → sameOpt a a
  | .none => rfl
  | some a => same_refl a

theorem allAmong_refl : (as : List TypeTree) → {bs : List TypeTree} → (∀ a ∈ as, a ∈ bs) → allAmong as bs
  | [], _, _ => by simp [allAmong]
  | a :: as, bs, sub => by
    rw [allAmong, Bool.and_eq_true, List.any_eq_true]
    exact ⟨⟨a, sub a (by simp), same_refl a⟩, allAmong_refl as fun b mem => sub b (by simp [mem])⟩

end

mutual

theorem simple_of_plain : (a : TypeTree) → a.plain → a.simple
  | primitive _, _ | noType _, _ | null, _ | error _, _ | typeVariable _, _ => rfl
  | array a, h => simple_of_plain a h
  | declared a _ as, h => by
    simp only [plain, simple, Bool.and_eq_true] at h ⊢
    exact ⟨simple_of_plain a h.1, allSimple_of_plain as h.2⟩
  | wildcard u l, h => by
    simp only [plain, simple, Bool.and_eq_true] at h ⊢
    exact ⟨optSimple_of_plain u h.1, optSimple_of_plain l h.2⟩
  | executable .., h | union _, h | intersection _, h => by simp [plain] at h

theorem allSimple_of_plain : (as : List TypeTree) → allPlain as → allSimple as
  | [], _ => rfl
  | a :: as, h => by
    simp only [allPlain, allSimple, Bool.and_eq_true] at h ⊢
    exact ⟨simple_of_plain a h.1, allSimple_of_plain as h.2⟩

theorem optSimple_of_plain : (a : Option TypeTree) → optPlain a → optSimple a
  | .none, _ => rfl
  | some a, h => simple_of_plain a h

end

mutual

theorem eq_of_same : (a b : TypeTree) → a.same b → a.simple ∨ b.simple → a = b
  | primitive _, b, h, _ | noType _, b, h, _ | null, b, h, _ | error _, b, h, _
  | typeVariable _, b, h, _ => by cases b <;> simp_all [same]
  | array a, b, h, p => by
    cases b <;> simp only [same, reduceCtorEq] at h
    rw [eq_of_same a _ h p]
  | declared a e as, b, h, p => by
    cases b <;> simp only [same, reduceCtorEq, Bool.and_eq_true, beq_iff_eq] at h
    obtain ⟨⟨rfl, outer⟩, rest⟩ := h
    simp only [simple, Bool.and_eq_true] at p
    rw [eq_of_same a _ outer (p.imp And.left And.left), eq_of_sameAll as _ rest (p.imp And.right And.right)]
  | wildcard u l, b, h, p => by
    cases b <;> simp only [same, reduceCtorEq, Bool.and_eq_true] at h
    simp only [simple, Bool.and_eq_true] at p
    rw [eq_of_sameOpt u _ h.1 (p.imp And.left And.left), eq_of_sameOpt l _ h.2 (p.imp And.right And.right)]
  | executable n as a us, b, h, p => by
    cases b <;> simp only [same, reduceCtorEq, Bool.and_eq_true, beq_iff_eq] at h
    obtain ⟨⟨⟨rfl, parameters⟩, result⟩, thrown⟩ := h
    simp only [simple, Bool.and_eq_true] at p
    rw [eq_of_sameAll as _ parameters (p.imp (·.1.1) (·.1.1)), eq_of_same a _ result (p.imp (·.1.2) (·.1.2)),
      eq_of_sameAll us _ thrown (p.imp And.right And.right)]
  | union _, b, h, p | intersection _, b, h, p => by
    cases b <;> simp_all [same, simple]

theorem eq_of_sameAll : (as bs : List TypeTree) → sameAll as bs → allSimple as ∨ allSimple bs → as = bs
  | [], bs, h, _ => by cases bs <;> simp_all [sameAll]
  | a :: as, bs, h, p => by
    cases bs <;> simp only [sameAll, reduceCtorEq, Bool.and_eq_true] at h
    simp only [allSimple, Bool.and_eq_true] at p
    rw [eq_of_same a _ h.1 (p.imp And.left And.left), eq_of_sameAll as _ h.2 (p.imp And.right And.right)]

theorem eq_of_sameOpt : (a b : Option TypeTree) → sameOpt a b → optSimple a ∨ optSimple b → a = b
  | .none, b, h, _ => by cases b <;> simp_all [sameOpt]
  | some a, b, h, p => by
    cases b <;> simp only [sameOpt, reduceCtorEq] at h
    rw [eq_of_same a _ h p]

end

end TypeTree

def TypeShape.unfold (tree : TypeId → TypeTree) (t : TypeId) : TypeShape → TypeTree
  | primitive p => .primitive p
  | noType n => .noType n
  | null => .null
  | array c => .array (tree c)
  | declared enclosing e args => .declared (tree enclosing) e (args.map tree)
  | error _ => .error t
  | typeVariable e _ => .typeVariable e
  | wildcard upper lower => .wildcard (upper.map tree) (lower.map tree)
  | executable sig =>
    .executable sig.typeVariables.length (sig.parameters.map tree) (tree sig.result)
      (sig.thrown.map tree)
  | union ts => .union (ts.map tree)
  | intersection ts => .intersection (ts.map tree)

theorem TypeShape.unfold_congr {tree tree' : TypeId → TypeTree} {t : TypeId} {shape : TypeShape}
    (same : ∀ p ∈ shape.parts, tree p = tree' p) : shape.unfold tree t = shape.unfold tree' t := by
  cases shape with
  | wildcard upper lower => cases upper <;> cases lower <;> simp_all [unfold, parts]
  | _ => simp_all [unfold, parts]

theorem TypeShape.unfold_kind {tree : TypeId → TypeTree} {t : TypeId} (shape : TypeShape) :
    (shape.unfold tree t).kind = shape.kind := by
  cases shape <;> rfl

namespace Store

def treeN (s : Store) : Nat → TypeId → TypeTree
  | 0, t => .error t
  | fuel + 1, t => (s.shape t).unfold (s.treeN fuel) t

def tree (s : Store) (t : TypeId) : TypeTree := s.treeN (t.index + 1) t

variable {s s' : Store}

theorem Consistent.part_older (h : s.Consistent) {t p : TypeId} (part : p ∈ (s.shape t).parts) :
    p.index < t.index := by
  cases found : s.shape? t with
  | none => simp [shape, found, TypeShape.unknown, TypeShape.parts] at part
  | some shape => exact (h.shapes t shape found).older p (shape_of_shape? found ▸ part)

theorem Consistent.treeN_eq (h : s.Consistent) (t : TypeId) {fuel : Nat} (enough : t.index < fuel) :
    s.treeN fuel t = s.tree t := by
  induction place : t.index using Nat.strongRecOn generalizing t fuel with
  | ind i ih =>
    obtain ⟨n, rfl⟩ : ∃ n, fuel = n + 1 := ⟨fuel - 1, by omega⟩
    rw [tree, treeN, treeN]
    refine TypeShape.unfold_congr fun p part => ?_
    have older := h.part_older part
    rw [ih p.index (by omega) p (by omega) rfl, ih p.index (by omega) p (by omega) rfl]

theorem Consistent.tree_eq (h : s.Consistent) (t : TypeId) :
    s.tree t = (s.shape t).unfold s.tree t := by
  rw [tree, treeN]
  exact TypeShape.unfold_congr fun p part => h.treeN_eq p (h.part_older part)

theorem Consistent.tree_of_shape (h : s.Consistent) {t : TypeId} {shape : TypeShape}
    (found : s.shape? t = some shape) : s.tree t = shape.unfold s.tree t := by
  rw [h.tree_eq, shape_of_shape? found]

theorem Consistent.tree_kind (h : s.Consistent) (t : TypeId) : (s.tree t).kind = s.typeKind t := by
  rw [h.tree_eq, TypeShape.unfold_kind, typeKind]

theorem Consistent.shape?_of_tree (h : s.Consistent) {t : TypeId} (fine : (s.tree t).kind ≠ .error) :
    ∃ shape, s.shape? t = some shape ∧ s.tree t = shape.unfold s.tree t := by
  cases found : s.shape? t with
  | none =>
    rw [h.tree_kind, typeKind, shape, found] at fine
    exact absurd rfl fine
  | some shape => exact ⟨shape, rfl, h.tree_of_shape found⟩

theorem Grown.tree (move : s.Grown s') {t : TypeId} (known : s.HasType t) : s'.tree t = s.tree t := by
  induction place : t.index using Nat.strongRecOn generalizing t with
  | ind i ih =>
    obtain ⟨shape, found⟩ := has_type_iff.mp known
    rw [move.start.tree_of_shape found, move.sound.tree_of_shape (move.grows.shape found)]
    refine TypeShape.unfold_congr fun p part => ?_
    have fits := move.start.shapes t shape found
    exact ih p.index (place ▸ fits.older p part) (fits.part_known known part) rfl

theorem sameList_tree {same : TypeId → TypeId → Bool} {tree : TypeId → TypeTree}
    {as : List TypeId} (bs : List TypeId) (parts : ∀ p ∈ as, ∀ q, same p q = (tree p).same (tree q)) :
    sameList same as bs = TypeTree.sameAll (as.map tree) (bs.map tree) := by
  induction as generalizing bs with
  | nil => cases bs <;> rfl
  | cons a as ih =>
    cases bs with
    | nil => rfl
    | cons b bs =>
      simp only [sameList, List.map_cons, TypeTree.sameAll]
      rw [parts a (by simp), ih bs fun p mem => parts p (by simp [mem])]

theorem sameOption_tree {same : TypeId → TypeId → Bool} {tree : TypeId → TypeTree}
    {a : Option TypeId} (b : Option TypeId)
    (parts : ∀ p ∈ a, ∀ q, same p q = (tree p).same (tree q)) :
    sameOption same a b = TypeTree.sameOpt (a.map tree) (b.map tree) := by
  cases a <;> cases b <;> simp_all [sameOption, TypeTree.sameOpt]

theorem sameSet_tree {same : TypeId → TypeId → Bool} {tree : TypeId → TypeTree}
    {as : List TypeId} (bs : List TypeId) (parts : ∀ p ∈ as, ∀ q, same p q = (tree p).same (tree q)) :
    sameSet same as bs =
      ((as.map tree).length == (bs.map tree).length && TypeTree.allAmong (as.map tree) (bs.map tree)) := by
  have each : (as.all fun a => bs.any (same a)) = TypeTree.allAmong (as.map tree) (bs.map tree) := by
    induction as with
    | nil => rfl
    | cons a as ih =>
      rw [List.all_cons, List.map_cons, TypeTree.allAmong, List.any_map,
        ih fun p mem => parts p (by simp [mem])]
      congr 1
      exact congrArg (bs.any ·) (funext fun q => parts a (by simp) q)
  rw [sameSet, each, List.length_map, List.length_map]

theorem sameShape_tree {same : TypeId → TypeId → Bool} {tree : TypeId → TypeTree} {a b : TypeId}
    (x y : TypeShape) (parts : ∀ p ∈ x.parts, ∀ q, same p q = (tree p).same (tree q))
    (apart : a ≠ b) : sameShape same x y = (x.unfold tree a).same (y.unfold tree b) := by
  cases x <;> cases y <;>
    simp only [sameShape, TypeShape.unfold, TypeTree.same, TypeShape.parts] at parts ⊢
  case array.array c d => exact parts c (by simp) d
  case declared.declared u d as v e bs =>
    rw [parts u (by simp) v, sameList_tree bs fun p mem => parts p (by simp [mem])]
  case error.error => simpa using apart
  case wildcard.wildcard u l u' l' =>
    rw [sameOption_tree u' fun p mem => parts p (by simp_all),
      sameOption_tree l' fun p mem => parts p (by simp_all)]
  case executable.executable f g =>
    rw [sameSignature, sameList_tree g.parameters fun p mem => parts p (by simp [mem]),
      parts f.result (by simp), sameList_tree g.thrown fun p mem => parts p (by simp [mem])]
  case union.union as bs => exact sameSet_tree bs parts
  case intersection.intersection as bs => exact sameSet_tree bs parts

theorem sameTypeStep_tree (h : s.Consistent) {same : TypeId → TypeId → Bool} {a b : TypeId}
    (parts : ∀ p ∈ (s.shape a).parts, ∀ q, same p q = (s.tree p).same (s.tree q)) :
    s.sameTypeStep same a b = (s.tree a).same (s.tree b) := by
  rw [sameTypeStep]
  by_cases equal : a = b
  · simp [equal, TypeTree.same_refl]
  · rw [h.tree_eq a, h.tree_eq b, beq_false_of_ne equal, Bool.false_or]
    exact sameShape_tree _ _ parts equal

theorem sameTypeN_tree (h : s.Consistent) {fuel : Nat} {a b : TypeId}
    (enough : a.index < fuel ∨ 0 < fuel ∧ ¬ s.HasType a) :
    s.sameTypeN fuel a b = (s.tree a).same (s.tree b) := by
  induction fuel generalizing a b with
  | zero => omega
  | succ fuel ih =>
    refine sameTypeStep_tree h fun p part q => ih ?_
    have older := h.part_older part
    rcases enough with enough | ⟨_, absent⟩
    · exact .inl (by omega)
    · rw [has_type_iff, not_exists] at absent
      cases found : s.shape? a with
      | none => simp [shape, found, TypeShape.unknown, TypeShape.parts] at part
      | some shape => exact absurd found (absent shape)

theorem sameType_tree (h : s.Consistent) (a b : TypeId) :
    s.sameType a b = (s.tree a).same (s.tree b) := by
  refine sameTypeN_tree h ?_
  by_cases known : s.HasType a
  · exact .inl (by have bound : a.index < s.types.size := known; simp only [chainBound]; omega)
  · exact .inr ⟨by simp [chainBound], known⟩

theorem Consistent.same_of_tree (h : s.Consistent) {a b : TypeId} (trees : s.tree a = s.tree b) : s.sameType a b := by
  rw [sameType_tree h, trees]
  exact TypeTree.same_refl _

end Store

end Nominal
