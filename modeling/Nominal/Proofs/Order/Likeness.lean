import Nominal.Proofs.Order.Renaming
import Nominal.Proofs.Types.Above
/-!
Trees under a renaming. Trees that say the same of handles that stand for each other are alike in all that trees are
asked: of what kind they are, which of them are the same, and what becomes of them when variables are replaced.
-/

namespace Nominal

namespace Renaming

variable {π : Renaming}

/-- The trees are the same under the renaming. -/
inductive Tree (π : Renaming) : TypeTree → TypeTree → Prop
  | primitive (p : Primitive) : Tree π (.primitive p) (.primitive p)
  | noType (n : NoType) : Tree π (.noType n) (.noType n)
  | null : Tree π .null .null
  | array {c c' : TypeTree} : Tree π c c' → Tree π (.array c) (.array c')
  | declared {o o' : TypeTree} {e e' : ElementId} {ts ts' : List TypeTree} : Tree π o o' → π.element e e' →
      List.Forall₂ (Tree π) ts ts' → Tree π (.declared o e ts) (.declared o' e' ts')
  | error {t u : TypeId} : π.type t u → Tree π (.error t) (.error u)
  | typeVariable {e e' : ElementId} : π.element e e' → Tree π (.typeVariable e) (.typeVariable e')
  | wildcard {u u' l l' : Option TypeTree} : Option.Rel (Tree π) u u' → Option.Rel (Tree π) l l' →
      Tree π (.wildcard u l) (.wildcard u' l')
  | executable (n : Nat) {ps ps' : List TypeTree} {r r' : TypeTree} {ts ts' : List TypeTree} :
      List.Forall₂ (Tree π) ps ps' → Tree π r r' → List.Forall₂ (Tree π) ts ts' →
      Tree π (.executable n ps r ts) (.executable n ps' r' ts')
  | union {ts ts' : List TypeTree} : List.Forall₂ (Tree π) ts ts' → Tree π (.union ts) (.union ts')
  | intersection {ts ts' : List TypeTree} : List.Forall₂ (Tree π) ts ts' → Tree π (.intersection ts) (.intersection ts')

section lists

variable {α : Type} {R : α → α → Prop} {as bs : List α}

theorem isEmpty_alike (alike : List.Forall₂ R as bs) : as.isEmpty = bs.isEmpty := by
  cases alike <;> rfl

theorem map_alike {β : Type} {S : β → β → Prop} {f g : α → β} (alike : List.Forall₂ R as bs)
    (each : ∀ a ∈ as, ∀ b, R a b → S (f a) (g b)) : List.Forall₂ S (as.map f) (bs.map g) := by
  induction alike with
  | nil => exact .nil
  | cons head _ ih =>
    exact .cons (each _ (by simp) _ head) (ih fun a mem b same => each a (List.mem_cons_of_mem _ mem) b same)

theorem any_alike {p q : α → Bool} (alike : List.Forall₂ R as bs) (each : ∀ a b, R a b → p a = q b) :
    as.any p = bs.any q := by
  induction alike with
  | nil => rfl
  | cons head _ ih => rw [List.any_cons, List.any_cons, each _ _ head, ih]

theorem getElem?_alike (alike : List.Forall₂ R as bs) (i : Nat) : Option.Rel R as[i]? bs[i]? := by
  induction alike generalizing i with
  | nil => exact .none
  | cons head _ ih =>
    cases i with
    | zero => exact .some head
    | succ i => exact ih i

theorem beq_alike [BEq α] [LawfulBEq α] {a b a' b' : α} (once : ∀ {a b a' b'}, R a b → R a' b' → (a = a' ↔ b = b'))
    (same : R a b) (same' : R a' b') : (a == a') = (b == b') := by
  rw [Bool.eq_iff_iff, beq_iff_eq, beq_iff_eq]
  exact once same same'

theorem idxOf?_alike [BEq α] [LawfulBEq α] {a b : α} (once : ∀ {a b a' b'}, R a b → R a' b' → (a = a' ↔ b = b'))
    (alike : List.Forall₂ R as bs) (same : R a b) : as.idxOf? a = bs.idxOf? b := by
  induction alike with
  | nil => rfl
  | cons head _ ih =>
    rw [List.idxOf?_cons, List.idxOf?_cons, ih, beq_alike once head same]

theorem mem_alike {a b : α} (once : ∀ {a b a' b'}, R a b → R a' b' → (a = a' ↔ b = b'))
    (alike : List.Forall₂ R as bs) (same : R a b) : a ∈ as ↔ b ∈ bs := by
  induction alike with
  | nil => simp
  | cons head _ ih => rw [List.mem_cons, List.mem_cons, ih, once same head]

theorem zip_alike {cs ds : List α} (alike : List.Forall₂ R as bs) (alike' : List.Forall₂ R cs ds) :
    List.Forall₂ (fun x y => R x.1 y.1 ∧ R x.2 y.2) (as.zip cs) (bs.zip ds) := by
  induction alike generalizing cs ds with
  | nil => exact .nil
  | cons head _ ih =>
    cases alike' with
    | nil => exact .nil
    | cons head' rest' => exact .cons ⟨head, head'⟩ (ih rest')

end lists

section reading

variable {a b a' b' : TypeTree}

theorem Tree.kind (like : π.Tree a a') : a.kind = a'.kind := by
  cases like <;> rfl

theorem Tree.isNone (like : π.Tree a a') : a.isNone = a'.isNone := by
  cases like <;> rfl

theorem Tree.members (like : π.Tree a a') : List.Forall₂ π.Tree a.members a'.members := by
  cases like with
  | intersection bounds => exact bounds
  | _ => exact .cons (by constructor <;> assumption) .nil

mutual

theorem Tree.same (once : π.OneToOne) : (a : TypeTree) → ∀ a' b b', π.Tree a a' → π.Tree b b' → a.same b = a'.same b'
  | .primitive _, _, _, _, .primitive _, like | .noType _, _, _, _, .noType _, like | .null, _, _, _, .null, like => by
    cases like <;> rfl
  | .array c, _, _, _, .array component, like => by
    cases like with
    | array component' => rw [TypeTree.same, TypeTree.same, Tree.same once c _ _ _ component component']
    | _ => rfl
  | .declared o e ts, _, _, _, .declared enclosing element args, like => by
    cases like with
    | declared enclosing' element' args' =>
      rw [TypeTree.same, TypeTree.same, beq_alike once.element element element',
        Tree.same once o _ _ _ enclosing enclosing', Tree.sameAll once ts _ _ _ args args']
    | _ => rfl
  | .error _, _, _, _, .error place, like => by
    cases like with
    | error place' => exact beq_alike once.type place place'
    | _ => rfl
  | .typeVariable _, _, _, _, .typeVariable element, like => by
    cases like with
    | typeVariable element' => exact beq_alike once.element element element'
    | _ => rfl
  | .wildcard u l, _, _, _, .wildcard upper lower, like => by
    cases like with
    | wildcard upper' lower' =>
      rw [TypeTree.same, TypeTree.same, Tree.sameOpt once u _ _ _ upper upper', Tree.sameOpt once l _ _ _ lower lower']
    | _ => rfl
  | .executable n ps r ts, _, _, _, .executable _ parameters result thrown, like => by
    cases like with
    | executable m parameters' result' thrown' =>
      rw [TypeTree.same, TypeTree.same, Tree.sameAll once ps _ _ _ parameters parameters',
        Tree.same once r _ _ _ result result', Tree.sameAll once ts _ _ _ thrown thrown']
    | _ => rfl
  | .union ts, _, _, _, .union alternatives, like => by
    cases like with
    | union alternatives' =>
      rw [TypeTree.same, TypeTree.same, Tree.allAmong once ts _ _ _ alternatives alternatives', alternatives.length_eq,
        alternatives'.length_eq]
    | _ => rfl
  | .intersection ts, _, _, _, .intersection bounds, like => by
    cases like with
    | intersection bounds' =>
      rw [TypeTree.same, TypeTree.same, Tree.allAmong once ts _ _ _ bounds bounds', bounds.length_eq, bounds'.length_eq]
    | _ => rfl

theorem Tree.sameAll (once : π.OneToOne) : (as : List TypeTree) → ∀ as' bs bs', List.Forall₂ π.Tree as as' →
    List.Forall₂ π.Tree bs bs' → TypeTree.sameAll as bs = TypeTree.sameAll as' bs'
  | [], _, _, _, .nil, .nil | [], _, _, _, .nil, .cons _ _ | _ :: _, _, _, _, .cons _ _, .nil => rfl
  | a :: as, _, _, _, .cons head rest, .cons head' rest' => by
    rw [TypeTree.sameAll, TypeTree.sameAll, Tree.same once a _ _ _ head head', Tree.sameAll once as _ _ _ rest rest']

theorem Tree.sameOpt (once : π.OneToOne) : (a : Option TypeTree) → ∀ a' b b', Option.Rel π.Tree a a' →
    Option.Rel π.Tree b b' → TypeTree.sameOpt a b = TypeTree.sameOpt a' b'
  | none, _, _, _, .none, .none | none, _, _, _, .none, .some _ | some _, _, _, _, .some _, .none => rfl
  | some a, _, _, _, .some like, .some like' => Tree.same once a _ _ _ like like'

theorem Tree.allAmong (once : π.OneToOne) : (as : List TypeTree) → ∀ as' bs bs', List.Forall₂ π.Tree as as' →
    List.Forall₂ π.Tree bs bs' → TypeTree.allAmong as bs = TypeTree.allAmong as' bs'
  | [], _, _, _, .nil, _ => rfl
  | a :: as, _, _, _, .cons head rest, alike => by
    rw [TypeTree.allAmong, TypeTree.allAmong, Tree.allAmong once as _ _ _ rest alike,
      any_alike alike fun b b' like => Tree.same once a _ b b' head like]

end

end reading

section substitution

variable {σ τ : ElementId → Option TypeTree}

mutual

theorem Tree.substitute (alike : ∀ e e', π.element e e' → Option.Rel π.Tree (σ e) (τ e')) :
    (t : TypeTree) → ∀ t', π.Tree t t' → π.Tree (t.substitute σ) (t'.substitute τ)
  | .primitive _, _, .primitive p => .primitive p
  | .noType _, _, .noType n => .noType n
  | .null, _, .null => .null
  | .array c, _, .array component => .array (Tree.substitute alike c _ component)
  | .declared _ _ ts, _, .declared enclosing element args =>
    .declared enclosing element (Tree.substituteAll alike ts _ args)
  | .error _, _, .error place => .error place
  | .typeVariable e, _, @Tree.typeVariable _ _ e' element => by
    have found := alike e e' element
    rw [TypeTree.substitute, TypeTree.substitute]
    generalize σ e = x, τ e' = y at found
    cases found with
    | none => exact .typeVariable element
    | some like => exact like
  | .wildcard u l, _, .wildcard upper lower =>
    .wildcard (Tree.substituteOpt alike u _ upper) (Tree.substituteOpt alike l _ lower)
  | .executable _ ps r ts, _, .executable n parameters result thrown =>
    .executable n (Tree.substituteAll alike ps _ parameters) (Tree.substitute alike r _ result)
      (Tree.substituteAll alike ts _ thrown)
  | .union ts, _, .union alternatives => .union (Tree.substituteAll alike ts _ alternatives)
  | .intersection ts, _, .intersection bounds => .intersection (Tree.substituteAll alike ts _ bounds)

theorem Tree.substituteAll (alike : ∀ e e', π.element e e' → Option.Rel π.Tree (σ e) (τ e')) :
    (ts : List TypeTree) → ∀ ts', List.Forall₂ π.Tree ts ts' →
      List.Forall₂ π.Tree (TypeTree.substituteAll σ ts) (TypeTree.substituteAll τ ts')
  | [], _, .nil => .nil
  | t :: ts, _, .cons head rest => .cons (Tree.substitute alike t _ head) (Tree.substituteAll alike ts _ rest)

theorem Tree.substituteOpt (alike : ∀ e e', π.element e e' → Option.Rel π.Tree (σ e) (τ e')) :
    (t : Option TypeTree) → ∀ t', Option.Rel π.Tree t t' →
      Option.Rel π.Tree (TypeTree.substituteOpt σ t) (TypeTree.substituteOpt τ t')
  | none, _, .none => .none
  | some t, _, .some like => .some (Tree.substitute alike t _ like)

end

theorem Tree.binding (once : π.OneToOne) {ps ps' : List ElementId} {ts ts' : List TypeTree}
    (parameters : List.Forall₂ π.element ps ps') (alike : List.Forall₂ π.Tree ts ts') {e e' : ElementId}
    (same : π.element e e') : Option.Rel π.Tree (TypeTree.binding ps ts e) (TypeTree.binding ps' ts' e') := by
  rw [TypeTree.binding, TypeTree.binding, idxOf?_alike once.element parameters same]
  cases ps'.idxOf? e' with
  | none => exact .none
  | some i => exact getElem?_alike alike i

end substitution

section unfolding

variable {shape shape' : TypeShape} {t u : TypeId} {f g : TypeId → TypeTree}

theorem Shape.unfold (like : π.Shape shape shape') (place : π.type t u)
    (parts : ∀ p ∈ shape.parts, ∀ q, π.type p q → π.Tree (f p) (g q)) :
    π.Tree (shape.unfold f t) (shape'.unfold g u) := by
  have each {ts us : List TypeId} (same : List.Forall₂ π.type ts us) (within : ∀ p ∈ ts, p ∈ shape.parts) :
      List.Forall₂ π.Tree (ts.map f) (us.map g) := map_alike same fun p mem => parts p (within p mem)
  have option {t? u? : Option TypeId} (same : Option.Rel π.type t? u?) (within : ∀ p ∈ t?, p ∈ shape.parts) :
      Option.Rel π.Tree (t?.map f) (u?.map g) := by
    cases same with
    | none => exact .none
    | some same => exact .some (parts _ (within _ rfl) _ same)
  cases like with
  | primitive p => exact .primitive p
  | noType n => exact .noType n
  | null => exact .null
  | error name => exact .error place
  | array component => exact .array (parts _ (by simp [TypeShape.parts]) _ component)
  | declared enclosing element args =>
    exact .declared (parts _ (by simp [TypeShape.parts]) _ enclosing) element
      (each args fun p mem => by simp [TypeShape.parts, mem])
  | typeVariable element upper => exact .typeVariable element
  | wildcard upper lower =>
    exact .wildcard (option upper fun p mem => by simp_all [TypeShape.parts])
      (option lower fun p mem => by simp_all [TypeShape.parts])
  | executable sig =>
    rw [TypeShape.unfold, TypeShape.unfold, ← sig.typeVariables.length_eq]
    exact .executable _ (each sig.parameters fun p mem => by simp [TypeShape.parts, mem])
      (parts _ (by simp [TypeShape.parts]) _ sig.result) (each sig.thrown fun p mem => by simp [TypeShape.parts, mem])
  | union alternatives => exact .union (each alternatives fun p mem => mem)
  | intersection bounds => exact .intersection (each bounds fun p mem => mem)

theorem Shape.erased (once : π.OneToOne) (none : π.type .none .none) {top top' : TypeTree} (tops : π.Tree top top')
    (like : π.Shape shape shape') (place : π.type t u) (inner : ∀ p q, π.type p q → π.Tree (f p) (g q)) :
    π.Tree (shape.erased f top t) (shape'.erased g top' u) := by
  have each {ts us : List TypeId} (same : List.Forall₂ π.type ts us) : List.Forall₂ π.Tree (ts.map f) (us.map g) :=
    map_alike same fun p _ => inner p
  cases like with
  | primitive p => exact .primitive p
  | noType n => exact .noType n
  | null => exact .null
  | error name => exact .error place
  | array component => exact .array (inner _ _ component)
  | declared enclosing element args =>
    refine .declared ?_ element .nil
    simp only [once.type enclosing none]
    split
    · exact .noType .none
    · exact inner _ _ enclosing
  | typeVariable element upper => exact inner _ _ upper
  | wildcard upper lower =>
    cases upper with
    | none => exact tops
    | some bound => exact inner _ _ bound
  | executable sig => exact .executable 0 (each sig.parameters) (inner _ _ sig.result) (each sig.thrown)
  | union alternatives =>
    cases alternatives with
    | nil => exact .union .nil
    | cons first _ => exact inner _ _ first
  | intersection bounds =>
    cases bounds with
    | nil => exact .intersection .nil
    | cons first _ => exact inner _ _ first

end unfolding

end Renaming

end Nominal
