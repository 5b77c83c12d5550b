import Nominal.Proofs.Order.Likeness
import Nominal.Proofs.Types.Below
/-!
What is known of types under a renaming. Where all that is complete in a store says the same in another one of the
handles that it stands for there, whatever is known of types is known there of the types that they stand for: their
supertypes, what a search for one of them finds, and whether a type is below another one.
-/

namespace Nominal

open Renaming

structure Outlook.Like (π : Renaming) (o o' : Outlook) : Prop where
  seen : List.Forall₂ π.element o.seen o'.seen
  next : List.Forall₂ π.Tree o.next o'.next

def Renaming.Relays (π : Renaming) (p p' : TypeTree → TypeTree → Option Bool) : Prop :=
  ∀ {a a' b b' v}, π.Tree a a' → π.Tree b b' → p a b = some v → p' a' b' = some v

namespace Store

/-- Under the renaming, `r` tells of types all that `s` tells of them. -/
structure Mirrors (π : Renaming) (s r : Store) : Prop where
  sound : s.Sound
  sound' : r.Sound
  once : π.OneToOne
  none : π.type .none .none
  object : r.objectElement? = s.objectElement?
  top : ∀ e, s.objectElement? = some e → π.element e e
  record : ∀ {a b q}, π.element a b → s.record? a = some q → ∃ q', r.record? b = some q' ∧ π.Outline q q'
  shape : ∀ {t u}, π.type t u →
    ∃ shape shape', s.shape? t = some shape ∧ r.shape? u = some shape' ∧ π.Shape shape shape'

variable {π : Renaming} {s r : Store} {a b target target' : ElementId} {t u : TypeId} {q q' : ElementRecord}
  {x x' y y' : TypeTree}

section trees

theorem Mirrors.tree (m : Mirrors π s r) (same : π.type t u) : π.Tree (s.tree t) (r.tree u) := by
  induction place : t.index using Nat.strongRecOn generalizing t u with
  | ind i ih =>
    obtain ⟨shape, shape', found, found', like⟩ := m.shape same
    rw [m.sound.tree_of_shape found, m.sound'.tree_of_shape found']
    refine like.unfold same fun p part q same => ih p.index ?_ same rfl
    exact place ▸ (m.sound.shapes t shape found).older p part

theorem Mirrors.trees (m : Mirrors π s r) {ts us : List TypeId} (same : List.Forall₂ π.type ts us) :
    List.Forall₂ π.Tree (ts.map s.tree) (us.map r.tree) := map_alike same fun _ _ _ => m.tree

theorem Mirrors.objectTree (m : Mirrors π s r) : π.Tree s.objectTree r.objectTree := by
  rw [Store.objectTree, Store.objectTree, m.object]
  cases named : s.objectElement? with
  | none => exact .noType .none
  | some e => exact .declared (.noType .none) (m.top e named) .nil

theorem Mirrors.erase (m : Mirrors π s r) (depth : Nat) (same : π.type t u) :
    π.Tree ((s.tree t).erase s.context depth) ((r.tree u).erase r.context depth) := by
  induction depth generalizing t u with
  | zero => exact m.objectTree
  | succ depth ih =>
    obtain ⟨shape, shape', found, found', like⟩ := m.shape same
    rw [m.sound.erase_shape, m.sound'.erase_shape, shape_of_shape? found, shape_of_shape? found']
    exact like.erased m.once m.none m.objectTree same fun _ _ => ih

end trees

section supertypes

theorem Mirrors.lasting? (m : Mirrors π s r) (same : π.element a b) (known : s.lasting? a = some q) :
    ∃ q', r.lasting? b = some q' ∧ π.Outline q q' := by
  obtain ⟨complete, kind⟩ := lasting?_eq_some_iff.mp known
  obtain ⟨q', complete', like⟩ := m.record same complete
  exact ⟨q', lasting?_eq_some_iff.mpr ⟨complete', by rwa [← like.kind]⟩, like⟩

theorem Mirrors.bound? (m : Mirrors π s r) (same : π.element a b) (known : s.bound? a = some x) :
    ∃ x', r.bound? b = some x' ∧ π.Tree x x' := by
  obtain ⟨q, lasts, known⟩ := Option.bind_eq_some_iff.mp known
  obtain ⟨q', lasts', like⟩ := m.lasting? same lasts
  obtain ⟨shape, shape', found, found', like⟩ := m.shape like.asType
  rw [found] at known
  cases like with
  | typeVariable element upper =>
    cases known
    refine ⟨_, ?_, m.tree upper⟩
    simp only [Store.bound?, lasts', Option.bind_eq_bind, Option.bind_some, found']
  | _ => cases known

def ReadAlike (π : Renaming) (s r : Store) (x x' : TypeTree) : Prop :=
  (∃ t u, π.type t u ∧ s.tree t = x ∧ r.tree u = x') ∨ s.objectTree = x ∧ r.objectTree = x'

theorem Mirrors.like_of_reads (m : Mirrors π s r) (reads : ReadAlike π s r x x') : π.Tree x x' := by
  rcases reads with ⟨t, u, same, rfl, rfl⟩ | ⟨rfl, rfl⟩
  · exact m.tree same
  · exact m.objectTree

theorem Mirrors.erased_of_reads (m : Mirrors π s r) (reads : ReadAlike π s r x x') :
    π.Tree (s.erased x) (r.erased x') := by
  rcases reads with ⟨t, u, same, rfl, rfl⟩ | ⟨rfl, rfl⟩
  · exact m.erase _ same
  · rw [s.erased_objectTree, r.erased_objectTree]
    exact m.objectTree

theorem Mirrors.declaredAbove (m : Mirrors π s r) (like : π.Outline q q') :
    List.Forall₂ (ReadAlike π s r) (s.declaredAbove q) (r.declaredAbove q') := by
  have reads {t u : TypeId} (same : π.type t u) : ReadAlike π s r (s.tree t) (r.tree u) := .inl ⟨t, u, same, rfl, rfl⟩
  have interfaces : List.Forall₂ (ReadAlike π s r) (q.interfaces.map s.tree) (q'.interfaces.map r.tree) :=
    map_alike like.interfaces fun _ _ _ => reads
  simp only [Store.declaredAbove, Ne, m.once.type like.superclass m.none, like.kind, m.objectTree.isNone]
  split
  · exact .cons (reads like.superclass) interfaces
  · split
    · exact .cons (.inr ⟨rfl, rfl⟩) interfaces
    · exact interfaces

theorem Mirrors.seenAbove (m : Mirrors π s r) (like : π.Outline q q') {xs xs' : List TypeTree}
    (args : List.Forall₂ π.Tree xs xs') : List.Forall₂ π.Tree (s.seenAbove q xs) (r.seenAbove q' xs') := by
  have above := m.declaredAbove like
  unfold Store.seenAbove
  rw [isEmpty_alike like.typeParameters, isEmpty_alike args]
  split
  · exact above.imp fun _ _ => m.like_of_reads
  split
  · exact map_alike above fun _ _ _ => m.erased_of_reads
  · refine map_alike above fun x _ x' reads => Tree.substitute (fun e e' => ?_) x x' (m.like_of_reads reads)
    exact Tree.binding m.once like.typeParameters args

theorem Mirrors.above? (m : Mirrors π s r) (like : π.Tree x x') {ys : List TypeTree} (known : s.above? x = some ys) :
    ∃ ys', r.above? x' = some ys' ∧ List.Forall₂ π.Tree ys ys' := by
  cases like with
  | declared enclosing element args =>
    obtain ⟨q, lasts, rfl⟩ := Option.map_eq_some_iff.mp known
    obtain ⟨q', lasts', like⟩ := m.lasting? element lasts
    refine ⟨_, congrArg (Option.map _) lasts', ?_⟩
    dsimp only
    rw [like.kind]
    split
    · exact m.seenAbove like args
    · exact .nil
  | typeVariable element =>
    obtain ⟨bound, found, rfl⟩ := Option.map_eq_some_iff.mp known
    obtain ⟨bound', found', like⟩ := m.bound? element found
    exact ⟨_, congrArg (Option.map _) found', like.members⟩
  | intersection bounds =>
    cases known
    exact ⟨_, rfl, bounds⟩
  | array component =>
    cases known
    refine ⟨_, rfl, ?_⟩
    rw [m.objectTree.isNone]
    split
    · exact .nil
    · exact .cons m.objectTree .nil
  | _ =>
    cases known
    exact ⟨_, rfl, .nil⟩

end supertypes

section searching

variable {o o' : Outlook}

theorem Mirrors.look (m : Mirrors π s r) (targets : π.element target target') (outlook : Outlook.Like π o o')
    (like : π.Tree x x') {v : TypeTree ⊕ Outlook} (known : s.look target o x = some v) :
    ∃ v', r.look target' o' x' = some v' ∧ Sum.LiftRel π.Tree (Outlook.Like π) v v' := by
  -- What is above the type is to be seen next, whatever was seen already.
  have follow {seen seen' : List ElementId} (same : List.Forall₂ π.element seen seen')
      (known : (s.above? x).map (fun ts => Sum.inr ⟨seen, o.next ++ ts⟩) = some v) :
      ∃ v', (r.above? x').map (fun ts => Sum.inr ⟨seen', o'.next ++ ts⟩) = some v' ∧
        Sum.LiftRel π.Tree (Outlook.Like π) v v' := by
    obtain ⟨ts, above, rfl⟩ := Option.map_eq_some_iff.mp known
    obtain ⟨ts', above', alike⟩ := m.above? like above
    exact ⟨_, congrArg (Option.map _) above', .inr ⟨same, List.rel_append outlook.next alike⟩⟩
  cases like with
  | declared enclosing element args =>
    unfold Store.look at known ⊢
    dsimp only at known ⊢
    simp only [← m.once.element element targets, ← mem_alike m.once.element outlook.seen element]
    split
    · rw [if_pos ‹_›] at known
      cases known
      exact ⟨_, rfl, .inl (.declared enclosing element args)⟩
    · rw [if_neg ‹_›] at known
      split
      · rw [if_pos ‹_›] at known
        cases known
        exact ⟨_, rfl, .inr outlook⟩
      · rw [if_neg ‹_›] at known
        exact follow (.cons element outlook.seen) known
  | typeVariable element => exact follow outlook.seen known
  | intersection bounds => exact follow outlook.seen known
  | _ =>
    cases known
    exact ⟨_, rfl, .inr outlook⟩

theorem Mirrors.lookAll (m : Mirrors π s r) (targets : π.element target target') (outlook : Outlook.Like π o o')
    {ts ts' : List TypeTree} (alike : List.Forall₂ π.Tree ts ts') {v : TypeTree ⊕ Outlook}
    (known : s.lookAll target o ts = some v) :
    ∃ v', r.lookAll target' o' ts' = some v' ∧ Sum.LiftRel π.Tree (Outlook.Like π) v v' := by
  induction alike generalizing o o' with
  | nil =>
    cases known
    exact ⟨_, rfl, .inr outlook⟩
  | cons head _ ih =>
    obtain ⟨first, looked, known⟩ := Option.bind_eq_some_iff.mp known
    obtain ⟨first', looked', like⟩ := m.look targets outlook head looked
    rw [Store.lookAll, looked', Option.bind_some]
    cases like with
    | inl found =>
      cases known
      exact ⟨_, rfl, .inl found⟩
    | inr outlook' => exact ih outlook' known

theorem Mirrors.search? (m : Mirrors π s r) (targets : π.element target target') {levels : Nat}
    (outlook : Outlook.Like π o o') {v : Option TypeTree} (known : s.search? target levels o = some v) :
    ∃ v', r.search? target' levels o' = some v' ∧ Option.Rel π.Tree v v' := by
  induction levels generalizing o o' with
  | zero => cases known
  | succ levels ih =>
    rw [search?_succ, lookStep] at known ⊢
    rw [← isEmpty_alike outlook.next]
    split
    · rw [if_pos ‹_›] at known
      cases known
      exact ⟨_, rfl, .none⟩
    · rw [if_neg ‹_›] at known
      obtain ⟨first, looked, known⟩ := Option.bind_eq_some_iff.mp known
      have begins : Outlook.Like π { o with next := [] } { o' with next := [] } := ⟨outlook.seen, .nil⟩
      obtain ⟨first', looked', like⟩ := m.lookAll targets begins outlook.next looked
      rw [looked', Option.bind_some]
      cases like with
      | inl found =>
        cases known
        exact ⟨_, rfl, .some found⟩
      | inr outlook' => exact ih outlook' known

theorem Mirrors.super? (m : Mirrors π s r) (targets : π.element target target') (like : π.Tree x x')
    {v : Option TypeTree} (known : s.super? x target = some v) :
    ∃ v', r.super? x' target' = some v' ∧ Option.Rel π.Tree v v' := by
  obtain ⟨levels, found⟩ := super?_eq_some_iff.mp known
  obtain ⟨v', found', alike⟩ := m.search? targets (⟨.nil, .cons like .nil⟩ : Outlook.Like π ⟨[], [x]⟩ ⟨[], [x']⟩) found
  exact ⟨v', super?_eq_some_iff.mpr ⟨levels, found'⟩, alike⟩

end searching

theorem Mirrors.isObject (m : Mirrors π s r) (same : π.element a b) :
    (r.objectElement? == some b) = (s.objectElement? == some a) := by
  rw [m.object]
  cases named : s.objectElement? with
  | none => rfl
  | some o => exact (beq_alike m.once.element (m.top o named) same).symm

section comparison

variable {below below' : TypeTree → TypeTree → Option Bool} (relays : π.Relays below below') {v : Bool}

include relays

theorem Mirrors.admits? (m : Mirrors π s r) (like : π.Tree x x') (like' : π.Tree y y')
    (known : s.admits? below x y = some v) : r.admits? below' x' y' = some v := by
  have within {bound bound' : TypeTree} (bounds : π.Tree bound bound') (known : s.withinBound below bound y = some v) :
      r.withinBound below' bound' y' = some v := by
    cases like' with
    | wildcard upper lower =>
      cases upper with
      | none => exact relays m.objectTree bounds known
      | some upper => exact relays upper bounds known
    | _ => exact relays (by constructor <;> assumption) bounds known
  have above {bound bound' : TypeTree} (bounds : π.Tree bound bound') (known : aboveBound below bound y = some v) :
      aboveBound below' bound' y' = some v := by
    cases like' with
    | wildcard upper lower =>
      cases lower with
      | none => exact known
      | some lower => exact relays bounds lower known
    | _ => exact relays bounds (by constructor <;> assumption) known
  have same := Tree.same m.once x x' y y' like like'
  cases like with
  | wildcard upper lower =>
    cases upper with
    | some bound => exact within bound known
    | none =>
      cases lower with
      | some bound => exact above bound known
      | none => exact known
  | _ =>
    refine Eq.trans ?_ known
    exact congrArg some same.symm

theorem Mirrors.argumentsFit? (m : Mirrors π s r) {xs xs' ys ys' : List TypeTree} (actual : List.Forall₂ π.Tree xs xs')
    (wanted : List.Forall₂ π.Tree ys ys') (known : s.argumentsFit? below xs ys = some v) :
    r.argumentsFit? below' xs' ys' = some v := by
  unfold Store.argumentsFit? at known ⊢
  rw [← isEmpty_alike wanted, ← isEmpty_alike actual, ← actual.length_eq, ← wanted.length_eq]
  split
  · rwa [if_pos ‹_›] at known
  · rw [if_neg ‹_›] at known
    split
    · rwa [if_pos ‹_›] at known
    · rw [if_neg ‹_›] at known
      exact allM_alike (zip_alike actual wanted) (fun _ _ _ like => m.admits? relays like.2 like.1) known

theorem Mirrors.usageFits? (m : Mirrors π s r) {ys ys' : List TypeTree} (wanted : List.Forall₂ π.Tree ys ys')
    {view view' : Option TypeTree} (views : Option.Rel π.Tree view view')
    (known : s.usageFits? below ys view = some v) : r.usageFits? below' ys' view' = some v := by
  cases views with
  | none => exact known
  | some like =>
    refine m.argumentsFit? relays ?_ wanted known
    cases like with
    | declared _ _ args => exact args
    | _ => exact .nil

theorem Mirrors.compare? (m : Mirrors π s r) (like : π.Tree x x') (like' : π.Tree y y')
    (known : s.compare? below x y = some v) : r.compare? below' x' y' = some v := by
  have search {a b : ElementId} (element : π.element a b) {ys ys' : List TypeTree} (wanted : List.Forall₂ π.Tree ys ys')
      (known : (s.super? x a).bind (s.usageFits? below ys) = some v) :
      (r.super? x' b).bind (r.usageFits? below' ys') = some v := by
    obtain ⟨view, found, known⟩ := Option.bind_eq_some_iff.mp known
    obtain ⟨view', found', views⟩ := m.super? element like found
    exact Option.bind_eq_some_iff.mpr ⟨view', found', m.usageFits? relays wanted views known⟩
  have all {ts ts' : List TypeTree} (alike : List.Forall₂ π.Tree ts ts') (known : ts.allM (below x) = some v) :
      ts'.allM (below' x') = some v := allM_alike alike (fun _ _ _ => relays like) known
  have each {ts ts' : List TypeTree} (alike : List.Forall₂ π.Tree ts ts') (known : ts.allM (below · y) = some v) :
      ts'.allM (below' · y') = some v := allM_alike alike (fun _ _ _ first => relays first like') known
  have any {ts ts' : List TypeTree} (alike : List.Forall₂ π.Tree ts ts') (known : ts.anyM (below · y) = some v) :
      ts'.anyM (below' · y') = some v := anyM_alike alike (fun _ _ _ first => relays first like') known
  have bound {a b : ElementId} (element : π.element a b) (known : (s.bound? a).bind (below · y) = some v) :
      (r.bound? b).bind (below' · y') = some v := by
    obtain ⟨bound, found, known⟩ := Option.bind_eq_some_iff.mp known
    obtain ⟨bound', found', first⟩ := m.bound? element found
    exact Option.bind_eq_some_iff.mpr ⟨bound', found', relays first like' known⟩
  cases like <;> cases like'
  case array.array component _ _ component' =>
    simp only [Store.compare?] at known ⊢
    rw [← component.kind, ← component'.kind]
    split
    · rwa [if_pos ‹_›] at known
    · rw [if_neg ‹_›] at known
      exact relays component component' known
  case array.declared element _ => exact (congrArg some (m.isObject element)).trans known
  case declared.declared element wanted => exact search element wanted known
  -- each other pair of trees is settled at once, or by its own list of trees, or by a bound
  all_goals first
    | exact known
    | exact all (by assumption) known
    | exact any (by assumption) known
    | exact each (by assumption) known
    | exact bound (by assumption) known

omit relays in
theorem Mirrors.below? (m : Mirrors π s r) (depth : Nat) : π.Relays (s.below? depth) (r.below? depth) := by
  induction depth with
  | zero => exact fun _ _ => id
  | succ depth ih =>
    intro x x' y y' v like like' known
    rw [Store.below?] at known ⊢
    rw [← Tree.same m.once x x' y y' like like']
    split
    · rwa [if_pos ‹_›] at known
    · rw [if_neg ‹_›] at known
      exact m.compare? ih like like' known

end comparison

end Store

end Nominal
