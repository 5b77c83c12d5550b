import Nominal.Proofs.Types.Below
/-!
The limit on levels. Erasure and subtyping follow bounds and parts only so deep, and then take a type for the top type
or for unrelated. An answer that was found without coming to the limit is the answer at any greater depth; and where
a comparison did come to it, no two types are related by that.
-/

namespace Nominal

namespace TypeTree

/-- Erasure comes to an end within so many levels. -/
def ErasedWithin (c : Context) : Nat → TypeTree → Prop
  | 0, _ => False
  | depth + 1, declared enclosing _ _ => enclosing.isNone ∨ enclosing.ErasedWithin c depth
  | depth + 1, array a => a.ErasedWithin c depth
  | depth + 1, typeVariable e => (c.bound e).ErasedWithin c depth
  | depth + 1, wildcard (some b) _ => b.ErasedWithin c depth
  | depth + 1, intersection (b :: _) | depth + 1, union (b :: _) => b.ErasedWithin c depth
  | depth + 1, executable _ ps r ts =>
    (∀ p ∈ ps, p.ErasedWithin c depth) ∧ r.ErasedWithin c depth ∧ ∀ t ∈ ts, t.ErasedWithin c depth
  | _ + 1, _ => True

/-- What is erased without coming to the limit is erased in the same way under any other limit. -/
theorem erase_of_within {c : Context} {depth deeper : Nat} {t : TypeTree} (within : t.ErasedWithin c depth)
    (le : depth ≤ deeper) : t.erase c deeper = t.erase c depth := by
  induction depth generalizing deeper t with
  | zero => exact within.elim
  | succ depth ih =>
    obtain ⟨n, rfl⟩ := Nat.exists_eq_add_of_le' le
    have step {u : TypeTree} (within : u.ErasedWithin c depth) : u.erase c (n + depth) = u.erase c depth :=
      ih within (Nat.le_add_left depth n)
    have all {us : List TypeTree} (within : ∀ u ∈ us, u.ErasedWithin c depth) :
        us.map (erase c (n + depth)) = us.map (erase c depth) :=
      List.map_congr_left fun u mem => step (within u mem)
    rw [← Nat.add_assoc]
    cases t with
    | declared enclosing e args =>
      simp only [erase]
      congr 1
      split
      · rfl
      · exact step (within.resolve_left ‹_›)
    | array a => exact congrArg array (step within)
    | typeVariable e => exact step within
    | wildcard upper lower =>
      cases upper with
      | none => rfl
      | some b => exact step within
    | intersection ts | union ts =>
      cases ts with
      | nil => rfl
      | cons b _ => exact step within
    | executable m ps r ts =>
      simp only [erase]
      rw [all within.1, step within.2.1, all within.2.2]
    | primitive _ | noType _ | null | error _ => rfl

end TypeTree

namespace Store

variable {s : Store} {depth deeper : Nat} {a b : TypeTree} {r : Bool}

/-- Whether a tree is below another one, unless the question comes to the limit. -/
noncomputable def settles? (s : Store) : Nat → TypeTree → TypeTree → Option Bool
  | 0, _, _ => none
  | depth + 1, a, b => if a.same b then some true else s.compare? (s.settles? depth) a b

/-- What is answered without coming to the limit is answered in the same way under any other limit. -/
theorem Sound.below?_of_settles (h : s.Sound) (settled : s.settles? depth a b = some r) (le : depth ≤ deeper) :
    s.below? deeper a b = some r := by
  induction depth generalizing deeper a b r with
  | zero => cases settled
  | succ depth ih =>
    obtain ⟨n, rfl⟩ := Nat.exists_eq_add_of_le' le
    rw [settles?] at settled
    rw [← Nat.add_assoc, below?]
    split
    · rwa [if_pos ‹_›] at settled
    · rw [if_neg ‹_›] at settled
      exact h.stays.toRetains.compare? (fun _ _ _ settled => ih settled (Nat.le_add_left depth n)) settled

def Raises (p q : Option Bool) : Prop := p = some true → q ≠ some false

theorem raises_refl (p : Option Bool) : Raises p p := by
  rintro rfl same
  cases same

theorem Raises.bind {α : Type} {p q : α → Option Bool} (x : Option α) (each : ∀ a, Raises (p a) (q a)) :
    Raises (x.bind p) (x.bind q) := by
  cases x with
  | none => exact raises_refl none
  | some a => exact each a

section lists

variable {α : Type} {p q : α → Option Bool}

theorem allM_raises (each : ∀ a, Raises (p a) (q a)) (as : List α) : Raises (as.allM p) (as.allM q) := by
  induction as with
  | nil => exact raises_refl _
  | cons a as ih =>
    intro holds fails
    rw [List.allM] at holds fails
    obtain ⟨first, answered, holds⟩ := Option.bind_eq_some_iff.mp holds
    obtain ⟨first', answered', fails⟩ := Option.bind_eq_some_iff.mp fails
    cases first with
    | false => cases holds
    | true =>
      cases first' with
      | false => exact each a answered answered'
      | true => exact ih holds fails

theorem anyM_raises (each : ∀ a, Raises (p a) (q a)) (as : List α) : Raises (as.anyM p) (as.anyM q) := by
  induction as with
  | nil => exact raises_refl _
  | cons a as ih =>
    intro holds fails
    rw [List.anyM] at holds fails
    obtain ⟨first, answered, holds⟩ := Option.bind_eq_some_iff.mp holds
    obtain ⟨first', answered', fails⟩ := Option.bind_eq_some_iff.mp fails
    cases first' with
    | true => cases fails
    | false =>
      cases first with
      | true => exact each a answered answered'
      | false => exact ih holds fails

end lists

section comparison

variable {below below' : TypeTree → TypeTree → Option Bool} (raises : ∀ a b, Raises (below a b) (below' a b))

include raises

theorem withinBound_raises (bound u : TypeTree) :
    Raises (s.withinBound below bound u) (s.withinBound below' bound u) := by
  unfold withinBound
  split <;> exact raises _ _

theorem aboveBound_raises (bound u : TypeTree) : Raises (aboveBound below bound u) (aboveBound below' bound u) := by
  unfold aboveBound
  split
  · exact raises _ _
  · exact raises_refl _
  · exact raises _ _

theorem admits?_raises (t u : TypeTree) : Raises (s.admits? below t u) (s.admits? below' t u) := by
  unfold admits?
  split
  · exact withinBound_raises raises _ _
  · exact aboveBound_raises raises _ _
  · exact raises_refl _
  · exact raises_refl _

theorem argumentsFit?_raises (actual wanted : List TypeTree) :
    Raises (s.argumentsFit? below actual wanted) (s.argumentsFit? below' actual wanted) := by
  unfold argumentsFit?
  split
  · exact raises_refl _
  split
  · exact raises_refl _
  · exact allM_raises (fun (u, t) => admits?_raises raises t u) _

theorem usageFits?_raises (wanted : List TypeTree) (view : Option TypeTree) :
    Raises (s.usageFits? below wanted view) (s.usageFits? below' wanted view) := by
  cases view with
  | none => exact raises_refl _
  | some view => exact argumentsFit?_raises raises view.arguments wanted

theorem compare?_raises (a b : TypeTree) : Raises (s.compare? below a b) (s.compare? below' a b) := by
  cases a <;> cases b
  case array.array c d =>
    simp only [compare?]
    split
    · exact raises_refl _
    · exact raises _ _
  case declared.declared o d as o' e wanted => exact .bind _ (usageFits?_raises raises wanted)
  -- each other pair of shapes is settled at once, or by its own list of types, or by a bound
  all_goals first
    | exact raises_refl _
    | exact allM_raises (fun _ => raises _ _) _
    | exact anyM_raises (fun _ => raises _ _) _
    | exact .bind _ fun _ => raises _ _

end comparison

/-- Going on further never takes back that one type is below another one. -/
theorem below?_raises (s : Store) (le : depth ≤ deeper) (a b : TypeTree) :
    Raises (s.below? depth a b) (s.below? deeper a b) := by
  induction depth generalizing deeper a b with
  | zero => exact nofun
  | succ depth ih =>
    obtain ⟨n, rfl⟩ := Nat.exists_eq_add_of_le' le
    rw [below?, ← Nat.add_assoc, below?]
    split
    · exact raises_refl _
    · exact compare?_raises (fun _ _ => ih (Nat.le_add_left depth n) _ _) a b

end Store

end Nominal
