import Nominal.Proofs.Store.Immutable
/-!
What goes into the hash of a type is read off its tree, and from trees that are the same the same is read. So two
views that are equal hash alike, whenever each of them is hashed.
-/

namespace Nominal

open Store StoreM

namespace TypeTree

def hash : TypeTree → HashData
  | declared _ e _ => .named .declared e
  | typeVariable e => .named .typeVariable e
  | array a => .array a.hash
  | t => .plain t.kind

theorem hash_of_same {a b : TypeTree} (h : a.same b) : a.hash = b.hash := by
  induction a using hash.induct generalizing b with
  | case1 _ e _ =>
    cases b <;> simp only [same, reduceCtorEq, Bool.and_eq_true, beq_iff_eq] at h
    rw [hash, hash, h.1.1]
  | case2 e =>
    cases b <;> simp only [same, reduceCtorEq, beq_iff_eq] at h
    rw [h]
  | case3 a ih =>
    cases b <;> simp only [same, reduceCtorEq] at h
    rw [hash, hash, ih h]
  | case4 a notDeclared notVariable notArray =>
    cases a <;> cases b <;> simp_all [same, hash, kind]

end TypeTree

namespace StoreM

variable {s : Store} {t : TypeId}

theorem hashDataN_tells (h : s.Sound) (known : s.HasType t) {fuel : Nat} (enough : t.index < fuel) :
    Ensures Advances s (hashDataN fuel (s.shape t)) fun d _ => d = (s.tree t).hash := by
  induction fuel generalizing s t with
  | zero => omega
  | succ fuel ih =>
    obtain ⟨shape, found⟩ := has_type_iff.mp known
    rw [h.tree_of_shape found, shape_of_shape? found]
    cases shape with
    | array c =>
      have fits := h.shapes t _ found
      have part : s.HasType c := fits.part_known known (by simp [TypeShape.parts])
      have older : c.index < t.index := fits.older c (by simp [TypeShape.parts])
      refine (inspect_ensures h c).bind fun seen s₁ move same => ?_
      have later := ih move.sound (move.moves.grows.has_type part) (show c.index < fuel by omega)
      rw [move.tree part, move.shape part, ← same] at later
      exact .map (later.imp fun d _ _ same => by rw [same]; rfl)
    | _ => exact .pure h.stays rfl

theorem hashData_tells (h : s.Sound) (known : s.HasType t) :
    Ensures Advances s (hashData (s.shape t)) fun d _ => d = (s.tree t).hash := by
  have bound : t.index < s.types.size := known
  exact .get (hashDataN_tells h known (by simp only [chainBound]; omega))

end StoreM

namespace TypeView

variable {w : Workspace} {v : TypeView}

/-- What the view has seen, if anything, is the shape of its type. -/
def Faithful (v : TypeView) (w : Workspace) : Prop :=
  ∀ shape, (w.typeMemos.getD v.cell {}).shape = some shape → shape = (w.storeOf v.domain).shape v.id

theorem inspect_advances (d : Domain) (t : TypeId) (h : (w.storeOf d).Sound) :
    (w.storeOf d).Advances ((WorkM.within d (inspect t) w).2.storeOf d) := by
  by_cases inside : d.store < w.stores.size
  · rw [WorkM.within_store inside]
    exact (inspect_ensures h t).1
  · rw [WorkM.within_nowhere inside]
    exact h.stays

theorem Faithful.hashData (faithful : v.Faithful w) (h : (w.storeOf v.domain).Sound)
    (known : (w.storeOf v.domain).HasType v.id) :
    (v.hashData.run w).1 = ((w.storeOf v.domain).tree v.id).hash := by
  cases seen : (w.typeMemos.getD v.cell {}).shape with
  | some shape =>
    have run : v.shape.run w = (shape, w) := shape_seen seen
    have told := (hashData_tells h known).2
    rw [← faithful shape seen] at told
    change (WorkM.within v.domain (StoreM.hashData (v.shape.run w).1) (v.shape.run w).2).1 = _
    rw [run]
    exact told
  | none =>
    let done := WorkM.within v.domain (inspect v.id) w
    let left : Workspace :=
      { done.2 with typeMemos := w.typeMemos.modify v.cell ({ · with shape := some done.1 }) }
    have run : v.shape.run w = (done.1, left) := shape_unseen seen
    have move : (w.storeOf v.domain).Advances (left.storeOf v.domain) := inspect_advances v.domain v.id h
    have shows : done.1 = (left.storeOf v.domain).shape v.id := by
      rw [move.shape known]
      exact inspect_shape _ _
    have told := (hashData_tells move.sound (move.moves.grows.has_type known)).2
    rw [← shows, move.tree known] at told
    change (WorkM.within v.domain (StoreM.hashData (v.shape.run w).1) (v.shape.run w).2).1 = _
    rw [run]
    exact told

end TypeView

/-- Two views of types that are the same hash alike, whenever each of them is hashed. -/
theorem same_types_hash_alike {s : Store} {a b : TypeView} {w w' : Workspace} (reachable : s.Reachable)
    (known : s.HasType a.id) (known' : s.HasType b.id) (same : s.sameType a.id b.id)
    (leads : s.LeadsTo (w.storeOf a.domain)) (faithful : a.Faithful w)
    (leads' : s.LeadsTo (w'.storeOf b.domain)) (faithful' : b.Faithful w') :
    (a.hashData.run w).1 = (b.hashData.run w').1 := by
  have move := leads.grown reachable.sound
  have move' := leads'.grown reachable.sound
  rw [sameType_tree reachable.sound.toConsistent] at same
  calc (a.hashData.run w).1
    _ = ((w.storeOf a.domain).tree a.id).hash := faithful.hashData move.sound (move.grows.has_type known)
    _ = (s.tree a.id).hash := by rw [move.tree known]
    _ = (s.tree b.id).hash := TypeTree.hash_of_same same
    _ = ((w'.storeOf b.domain).tree b.id).hash := by rw [move'.tree known']
    _ = (b.hashData.run w').1 := (faithful'.hashData move'.sound (move'.grows.has_type known')).symm

section sample

namespace Store

@[irreducible] def nestedArrays : Store :=
  ([⟨15⟩, ⟨17⟩, ⟨18⟩, ⟨19⟩].forM fun c => Request.run (.arrayType c)) withUsage |>.2

theorem reachable_nestedArrays : nestedArrays.Reachable := by
  unfold nestedArrays
  have step (s : Store) (c : TypeId) (known : s.HasType c) : s.LeadsTo (Request.run (.arrayType c) s).2 :=
    .ask (.arrayType c) .rest ⟨nofun, by simpa [Request.types] using known⟩
  refine reachable_withUsage.trans ?_
  refine (step _ ⟨15⟩ ?_).trans <| (step _ ⟨17⟩ ?_).trans <| (step _ ⟨18⟩ ?_).trans <| (step _ ⟨19⟩ ?_).trans .rest
  all_goals
    show (_ : Nat) < Array.size _
    decide +kernel

end Store

namespace Workspace

def hashing : Workspace := { stores := #[nestedArrays], typeMemos := #[{}, {}] }

def arrayView (t : TypeId) (cell : Nat) : TypeView := ⟨{ store := 0 }, t, cell⟩

end Workspace

open Workspace in
/-- Arrays of arrays over different usages are the same and hash alike, although neither handle occurs in both. -/
theorem nestedArrays_hash_alike :
    nestedArrays.sameType ⟨20⟩ ⟨21⟩ ∧ ((arrayView ⟨20⟩ 0).hashData.run hashing).1 =
      ((arrayView ⟨21⟩ 1).hashData.run hashing).1 := by
  have same : nestedArrays.sameType ⟨20⟩ ⟨21⟩ := by decide +kernel
  refine ⟨same, same_types_hash_alike (s := nestedArrays) reachable_nestedArrays ?_ ?_ same .rest ?_ .rest ?_⟩
  · show 20 < nestedArrays.types.size
    decide +kernel
  · show 21 < nestedArrays.types.size
    decide +kernel
  all_goals
    intro shape seen
    cases seen

end sample

end Nominal
