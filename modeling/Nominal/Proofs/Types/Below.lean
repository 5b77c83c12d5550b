import Nominal.Proofs.Types.Circling
import Nominal.Types.Subtyping
/-!
Subtyping on trees. Whether a type is below another one depends on the two trees, on bounds and supertypes that are
known when the answer is found, and on the top type; all of this stays.
-/

namespace Nominal

open Store StoreM

def TypeTree.arguments : TypeTree → List TypeTree
  | declared _ _ args => args
  | _ => []

namespace Store

variable {s s' : Store}

def withinBound (s : Store) (below : TypeTree → TypeTree → Option Bool) (bound : TypeTree) : TypeTree → Option Bool
  | .wildcard (some upper) _ => below upper bound
  | .wildcard none _ => below s.objectTree bound
  | u => below u bound

def aboveBound (below : TypeTree → TypeTree → Option Bool) (bound : TypeTree) : TypeTree → Option Bool
  | .wildcard _ (some lower) => below bound lower
  | .wildcard _ none => some false
  | u => below bound u

def admits? (s : Store) (below : TypeTree → TypeTree → Option Bool) (t u : TypeTree) : Option Bool :=
  match t with
  | .wildcard (some bound) _ => s.withinBound below bound u
  | .wildcard none (some bound) => aboveBound below bound u
  | .wildcard none none => some true
  | _ => some (t.same u)

def argumentsFit? (s : Store) (below : TypeTree → TypeTree → Option Bool) (actual wanted : List TypeTree) :
    Option Bool :=
  if wanted.isEmpty || actual.isEmpty then some true
  else if actual.length ≠ wanted.length then some false
  else (actual.zip wanted).allM fun (u, t) => s.admits? below t u

def usageFits? (s : Store) (below : TypeTree → TypeTree → Option Bool) (wanted : List TypeTree) :
    Option TypeTree → Option Bool
  | none => some false
  | some view => s.argumentsFit? below view.arguments wanted

noncomputable def compare? (s : Store) (again : TypeTree → TypeTree → Option Bool) (a b : TypeTree) : Option Bool :=
  match a, b with
  | .error _, _ | _, .error _ => some true
  | .primitive p, .primitive q => some (p.widensTo q)
  | .null, target => some target.kind.isReference
  | _, .intersection bounds => bounds.allM (again a)
  | .intersection bounds, _ => bounds.anyM (again · b)
  | .union alternatives, _ => alternatives.allM (again · b)
  | .typeVariable e, _ => (s.bound? e).bind (again · b)
  | .array c, .array d => if c.kind.isPrimitive || d.kind.isPrimitive then some (c.kind = d.kind) else again c d
  | .array _, .declared _ e _ => some (s.objectElement? == some e)
  | .declared .., .declared _ e wanted => (s.super? a e).bind (s.usageFits? again wanted)
  | _, _ => some false

noncomputable def below? (s : Store) : Nat → TypeTree → TypeTree → Option Bool
  | 0, _, _ => some false
  | depth + 1, a, b => if a.same b then some true else s.compare? (s.below? depth) a b

section stability

variable {α : Type} {R : α → α → Prop} {p p' : α → Option Bool} {as bs : List α} {b : Bool}

theorem allM_alike (alike : List.Forall₂ R as bs) (each : ∀ a a' v, R a a' → p a = some v → p' a' = some v)
    (known : as.allM p = some b) : bs.allM p' = some b := by
  induction alike with
  | nil => exact known
  | cons head _ ih =>
    rw [List.allM] at known ⊢
    obtain ⟨first, answered, known⟩ := Option.bind_eq_some_iff.mp known
    rw [each _ _ first head answered]
    cases first with
    | true => exact ih known
    | false => exact known

theorem anyM_alike (alike : List.Forall₂ R as bs) (each : ∀ a a' v, R a a' → p a = some v → p' a' = some v)
    (known : as.anyM p = some b) : bs.anyM p' = some b := by
  induction alike with
  | nil => exact known
  | cons head _ ih =>
    rw [List.anyM] at known ⊢
    obtain ⟨first, answered, known⟩ := Option.bind_eq_some_iff.mp known
    rw [each _ _ first head answered]
    cases first with
    | true => exact known
    | false => exact ih known

theorem allM_lasts (lasts : ∀ a b, p a = some b → p' a = some b) (known : as.allM p = some b) : as.allM p' = some b :=
  allM_alike (List.forall₂_same.mpr fun _ _ => rfl) (fun a _ v same => same ▸ lasts a v) known

theorem anyM_lasts (lasts : ∀ a b, p a = some b → p' a = some b) (known : as.anyM p = some b) : as.anyM p' = some b :=
  anyM_alike (List.forall₂_same.mpr fun _ _ => rfl) (fun a _ v same => same ▸ lasts a v) known

variable {below below' : TypeTree → TypeTree → Option Bool}

theorem Retains.admits? (move : s.Retains s') (lasts : ∀ t u b, below t u = some b → below' t u = some b)
    {t u : TypeTree} (known : s.admits? below t u = some b) : s'.admits? below' t u = some b := by
  have within (bound : TypeTree) (known : s.withinBound below bound u = some b) :
      s'.withinBound below' bound u = some b := by
    unfold withinBound at known ⊢
    rw [move.objectTree]
    split at known <;> exact lasts _ _ _ known
  have above (bound : TypeTree) (known : aboveBound below bound u = some b) : aboveBound below' bound u = some b := by
    unfold aboveBound at known ⊢
    split at known
    · exact lasts _ _ _ known
    · exact known
    · exact lasts _ _ _ known
  cases t with
  | wildcard upper lower =>
    cases upper with
    | some bound => exact within bound known
    | none =>
      cases lower with
      | some bound => exact above bound known
      | none => exact known
  | _ => exact known

theorem Retains.argumentsFit? (move : s.Retains s') (lasts : ∀ t u b, below t u = some b → below' t u = some b)
    {actual wanted : List TypeTree} (known : s.argumentsFit? below actual wanted = some b) :
    s'.argumentsFit? below' actual wanted = some b := by
  unfold Store.argumentsFit? at known ⊢
  split
  · rwa [if_pos ‹_›] at known
  · rw [if_neg ‹_›] at known
    split
    · rwa [if_pos ‹_›] at known
    · rw [if_neg ‹_›] at known
      exact allM_lasts (fun _ _ => move.admits? lasts) known

theorem Retains.compare? (move : s.Retains s') (lasts : ∀ t u b, below t u = some b → below' t u = some b)
    {t u : TypeTree} (known : s.compare? below t u = some b) : s'.compare? below' t u = some b := by
  cases t <;> cases u
  case array.array c d =>
    simp only [Store.compare?] at known ⊢
    split
    · rwa [if_pos ‹_›] at known
    · rw [if_neg ‹_›] at known
      exact lasts _ _ _ known
  case array.declared c o e args =>
    simp only [Store.compare?] at known ⊢
    rwa [move.object]
  case declared.declared o d as o' e bs =>
    obtain ⟨view, found, known⟩ := Option.bind_eq_some_iff.mp known
    refine Option.bind_eq_some_iff.mpr ⟨view, move.super? found, ?_⟩
    cases view with
    | none => exact known
    | some view => exact move.argumentsFit? lasts known
  all_goals first
    | exact known
    | exact allM_lasts (fun _ _ => lasts _ _ _) known
    | exact anyM_lasts (fun _ _ => lasts _ _ _) known
    | obtain ⟨bound, found, known⟩ := Option.bind_eq_some_iff.mp known
      exact Option.bind_eq_some_iff.mpr ⟨bound, move.bound? found, lasts _ _ _ known⟩

theorem Retains.below? (move : s.Retains s') {depth : Nat} {t u : TypeTree} (known : s.below? depth t u = some b) :
    s'.below? depth t u = some b := by
  induction depth generalizing t u b with
  | zero => exact known
  | succ depth ih =>
    rw [Store.below?] at known ⊢
    split
    · rwa [if_pos ‹_›] at known
    · rw [if_neg ‹_›] at known
      exact move.compare? (fun _ _ _ => ih) known

end stability

end Store

namespace StoreM

variable {s : Store} {below : Store → TypeTree → TypeTree → Option Bool} {ask : TypeId → TypeId → Searching Bool}

structure Tells (below : Store → TypeTree → TypeTree → Option Bool) (ask : TypeId → TypeId → Searching Bool) :
    Prop where
  told : ∀ {s₀ s : Store} {a b : TypeId}, s₀.Advances s → s₀.HasType a → s₀.HasType b →
    Ensures Advances s (ask a b).run fun r s' => below s' (s₀.tree a) (s₀.tree b) = r
  lasts : ∀ {s s' : Store}, s.Retains s' → ∀ t u b, below s t u = some b → below s' t u = some b

def Lasting {α : Type} (known : Store → α → Option Bool) : Prop :=
  ∀ {s s'}, s.Retains s' → ∀ a b, known s a = some b → known s' a = some b

section questions

variable {α β : Type} {p : α → Searching Bool} {q : Store → β → Option Bool} {f : α → β} {as : List α}

theorem allM_tells (h : s.Sound) (lasts : Lasting q)
    (each : ∀ a ∈ as, ∀ s', s.Advances s' → Ensures Advances s' (p a).run fun r s'' => q s'' (f a) = r) :
    Ensures Advances s (as.allM p).run fun r s' => (as.map f).allM (q s') = r := by
  induction as generalizing s with
  | nil => exact .pure h.stays rfl
  | cons a as ih =>
    rw [List.allM, List.map_cons]
    refine (each a (by simp) s h.stays).option_bind (fun s₁ _ failed => ?_) fun b s₁ move told => ?_
    · rw [List.allM, failed]
      rfl
    · cases b with
      | true =>
        refine (ih move.sound fun a mem s₂ later => each a (by simp [mem]) s₂ (Movement.trans move later)).imp
          fun r s₂ later rest => ?_
        rw [List.allM, lasts later.toRetains _ _ told]
        exact rest
      | false =>
        refine .pure move.sound.stays ?_
        rw [List.allM, told]
        rfl

theorem anyM_tells (h : s.Sound) (lasts : Lasting q)
    (each : ∀ a ∈ as, ∀ s', s.Advances s' → Ensures Advances s' (p a).run fun r s'' => q s'' (f a) = r) :
    Ensures Advances s (as.anyM p).run fun r s' => (as.map f).anyM (q s') = r := by
  induction as generalizing s with
  | nil => exact .pure h.stays rfl
  | cons a as ih =>
    rw [List.anyM, List.map_cons]
    refine (each a (by simp) s h.stays).option_bind (fun s₁ _ failed => ?_) fun b s₁ move told => ?_
    · rw [List.anyM, failed]
      rfl
    · cases b with
      | true =>
        refine .pure move.sound.stays ?_
        rw [List.anyM, told]
        rfl
      | false =>
        refine (ih move.sound fun a mem s₂ later => each a (by simp [mem]) s₂ (Movement.trans move later)).imp
          fun r s₂ later rest => ?_
        rw [List.anyM, lasts later.toRetains _ _ told]
        exact rest

end questions

theorem contains_tells (tells : Tells below ask) (h : s.Sound) {t u : TypeId} (known : s.HasType t)
    (known' : s.HasType u) : Ensures Advances s (contains ask t u).run fun r s' =>
      s'.admits? (below s') (s.tree t) (s.tree u) = r := by
  obtain ⟨shape, found⟩ := has_type_iff.mp known
  have part (p : TypeId) (mem : p ∈ shape.parts) := (h.shapes t shape found).part_known known mem
  obtain ⟨shape', found'⟩ := has_type_iff.mp known'
  have part' (p : TypeId) (mem : p ∈ shape'.parts) := (h.shapes u shape' found').part_known known' mem
  have unfolds := h.tree_of_shape found'
  have same := sameType_tree h.toConsistent t u
  refine .option_get ?_
  rw [h.tree_of_shape found] at same ⊢
  rw [shape_of_shape? found, shape_of_shape? found', same]
  cases shape with
  | wildcard upper lower =>
    cases upper with
    | some bound =>
      have bounded := part bound (by simp [TypeShape.parts])
      cases shape' with
      | wildcard upper' lower' =>
        rw [unfolds]
        cases upper' with
        | some u' => exact tells.told h.stays (part' u' (by simp [TypeShape.parts])) bounded
        | none =>
          refine Ensures.option_step (objectType_tree h) fun top s₁ move ⟨there, tree⟩ => ?_
          refine (tells.told move.sound.stays there (move.moves.grows.has_type bounded)).imp fun r s₂ later told => ?_
          rw [tree, move.tree bounded, ← (Movement.trans move later).objectTree] at told
          exact told
      | _ =>
        refine (tells.told h.stays known' bounded).imp fun r s₁ _ told => ?_
        rw [unfolds] at told ⊢
        exact told
    | none =>
      cases lower with
      | none => exact .pure h.stays rfl
      | some bound =>
        have bounded := part bound (by simp [TypeShape.parts])
        cases shape' with
        | wildcard upper' lower' =>
          rw [unfolds]
          cases lower' with
          | some l' => exact tells.told h.stays bounded (part' l' (by simp [TypeShape.parts]))
          | none => exact .pure h.stays rfl
        | _ =>
          refine (tells.told h.stays bounded known').imp fun r s₁ _ told => ?_
          rw [unfolds] at told ⊢
          exact told
  | _ => exact .pure h.stays rfl

theorem argumentsFit_tells (tells : Tells below ask) (h : s.Sound) {actual wanted : List TypeId}
    (known : ∀ t ∈ actual, s.HasType t) (known' : ∀ t ∈ wanted, s.HasType t) :
    Ensures Advances s (argumentsFit ask actual wanted).run fun r s' =>
      s'.argumentsFit? (below s') (actual.map s.tree) (wanted.map s.tree) = r := by
  unfold argumentsFit argumentsFit?
  simp only [List.isEmpty_map, List.length_map]
  split
  · exact .pure h.stays rfl
  split
  · exact .pure h.stays rfl
  rw [List.zip_map]
  refine allM_tells (q := fun s' pair => s'.admits? (below s') pair.2 pair.1) (f := Prod.map s.tree s.tree) h
    (fun move _ _ => move.admits? (tells.lasts move)) fun pair mem s' move => ?_
  obtain ⟨there, there'⟩ := List.of_mem_zip mem
  have fits := contains_tells tells move.sound (move.moves.grows.has_type (known' pair.2 there'))
    (move.moves.grows.has_type (known pair.1 there))
  rw [move.tree (known' pair.2 there'), move.tree (known pair.1 there)] at fits
  exact fits

theorem arguments_known (h : s.Consistent) {t : TypeId} (known : s.HasType t) :
    (∀ u ∈ (s.shape t).arguments, s.HasType u) ∧ (s.shape t).arguments.map s.tree = (s.tree t).arguments := by
  obtain ⟨shape, found⟩ := has_type_iff.mp known
  have part (p : TypeId) (mem : p ∈ shape.parts) := (h.shapes t shape found).part_known known mem
  rw [h.tree_of_shape found, shape_of_shape? found]
  cases shape with
  | declared o e args => exact ⟨fun u mem => part u (List.mem_cons_of_mem _ mem), rfl⟩
  | _ => exact ⟨nofun, rfl⟩

theorem usageFits_tells (tells : Tells below ask) (h : s.Sound) {t : TypeId} (known : s.HasType t) (e : ElementId)
    {wanted : List TypeId} (known' : ∀ u ∈ wanted, s.HasType u) :
    Ensures Advances s (do
      match ← asSuper? t e with
      | none => return false
      | some view => argumentsFit ask ((← get).shape view).arguments wanted : Searching Bool).run fun r s' =>
        (s'.super? (s.tree t) e).bind (s'.usageFits? (below s') (wanted.map s.tree)) = r := by
  refine (asSuper?_ensures h known e).option_bind (fun s₁ _ ⟨_, endless⟩ => ?_) fun view s₁ move ⟨there, found⟩ => ?_
  · rw [endless]
    rfl
  · cases view with
    | none =>
      refine .pure move.sound.stays ?_
      rw [found]
      rfl
    | some view =>
      obtain ⟨arguments, trees⟩ := arguments_known move.sound.toConsistent (there _ rfl view rfl)
      have wanted₁ (u : TypeId) (mem : u ∈ wanted) : s₁.HasType u := move.moves.grows.has_type (known' u mem)
      refine .option_get ((argumentsFit_tells tells move.sound arguments wanted₁).imp fun r s₂ later fits => ?_)
      rw [later.super? found]
      rw [trees, move.map_tree known'] at fits
      exact fits

theorem isSubtypeStep_tells (tells : Tells below ask) : Tells
    (fun s a b => if a.same b then some true else s.compare? (below s) a b) (isSubtypeStep ask) where
  lasts move t u b known := by
    split
    · rwa [if_pos ‹_›] at known
    · rw [if_neg ‹_›] at known
      exact move.compare? (tells.lasts move) known
  told {s₀ s a b} since known known' := by
    have h := since.sound
    rw [← since.tree known, ← since.tree known']
    replace known := since.moves.grows.has_type known
    replace known' := since.moves.grows.has_type known'
    obtain ⟨x, found⟩ := has_type_iff.mp known
    have part (p : TypeId) (mem : p ∈ x.parts) := (h.shapes a x found).part_known known mem
    obtain ⟨y, found'⟩ := has_type_iff.mp known'
    have part' (p : TypeId) (mem : p ∈ y.parts) := (h.shapes b y found').part_known known' mem
    have left (t : TypeId) (there : s.HasType t) (s' : Store) (move : s.Advances s') :=
      tells.told move there known'
    have all (ts : List TypeId) (there : ∀ t ∈ ts, s.HasType t) :
        Ensures Advances s (ts.allM (ask a)).run fun r s' => (ts.map s.tree).allM (below s' (s.tree a)) = r :=
      allM_tells h (fun move _ _ => tells.lasts move _ _ _) fun t mem s' move => tells.told move known (there t mem)
    have any (ts : List TypeId) (there : ∀ t ∈ ts, s.HasType t) :
        Ensures Advances s (ts.anyM (ask · b)).run fun r s' => (ts.map s.tree).anyM (below s' · (s.tree b)) = r :=
      anyM_tells h (fun move _ _ => tells.lasts move _ _ _) fun t mem => left t (there t mem)
    have each (ts : List TypeId) (there : ∀ t ∈ ts, s.HasType t) :
        Ensures Advances s (ts.allM (ask · b)).run fun r s' => (ts.map s.tree).allM (below s' · (s.tree b)) = r :=
      allM_tells h (fun move _ _ => tells.lasts move _ _ _) fun t mem => left t (there t mem)
    have bound (e : ElementId) (upper : TypeId) (found : s.shape? a = some (.typeVariable e upper)) :
        Ensures Advances s (ask upper b).run fun r s' => (s'.bound? e).bind (below s' · (s.tree b)) = r := by
      have there := ((h.shapes a _ found).typeVariable e upper rfl).2.1
      refine (left upper there s h.stays).imp fun r s' move told => ?_
      rw [move.bound? (h.bound?_eq found)]
      exact told
    have unfolds := h.tree_of_shape found
    have unfolds' := h.tree_of_shape found'
    refine .option_get ?_
    rw [sameType_tree h.toConsistent]
    split
    · exact .pure h.stays rfl
    rw [shape_of_shape? found, shape_of_shape? found']
    rw [unfolds] at all ⊢
    rw [unfolds'] at any each bound ⊢
    cases x <;> cases y
    case array.array c d =>
      have component := part c (by simp [TypeShape.parts])
      have component' := part' d (by simp [TypeShape.parts])
      simp only [TypeShape.unfold, compare?, h.tree_kind]
      split
      · exact .pure h.stays rfl
      · exact tells.told h.stays component component'
    case declared.declared o d as o' e wanted =>
      have fits (u : TypeId) (mem : u ∈ wanted) : s.HasType u := part' u (by simp [TypeShape.parts, mem])
      have search := usageFits_tells tells h known e fits
      rw [unfolds] at search
      exact search
    -- each other pair of shapes is settled at once, or by its own list of types, or by a bound
    all_goals first
      | exact .pure h.stays rfl
      | exact all _ part'
      | exact any _ part
      | exact each _ part
      | exact bound _ _ found

theorem isSubtypeN_tells (depth : Nat) : Tells (fun s => s.below? depth) (isSubtypeN depth) := by
  induction depth with
  | zero => exact ⟨fun since _ _ => .pure since.sound.stays rfl, fun _ _ _ _ known => known⟩
  | succ depth ih => exact isSubtypeStep_tells ih

/-- Whether a type is found to be below another one is what is known of their trees. -/
theorem isSubtype?_ensures (h : s.Sound) {a b : TypeId} (known : s.HasType a) (known' : s.HasType b) :
    Ensures Advances s (isSubtype? a b).run fun r s' => s'.below? boundDepth (s.tree a) (s.tree b) = r :=
  (isSubtypeN_tells boundDepth).told h.stays known known'

theorem isSubtype_ensures (h : s.Sound) {a b : TypeId} (known : s.HasType a) (known' : s.HasType b) :
    Ensures Advances s (isSubtype a b) fun r s' => r = (s'.below? boundDepth (s.tree a) (s.tree b)).getD false :=
  (isSubtype?_ensures h known known').bind fun r _ move told => .pure move.sound.stays (by rw [told])

end StoreM

end Nominal
