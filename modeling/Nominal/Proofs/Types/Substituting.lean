import Nominal.Proofs.Types.Making
import Nominal.Types.Substitution
/-!
Substitution on trees. It makes the tree of a type from the tree of another one, with nothing else read off the
store, so that substituting again makes the same type again.
-/

namespace Nominal

namespace TypeTree

mutual

def substitute (σ : ElementId → Option TypeTree) : TypeTree → TypeTree
  | primitive p => primitive p
  | noType n => noType n
  | null => null
  | array c => array (c.substitute σ)
  | declared enclosing e args => declared enclosing e (substituteAll σ args)
  | error t => error t
  | typeVariable e => (σ e).getD (typeVariable e)
  | wildcard u l => wildcard (substituteOpt σ u) (substituteOpt σ l)
  | executable n ps r ts => executable n (substituteAll σ ps) (r.substitute σ) (substituteAll σ ts)
  | union ts => union (substituteAll σ ts)
  | intersection ts => intersection (substituteAll σ ts)

def substituteAll (σ : ElementId → Option TypeTree) : List TypeTree → List TypeTree
  | [] => []
  | t :: ts => t.substitute σ :: substituteAll σ ts

def substituteOpt (σ : ElementId → Option TypeTree) : Option TypeTree → Option TypeTree
  | .none => .none
  | some t => some (t.substitute σ)

end

variable {σ : ElementId → Option TypeTree}

theorem substituteAll_eq (ts : List TypeTree) : substituteAll σ ts = ts.map (substitute σ) := by
  induction ts with
  | nil => rfl
  | cons t ts ih => rw [substituteAll, ih, List.map_cons]

theorem substituteOpt_eq (t : Option TypeTree) : substituteOpt σ t = t.map (substitute σ) := by
  cases t <;> rfl

mutual

/-- The type parameters whose variables substitution may replace. -/
def mentions : TypeTree → List ElementId
  | primitive _ | noType _ | null | error _ => []
  | typeVariable e => [e]
  | array c => c.mentions
  | declared _ _ args => mentionsAll args
  | wildcard u l => mentionsOpt u ++ mentionsOpt l
  | executable _ ps r ts => mentionsAll ps ++ r.mentions ++ mentionsAll ts
  | union ts | intersection ts => mentionsAll ts

def mentionsAll : List TypeTree → List ElementId
  | [] => []
  | t :: ts => t.mentions ++ mentionsAll ts

def mentionsOpt : Option TypeTree → List ElementId
  | .none => []
  | some t => t.mentions

end

mutual

theorem substitute_fixed : (t : TypeTree) →
    (∀ p ∈ t.mentions, (σ p).getD (typeVariable p) = typeVariable p) → t.substitute σ = t
  | primitive _, _ | noType _, _ | null, _ | error _, _ => rfl
  | typeVariable e, fixed => fixed e (List.mem_singleton_self e)
  | array c, fixed => congrArg array (substitute_fixed c fixed)
  | declared o e as, fixed => congrArg (declared o e) (substituteAll_fixed as fixed)
  | wildcard u l, fixed => by
    rw [substitute, substituteOpt_fixed u fun p mem => fixed p (List.mem_append_left _ mem),
      substituteOpt_fixed l fun p mem => fixed p (List.mem_append_right _ mem)]
  | executable n ps r ts, fixed => by
    simp only [mentions, List.append_assoc, List.forall_mem_append] at fixed
    rw [substitute, substituteAll_fixed ps fixed.1, substitute_fixed r fixed.2.1, substituteAll_fixed ts fixed.2.2]
  | union ts, fixed => congrArg union (substituteAll_fixed ts fixed)
  | intersection ts, fixed => congrArg intersection (substituteAll_fixed ts fixed)

theorem substituteAll_fixed : (ts : List TypeTree) →
    (∀ p ∈ mentionsAll ts, (σ p).getD (typeVariable p) = typeVariable p) → substituteAll σ ts = ts
  | [], _ => rfl
  | t :: ts, fixed => by
    rw [substituteAll, substitute_fixed t fun p mem => fixed p (List.mem_append_left _ mem),
      substituteAll_fixed ts fun p mem => fixed p (List.mem_append_right _ mem)]

theorem substituteOpt_fixed : (t : Option TypeTree) →
    (∀ p ∈ mentionsOpt t, (σ p).getD (typeVariable p) = typeVariable p) → substituteOpt σ t = t
  | .none, _ => rfl
  | some t, fixed => congrArg some (substitute_fixed t fixed)

end

mutual

theorem substitute_comp {τ ρ : ElementId → Option TypeTree} : (t : TypeTree) →
    (∀ p ∈ t.mentions, (ρ p).getD (typeVariable p) = ((τ p).getD (typeVariable p)).substitute σ) →
    t.substitute ρ = (t.substitute τ).substitute σ
  | primitive _, _ | noType _, _ | null, _ | error _, _ => rfl
  | typeVariable e, both => both e (List.mem_singleton_self e)
  | array c, both => congrArg array (substitute_comp c both)
  | declared o e as, both => congrArg (declared o e) (substituteAll_comp as both)
  | wildcard u l, both => by
    simp only [substitute]
    rw [substituteOpt_comp u fun p mem => both p (List.mem_append_left _ mem),
      substituteOpt_comp l fun p mem => both p (List.mem_append_right _ mem)]
  | executable n ps r ts, both => by
    simp only [mentions, List.append_assoc, List.forall_mem_append] at both
    simp only [substitute]
    rw [substituteAll_comp ps both.1, substitute_comp r both.2.1, substituteAll_comp ts both.2.2]
  | union ts, both => congrArg union (substituteAll_comp ts both)
  | intersection ts, both => congrArg intersection (substituteAll_comp ts both)

theorem substituteAll_comp {τ ρ : ElementId → Option TypeTree} : (ts : List TypeTree) →
    (∀ p ∈ mentionsAll ts, (ρ p).getD (typeVariable p) = ((τ p).getD (typeVariable p)).substitute σ) →
    substituteAll ρ ts = substituteAll σ (substituteAll τ ts)
  | [], _ => rfl
  | t :: ts, both => by
    simp only [substituteAll]
    rw [substitute_comp t fun p mem => both p (List.mem_append_left _ mem),
      substituteAll_comp ts fun p mem => both p (List.mem_append_right _ mem)]

theorem substituteOpt_comp {τ ρ : ElementId → Option TypeTree} : (t : Option TypeTree) →
    (∀ p ∈ mentionsOpt t, (ρ p).getD (typeVariable p) = ((τ p).getD (typeVariable p)).substitute σ) →
    substituteOpt ρ t = substituteOpt σ (substituteOpt τ t)
  | .none, _ => rfl
  | some t, both => congrArg some (substitute_comp t both)

end

def binding (parameters : List ElementId) (types : List TypeTree) (e : ElementId) : Option TypeTree :=
  (parameters.idxOf? e).bind (types[·]?)

end TypeTree

open Store

/-- What is put in the place of type parameters is in the store. -/
def Instantiation.Known (i : Instantiation) (s : Store) : Prop := ∀ t ∈ i.types, s.HasType t

namespace Store

variable {s s' : Store} {t : TypeId} {i : Instantiation}

def binding (s : Store) (i : Instantiation) : ElementId → Option TypeTree :=
  TypeTree.binding i.parameters (i.types.map s.tree)

theorem binding_eq (s : Store) (i : Instantiation) (e : ElementId) : s.binding i e = (i.get? e).map s.tree := by
  unfold binding TypeTree.binding Instantiation.get?
  cases i.parameters.idxOf? e with
  | none => rfl
  | some n => simp

theorem Grown.binding (move : s.Grown s') (types : i.Known s) : s'.binding i = s.binding i := by
  rw [Store.binding, move.map_tree types, Store.binding]

end Store

namespace StoreM

variable {s s' : Store} {t : TypeId} {i : Instantiation}

theorem get?_known (known : i.Known s) {e : ElementId} (found : i.get? e = some t) : s.HasType t := by
  obtain ⟨n, _, there⟩ := Option.bind_eq_some_iff.mp found
  exact known t (List.mem_of_getElem? there)

theorem optional_made {f : TypeId → StoreM TypeId} {made : TypeId → TypeTree} {t? : Option TypeId} (h : s.Sound)
    (each : ∀ t ∈ t?, Ensures Advances s (f t) fun u s' => s'.HasType u ∧ s'.tree u = made t) :
    Ensures Advances s (t?.mapM f) fun u? s' => (∀ u ∈ u?, s'.HasType u) ∧ u?.map s'.tree = t?.map made := by
  cases t? with
  | none => exact .pure h.stays ⟨nofun, rfl⟩
  | some t =>
    refine .map ((each t rfl).imp fun u s' _ ⟨known, tree⟩ => ⟨fun v same => ?_, congrArg some tree⟩)
    cases same
    exact known

theorem substituteN_ensures (h : s.Sound) (types : i.Known s) (known : s.HasType t) {fuel : Nat}
    (enough : t.index < fuel) : Ensures Advances s (substituteN i fuel t) fun t' s' =>
      s'.HasType t' ∧ s'.tree t' = (s.tree t).substitute (s.binding i) := by
  -- Parts are older than what is made of them, so fewer levels are enough for each of them.
  induction fuel generalizing s t with
  | zero => omega
  | succ fuel ih =>
    obtain ⟨shape, found⟩ := has_type_iff.mp known
    have fits := h.shapes t shape found
    have part (p : TypeId) (mem : p ∈ shape.parts) := fits.part_known known mem
    have later (p : TypeId) (mem : p ∈ shape.parts) (s₁ : Store) (move : s.Advances s₁) :
        Ensures Advances s₁ (substituteN i fuel p) fun t' s' =>
          s'.HasType t' ∧ s'.tree t' = (s.tree p).substitute (s.binding i) := by
      have older := fits.older p mem
      rw [← move.tree (part p mem), ← move.binding types]
      exact ih move.sound (fun u mem => move.moves.grows.has_type (types u mem))
        (move.moves.grows.has_type (part p mem)) (by omega)
    have all (ps : List TypeId) (mem : ∀ p ∈ ps, p ∈ shape.parts) (s₁ : Store) (move : s.Advances s₁) :
        Ensures Advances s₁ (ps.mapM (substituteN i fuel)) fun ts s' =>
          s'.Made (fun p => (s.tree p).substitute (s.binding i)) ps ts :=
      Made.ensures move.sound fun p mem' s₂ move' => later p (mem p mem') s₂ (Movement.trans move move')
    refine .get ?_
    rw [h.tree_of_shape found, shape_of_shape? found]
    cases shape with
    | typeVariable e upper =>
      rw [TypeShape.unfold, TypeTree.substitute, binding_eq]
      dsimp only
      cases replaced : i.get? e with
      | none => exact .pure h.stays ⟨known, h.tree_of_shape found⟩
      | some u => exact .pure h.stays ⟨get?_known types replaced, rfl⟩
    | declared enclosing e args =>
      refine (all args (fun p mem => by simp [TypeShape.parts, mem]) s h.stays).bind fun args' s₁ move made => ?_
      have outer : s.HasType enclosing := part enclosing (by simp [TypeShape.parts])
      have trees := made.map_tree
      have unfolded : TypeTree.declared (s₁.tree enclosing) e (args'.map s₁.tree) =
          ((TypeShape.declared enclosing e args).unfold s.tree t).substitute (s.binding i) := by
        rw [TypeShape.unfold, TypeTree.substitute, TypeTree.substituteAll_eq, List.map_map, trees, move.tree outer]
        rfl
      split
      · rename_i same
        refine .pure move.sound.stays ⟨move.moves.grows.has_type known, ?_⟩
        rw [← unfolded, same, move.sound.tree_of_shape (move.moves.grows.shape found), TypeShape.unfold]
      · obtain ⟨⟨k, kind, type⟩, usage⟩ := fits.declared enclosing e args rfl
        have composes : s₁.Composes (.declared enclosing e args') := by
          refine ⟨?_, ?_, by simp⟩
          · simpa [TypeShape.parts] using ⟨move.moves.grows.has_type outer, made.known⟩
          · rintro _ _ _ ⟨⟩
            exact ⟨⟨k, move.moves.grows.kind kind, type⟩, usage.imp id move.moves.grows.isUsage⟩
        rw [← unfolded]
        exact newType_tree move.sound composes
    | array c =>
      refine (later c (by simp [TypeShape.parts]) s h.stays).bind fun c' s₁ move told => ?_
      obtain ⟨known₁, tree₁⟩ := told
      rw [TypeShape.unfold, TypeTree.substitute, ← tree₁]
      split
      · rename_i same
        refine .pure move.sound.stays ⟨move.moves.grows.has_type known, ?_⟩
        rw [same, move.sound.tree_of_shape (move.moves.grows.shape found), TypeShape.unfold]
      · exact newType_tree move.sound ⟨by simpa [TypeShape.parts] using known₁, by simp, by simp⟩
    | wildcard upper lower =>
      refine (optional_made h fun u mem => later u (by simp_all [TypeShape.parts]) s h.stays).bind
        fun upper' s₁ move₁ told => ?_
      obtain ⟨known₁, tree₁⟩ := told
      refine (optional_made move₁.sound fun u mem => later u (by simp_all [TypeShape.parts]) s₁ move₁).bind
        fun lower' s₂ move₂ told => ?_
      obtain ⟨known₂, tree₂⟩ := told
      have composes : s₂.Composes (.wildcard upper' lower') := by
        refine ⟨?_, by simp, by simp⟩
        simp only [TypeShape.parts, List.mem_append, Option.mem_toList]
        rintro p (mem | mem)
        · exact move₂.moves.grows.has_type (known₁ p mem)
        · exact known₂ p mem
      refine (newType_tree move₂.sound composes).imp fun t' s₃ _ told => ⟨told.1, ?_⟩
      obtain ⟨known₃, tree₃⟩ := told
      rw [tree₃, TypeShape.unfold, TypeShape.unfold, TypeTree.substitute, TypeTree.substituteOpt_eq,
        TypeTree.substituteOpt_eq, move₂.optional_tree known₁, tree₁, tree₂, Option.map_map, Option.map_map]
      rfl
    | executable sig =>
      refine (all sig.parameters (fun p mem => by simp [TypeShape.parts, mem]) s h.stays).bind
        fun parameters s₁ move₁ made₁ => ?_
      refine (later sig.result (by simp [TypeShape.parts]) s₁ move₁).bind
        fun result s₂ move₂ told => ?_
      obtain ⟨known₂, tree₂⟩ := told
      have from₂ := Movement.trans move₁ move₂
      refine (all sig.thrown (fun p mem => by simp [TypeShape.parts, mem]) s₂ from₂).bind
        fun thrown s₃ move₃ made₃ => ?_
      have from₃ := Movement.trans from₂ move₃
      -- The receiver is substituted in as well, although a tree does not show it.
      refine (later sig.receiver (by simp [TypeShape.parts]) s₃ from₃).bind
        fun receiver s₄ move₄ told => ?_
      obtain ⟨known₄, _⟩ := told
      have move₂₄ := Movement.trans move₃ move₄
      have parameters₄ := Made.advance made₁ (Movement.trans move₂ move₂₄)
      have thrown₄ := Made.advance made₃ move₄
      have result₄ := move₂₄.moves.grows.has_type known₂
      have from₄ := Movement.trans from₃ move₄
      have composes : s₄.Composes (.executable
          { typeVariables := sig.typeVariables, receiver, parameters, result, thrown }) := by
        refine ⟨?_, by simp, by simp⟩
        simp only [TypeShape.parts, List.mem_cons, List.mem_append]
        rintro p ((mem | rfl | mem) | rfl | mem)
        · exact from₄.moves.grows.has_type (part p (by simp [TypeShape.parts, mem]))
        · exact known₄
        · exact parameters₄.known p mem
        · exact result₄
        · exact thrown₄.known p mem
      refine (newType_tree move₄.sound composes).imp fun t' s₅ _ told => ⟨told.1, ?_⟩
      obtain ⟨known₅, tree₅⟩ := told
      rw [tree₅, TypeShape.unfold, TypeShape.unfold, TypeTree.substitute, TypeTree.substituteAll_eq,
        TypeTree.substituteAll_eq, parameters₄.map_tree, thrown₄.map_tree, move₂₄.tree known₂, tree₂, List.map_map,
        List.map_map]
      rfl
    | intersection ts =>
      refine (all ts (fun p mem => by simp [TypeShape.parts, mem]) s h.stays).bind fun ts' s₁ move made => ?_
      have composes : s₁.Composes (.intersection ts') := ⟨made.known, by simp, by simp⟩
      refine (newType_tree move.sound composes).imp fun t' s₂ _ told => ⟨told.1, ?_⟩
      obtain ⟨known₂, tree₂⟩ := told
      rw [tree₂, TypeShape.unfold, made.map_tree, TypeShape.unfold, TypeTree.substitute, TypeTree.substituteAll_eq,
        List.map_map]
      rfl
    | union ts =>
      refine (all ts (fun p mem => by simp [TypeShape.parts, mem]) s h.stays).bind fun ts' s₁ move made => ?_
      have composes : s₁.Composes (.union ts') := ⟨made.known, by simp, by simp⟩
      refine (newType_tree move.sound composes).imp fun t' s₂ _ told => ⟨told.1, ?_⟩
      obtain ⟨known₂, tree₂⟩ := told
      rw [tree₂, TypeShape.unfold, made.map_tree, TypeShape.unfold, TypeTree.substitute, TypeTree.substituteAll_eq,
        List.map_map]
      rfl
    | primitive _ | noType _ | null | error _ => exact .pure h.stays ⟨known, h.tree_of_shape found⟩

theorem substitute_ensures (h : s.Sound) (types : i.Known s) (known : s.HasType t) :
    Ensures Advances s (substitute i t) fun t' s' =>
      s'.HasType t' ∧ s'.tree t' = (s.tree t).substitute (s.binding i) := by
  unfold substitute
  split
  · rename_i none
    have unbound (e : ElementId) : s.binding i e = .none := by
      rw [Store.binding, TypeTree.binding, List.isEmpty_iff.mp none]
      rfl
    refine .pure h.stays ⟨known, (TypeTree.substitute_fixed _ fun p _ => ?_).symm⟩
    rw [unbound, Option.getD_none]
  · refine .get (substituteN_ensures h types known ?_)
    have bound : t.index < s.types.size := known
    unfold chainBound
    omega

end StoreM

end Nominal
