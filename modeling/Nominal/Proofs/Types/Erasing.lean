import Nominal.Proofs.Types.Tree
import Nominal.Types.Erasure
/-!
Erasure on trees. The bounds of type variables and the top type are read off the store; neither changes
when the store advances, so the erasure of a type is always the same.
-/

namespace Nominal

namespace TypeTree

def isNone : TypeTree → Bool
  | noType .none => true
  | _ => false

/-- What erasure puts in the place of type variables and of what is nested too deeply. -/
structure Context where
  bound : ElementId → TypeTree
  top : TypeTree

def erase (c : Context) : Nat → TypeTree → TypeTree
  | 0, _ => c.top
  | depth + 1, declared enclosing e _ =>
    declared (if enclosing.isNone then none else enclosing.erase c depth) e []
  | depth + 1, array a => array (a.erase c depth)
  | depth + 1, typeVariable e => (c.bound e).erase c depth
  | depth + 1, wildcard (some b) _ => b.erase c depth
  | _ + 1, wildcard .none _ => c.top
  | depth + 1, intersection (b :: _) | depth + 1, union (b :: _) => b.erase c depth
  | depth + 1, executable _ ps r ts =>
    executable 0 (ps.map (erase c depth)) (r.erase c depth) (ts.map (erase c depth))
  | _ + 1, t => t

def Context.Fits (c : Context) : Prop := c.top = none ∨ ∃ e, c.top = declared none e []

variable {c : Context}

theorem erase_top (fits : c.Fits) (depth : Nat) : c.top.erase c depth = c.top := by
  cases depth with
  | zero => rfl
  | succ depth =>
    rcases fits with top | ⟨e, top⟩
    · rw [top]
      rfl
    · rw [top]
      rfl

theorem erase_encloses (fits : c.Fits) {t : TypeTree} (declared : t.kind = .declared) (depth : Nat) :
    (t.erase c depth).kind = .declared ∨ (t.erase c depth).kind = .none := by
  cases depth with
  | zero =>
    rcases fits with top | ⟨e, top⟩
    · exact .inr (by rw [erase, top]; rfl)
    · exact .inl (by rw [erase, top]; rfl)
  | succ depth =>
    cases t with
    | declared enclosing e args => exact .inl rfl
    | primitive p => cases p <;> simp [kind, Primitive.kind] at declared
    | noType n => cases n <;> simp [kind, NoType.kind] at declared
    | _ => simp [kind] at declared

theorem erase_kind_ne_wildcard (fits : c.Fits) (depth : Nat) (t : TypeTree) : (t.erase c depth).kind ≠ .wildcard := by
  have top : c.top.kind ≠ .wildcard := by
    rcases fits with top | ⟨e, top⟩ <;> rw [top] <;> nofun
  induction depth generalizing t with
  | zero => exact top
  | succ depth ih =>
    cases t with
    | primitive p => cases p <;> nofun
    | noType n => cases n <;> nofun
    | typeVariable e => exact ih (c.bound e)
    | wildcard upper lower =>
      cases upper with
      | none => exact top
      | some b => exact ih b
    | intersection ts | union ts =>
      cases ts with
      | nil => nofun
      | cons b _ => exact ih b
    | _ => nofun

theorem eq_none_of_isNone {t : TypeTree} (h : t.isNone) : t = none := by
  cases t with
  | noType n => cases n <;> simp_all [isNone, none]
  | _ => simp [isNone] at h

theorem erase_idem (fits : c.Fits) {depth deeper : Nat} (le : depth ≤ deeper) (t : TypeTree) :
    (t.erase c depth).erase c deeper = t.erase c depth := by
  induction depth generalizing deeper t with
  | zero => exact erase_top fits deeper
  | succ depth ih =>
    obtain ⟨n, rfl⟩ : ∃ n, deeper = n + 1 := ⟨deeper - 1, by omega⟩
    have step (t : TypeTree) := ih (Nat.le_of_succ_le_succ le) t
    have skip (t : TypeTree) := ih (Nat.le_of_succ_le le) t
    cases t with
    | declared enclosing e args =>
      simp only [erase]
      congr 1
      by_cases inner : enclosing.isNone
      · simp only [if_pos inner]
        rfl
      · rw [if_neg inner]
        split
        · rename_i nothing
          exact (eq_none_of_isNone nothing).symm
        · exact step enclosing
    | array a => simp only [erase, step]
    | typeVariable e => simpa only [erase] using skip _
    | wildcard upper lower =>
      cases upper with
      | none => simpa only [erase] using erase_top fits (n + 1)
      | some b => simpa only [erase] using skip b
    | intersection ts =>
      cases ts with
      | nil => rfl
      | cons b _ => simpa only [erase] using skip b
    | union ts =>
      cases ts with
      | nil => rfl
      | cons b _ => simpa only [erase] using skip b
    | executable m ps r ts => simp [erase, step]
    | primitive _ | noType _ | null | error _ => rfl

end TypeTree

def TypeShape.erased (inner : TypeId → TypeTree) (top : TypeTree) (t : TypeId) : TypeShape → TypeTree
  | declared enclosing e _ => .declared (if enclosing = .none then .none else inner enclosing) e []
  | array c => .array (inner c)
  | typeVariable _ b | wildcard (some b) _ | intersection (b :: _) | union (b :: _) => inner b
  | wildcard none _ => top
  | executable sig =>
    .executable 0 (sig.parameters.map inner) (inner sig.result) (sig.thrown.map inner)
  | shape => shape.unfold (fun _ => .none) t

theorem TypeShape.erased_congr {inner inner' : TypeId → TypeTree} {top : TypeTree} {t : TypeId}
    {shape : TypeShape} (parts : ∀ p ∈ shape.parts, inner p = inner' p)
    (upper : ∀ e b, shape = .typeVariable e b → inner b = inner' b) :
    shape.erased inner top t = shape.erased inner' top t := by
  cases shape with
  | typeVariable e b => exact upper e b rfl
  | wildcard u l => cases u <;> simp_all [erased, TypeShape.parts]
  | intersection ts => cases ts <;> simp_all [erased, TypeShape.parts, unfold]
  | union ts => cases ts <;> simp_all [erased, TypeShape.parts, unfold]
  | _ => simp_all [erased, TypeShape.parts, unfold]

namespace Store

def bound (s : Store) (e : ElementId) : TypeTree :=
  match (s.record? e).bind fun r => s.shape? r.asType with
  | some (.typeVariable _ upper) => s.tree upper
  | _ => .none

def objectTree (s : Store) : TypeTree :=
  match s.objectElement? with
  | some e => .declared .none e []
  | none => .none

def context (s : Store) : TypeTree.Context := ⟨s.bound, s.objectTree⟩

def erased (s : Store) (t : TypeTree) : TypeTree := t.erase s.context StoreM.boundDepth

variable {s s' : Store} {t : TypeId}

theorem context_fits (s : Store) : s.context.Fits := by
  unfold context TypeTree.Context.Fits objectTree
  split
  · exact .inr ⟨_, rfl⟩
  · exact .inl rfl

theorem Sound.bound_eq (h : s.Sound) {e : ElementId} {upper : TypeId}
    (found : s.shape? t = some (.typeVariable e upper)) : s.bound e = s.tree upper := by
  obtain ⟨kind, _, unique⟩ := (h.shapes t _ found).typeVariable e upper rfl
  obtain ⟨r, complete⟩ := h.record_of_owned kind (by decide)
  rw [bound, complete, Option.bind_some, unique r complete, found]

theorem Consistent.tree_none (h : s.Consistent) : s.tree .none = .none := by
  have found : s.shape? .none = some (.noType .none) := h.initial 0 _ rfl
  rw [h.tree_of_shape found]
  rfl

theorem Consistent.tree_isNone (h : s.Consistent) : (s.tree t).isNone ↔ t = .none := by
  rw [h.tree_eq]
  constructor
  · intro nothing
    cases found : s.shape? t with
    | none => simp [shape, found, TypeShape.unknown, TypeShape.unfold, TypeTree.isNone] at nothing
    | some shape =>
      rw [shape_of_shape? found] at nothing
      cases shape with
      | noType n =>
        cases n <;> simp [TypeShape.unfold, TypeTree.isNone] at nothing
        exact (h.shapes t _ found).noType .none rfl
      | _ => simp [TypeShape.unfold, TypeTree.isNone] at nothing
  · rintro rfl
    have found : s.shape? .none = some (.noType .none) := h.initial 0 _ rfl
    rw [shape_of_shape? found]
    rfl

theorem Consistent.outer_of_kind (h : s.Consistent)
    (kind : (s.tree t).kind = .declared ∨ (s.tree t).kind = .none) : t = .none ∨ s.IsUsage t := by
  rw [h.tree_kind, typeKind, shape] at kind
  cases found : s.shape? t with
  | none => simp [found, TypeShape.unknown, TypeShape.kind] at kind
  | some shape =>
    rw [found, Option.getD_some] at kind
    cases shape with
    | declared o e args => exact .inr ⟨o, e, args, found⟩
    | noType n =>
      cases n <;> simp [TypeShape.kind, NoType.kind] at kind
      exact .inl ((h.shapes t _ found).noType .none rfl)
    | primitive p => cases p <;> simp [TypeShape.kind, Primitive.kind] at kind
    | _ => simp [TypeShape.kind] at kind

theorem Consistent.kind_of_usage (h : s.Consistent) (usage : s.IsUsage t) : (s.tree t).kind = .declared := by
  obtain ⟨o, e, args, found⟩ := usage
  rw [h.tree_of_shape found]
  rfl

theorem Sound.erase_shape (h : s.Sound) (t : TypeId) (depth : Nat) :
    (s.tree t).erase s.context (depth + 1) =
      (s.shape t).erased (fun p => (s.tree p).erase s.context depth) s.objectTree t := by
  rw [h.tree_eq]
  cases found : s.shape t with
  | declared enclosing e args =>
    simp only [TypeShape.unfold, TypeTree.erase, TypeShape.erased, h.tree_isNone]
  | typeVariable e upper =>
    have found' : s.shape? t = some (.typeVariable e upper) := by
      cases known : s.shape? t with
      | none => simp [shape, known, TypeShape.unknown] at found
      | some shape => rw [← found, shape_of_shape? known]
    simp only [TypeShape.unfold, TypeTree.erase, TypeShape.erased, context, h.bound_eq found']
  | wildcard upper lower => cases upper <;> rfl
  | intersection ts => cases ts <;> rfl
  | union ts => cases ts <;> rfl
  | executable sig =>
    simp [TypeShape.unfold, TypeTree.erase, TypeShape.erased, Function.comp_def]
  | _ => rfl

theorem Retains.objectTree (move : s.Retains s') : s'.objectTree = s.objectTree := by
  rw [Store.objectTree, move.object]
  rfl

theorem Grown.map_tree (move : s.Grown s') {ts : List TypeId} (known : ∀ t ∈ ts, s.HasType t) :
    ts.map s'.tree = ts.map s.tree :=
  List.map_congr_left fun t mem => move.tree (known t mem)

theorem Grown.optional_tree (move : s.Grown s') {t : Option TypeId} (known : ∀ u ∈ t, s.HasType u) :
    t.map s'.tree = t.map s.tree := by
  cases t with
  | none => rfl
  | some t => exact congrArg some (move.tree (known t rfl))

theorem Retains.erase (move : s.Retains s') (known : s.HasType t) (depth : Nat) :
    (s'.tree t).erase s'.context depth = (s.tree t).erase s.context depth := by
  have h := move.start
  induction depth generalizing t with
  | zero => exact move.objectTree
  | succ depth ih =>
    obtain ⟨shape, found⟩ := has_type_iff.mp known
    have fits := h.shapes t shape found
    rw [h.erase_shape, move.sound.erase_shape, move.objectTree, move.shape known,
      shape_of_shape? found]
    exact TypeShape.erased_congr (fun p part => ih (fits.part_known known part)) fun e b same =>
      ih (fits.typeVariable e b same).2.1

theorem newType_tree {shape : TypeShape} (h : s.Sound) (c : s.Composes shape) :
    Ensures Advances s (StoreM.newType shape) fun t s' =>
      s'.HasType t ∧ s'.tree t = shape.unfold s.tree t := by
  refine (h.ensures (newType_ensures h.toConsistent c)).imp fun t s' move found => ?_
  refine ⟨has_type_iff.mpr ⟨_, found⟩, ?_⟩
  rw [move.sound.tree_of_shape found]
  exact TypeShape.unfold_congr fun p part => move.tree (c.parts p part)

theorem IsObject.tree {t : TypeId} (h : s.Consistent) (object : s.IsObject t) :
    s.tree t = s.objectTree := by
  unfold IsObject at object
  unfold objectTree
  cases named : s.objectElement? with
  | none =>
    rw [named] at object
    rw [object, h.tree_none]
  | some e =>
    rw [named] at object
    rw [h.tree_of_shape object, TypeShape.unfold, h.tree_none]
    rfl

theorem objectType_tree (h : s.Sound) :
    Ensures Advances s StoreM.objectType fun t s' => s'.HasType t ∧ s'.tree t = s.objectTree := by
  refine (h.ensures (objectType_ensures h.toConsistent)).imp fun t s' move object => ?_
  exact ⟨move.sound.has_object object, by rw [object.tree move.sound.toConsistent, move.objectTree]⟩

section made

variable {α : Type} {f : α → TypeTree} {as : List α} {ts : List TypeId}

def Made (s : Store) (f : α → TypeTree) (as : List α) (ts : List TypeId) : Prop :=
  List.Forall₂ (fun a t => s.HasType t ∧ s.tree t = f a) as ts

theorem Made.advance (made : s.Made f as ts) (move : s.Advances s') : s'.Made f as ts :=
  made.imp fun _ _ ⟨known, tree⟩ => ⟨move.moves.grows.has_type known, (move.tree known).trans tree⟩

theorem Made.map_tree (made : s.Made f as ts) : ts.map s.tree = as.map f := by
  induction made with
  | nil => rfl
  | cons head _ ih => rw [List.map_cons, List.map_cons, head.2, ih]

theorem Made.known (made : s.Made f as ts) : ∀ t ∈ ts, s.HasType t := by
  induction made with
  | nil => simp
  | cons head _ ih =>
    intro t mem
    rcases List.mem_cons.mp mem with rfl | mem
    · exact head.1
    · exact ih t mem

theorem Made.ensures {m : α → StoreM TypeId} (h : s.Sound)
    (each : ∀ a ∈ as, ∀ s', s.Advances s' → Ensures Advances s' (m a) fun t s'' =>
      s''.HasType t ∧ s''.tree t = f a) :
    Ensures Advances s (as.mapM m) fun ts s' => s'.Made f as ts :=
  .mapM h.stays (fun _ _ _ _ move ⟨known, tree⟩ =>
    ⟨move.moves.grows.has_type known, (move.tree known).trans tree⟩) each

end made

theorem eraseN_ensures (h : s.Sound) (known : s.HasType t) (depth : Nat) :
    Ensures Advances s (StoreM.eraseN depth t) fun t' s' =>
      s'.HasType t' ∧ s'.tree t' = (s.tree t).erase s.context depth := by
  induction depth generalizing s t with
  | zero => exact objectType_tree h
  | succ depth ih =>
    obtain ⟨shape, found⟩ := has_type_iff.mp known
    have fits := h.shapes t shape found
    have later (s' : Store) (move : s.Advances s') (p : TypeId) (part : s.HasType p) :
        Ensures Advances s' (StoreM.eraseN depth p) fun t' s' =>
          s'.HasType t' ∧ s'.tree t' = (s.tree p).erase s.context depth := by
      rw [← move.erase part depth]
      exact ih move.sound (move.moves.grows.has_type part)
    have part (p : TypeId) (mem : p ∈ shape.parts) : s.HasType p := fits.part_known known mem
    rw [h.erase_shape, shape_of_shape? found, StoreM.eraseN]
    refine .get ?_
    rw [shape_of_shape? found]
    cases shape with
    | array a =>
      have known' : s.HasType a := part a (by simp [TypeShape.parts])
      refine (later s h.stays a known').bind fun t₁ s₁ move told => ?_
      obtain ⟨known₁, tree₁⟩ := told
      split
      · rename_i same
        refine .pure move.sound.stays ⟨move.moves.grows.has_type known, ?_⟩
        rw [move.tree known, h.tree_of_shape found, TypeShape.unfold, TypeShape.erased, ← tree₁, same,
          move.tree known']
      · have c : s₁.Composes (.array t₁) := ⟨by simpa [TypeShape.parts] using known₁, by simp, by simp⟩
        refine (newType_tree move.sound c).imp fun t₂ s₂ _ told => ⟨told.1, ?_⟩
        obtain ⟨known₂, tree₂⟩ := told
        rw [tree₂, TypeShape.unfold, tree₁, TypeShape.erased]
    | declared enclosing e args =>
      have known' : s.HasType enclosing := part enclosing (by simp [TypeShape.parts])
      -- What is left to do is the same whether there is an enclosing type, which is erased first, or none.
      have finish (outer : TypeId) (s₁ : Store) (move : s.Advances s₁) (known₁ : s₁.HasType outer)
          (tree₁ : s₁.tree outer = if enclosing = .none then .none
            else (s.tree enclosing).erase s.context depth) :
          Ensures Advances s₁ (if args.isEmpty && outer == enclosing then pure t
            else StoreM.newType (.declared outer e [])) fun t' s' => s'.HasType t' ∧ s'.tree t' =
              (TypeShape.declared enclosing e args).erased
                (fun p => (s.tree p).erase s.context depth) s.objectTree t := by
        split
        · rename_i same
          simp only [Bool.and_eq_true, List.isEmpty_iff, beq_iff_eq] at same
          obtain ⟨rfl, rfl⟩ := same
          refine .pure move.sound.stays ⟨move.moves.grows.has_type known, ?_⟩
          rw [move.tree known, h.tree_of_shape found, TypeShape.unfold, TypeShape.erased, ← tree₁,
            move.tree known']
          rfl
        · have c : s₁.Composes (.declared outer e []) := by
            refine ⟨by simpa [TypeShape.parts] using known₁, ?_, by simp⟩
            rintro _ _ _ ⟨⟩
            obtain ⟨⟨k, kind, isType⟩, usage⟩ := fits.declared enclosing e args rfl
            refine ⟨⟨k, move.moves.grows.kind kind, isType⟩, ?_⟩
            refine move.sound.toConsistent.outer_of_kind ?_
            rw [tree₁]
            split
            · exact .inr rfl
            · rename_i some_
              exact TypeTree.erase_encloses s.context_fits
                (h.kind_of_usage (usage.resolve_left some_)) depth
          refine (newType_tree move.sound c).imp fun t₂ s₂ _ told => ⟨told.1, ?_⟩
          obtain ⟨known₂, tree₂⟩ := told
          rw [tree₂, TypeShape.unfold, tree₁, TypeShape.erased]
          rfl
      dsimp only
      split
      · rename_i nothing
        exact finish .none s h.stays h.has_none (by rw [if_pos nothing, h.tree_none])
      · rename_i some_
        refine (later s h.stays enclosing known').bind fun t₁ s₁ move told => ?_
        obtain ⟨known₁, tree₁⟩ := told
        exact finish t₁ s₁ move known₁ (by rw [if_neg some_, tree₁])
    | typeVariable e upper => exact later s h.stays upper (fits.typeVariable e upper rfl).2.1
    | wildcard upper lower =>
      cases upper with
      | none => exact objectType_tree h
      | some b => exact later s h.stays b (part b (by simp [TypeShape.parts]))
    | intersection ts =>
      cases ts with
      | nil => exact .pure h.stays ⟨known, h.tree_of_shape found⟩
      | cons b _ => exact later s h.stays b (part b (by simp [TypeShape.parts]))
    | union ts =>
      cases ts with
      | nil => exact .pure h.stays ⟨known, h.tree_of_shape found⟩
      | cons b _ => exact later s h.stays b (part b (by simp [TypeShape.parts]))
    | executable sig =>
      have all (ps : List TypeId) (mem : ∀ p ∈ ps, p ∈ (TypeShape.executable sig).parts) (s₁ : Store)
          (move : s.Advances s₁) : Ensures Advances s₁ (ps.mapM (StoreM.eraseN depth)) fun ts s' =>
            s'.Made (fun p => (s.tree p).erase s.context depth) ps ts :=
        Made.ensures move.sound fun p mem' s₂ move' => later s₂ (Movement.trans move move') p (part p (mem p mem'))
      refine (later s h.stays sig.receiver (part _ (by simp [TypeShape.parts]))).bind
        fun receiver s₁ move₁ told => ?_
      obtain ⟨known₁, _⟩ := told
      refine (all sig.parameters (fun p mem => by simp [TypeShape.parts, mem]) s₁ move₁).bind
        fun parameters s₂ move₂ trees₂ => ?_
      have from₂ := Movement.trans move₁ move₂
      refine (later s₂ from₂ sig.result (part _ (by simp [TypeShape.parts]))).bind
        fun result s₃ move₃ told => ?_
      obtain ⟨known₃, tree₃⟩ := told
      have from₃ := Movement.trans from₂ move₃
      refine (all sig.thrown (fun p mem => by simp [TypeShape.parts, mem]) s₃ from₃).bind
        fun thrown s₄ move₄ trees₄ => ?_
      have move₂₄ := Movement.trans move₃ move₄
      have parameters₄ := Made.advance trees₂ move₂₄
      have thrown₄ : s₄.Made (fun p => (s.tree p).erase s.context depth) sig.thrown thrown := trees₄
      have known₄ := move₄.moves.grows.has_type known₃
      have receiver₄ := (Movement.trans move₂ move₂₄).moves.grows.has_type known₁
      have c : s₄.Composes (.executable
          { typeVariables := [], receiver, parameters, result, thrown }) := by
        refine ⟨?_, by simp, by simp⟩
        simp only [TypeShape.parts, List.nil_append, List.cons_append, List.mem_cons, List.mem_append]
        rintro p (rfl | mem | rfl | mem)
        · exact receiver₄
        · exact parameters₄.known p mem
        · exact known₄
        · exact thrown₄.known p mem
      refine (newType_tree move₄.sound c).imp fun t₅ s₅ _ told => ⟨told.1, ?_⟩
      obtain ⟨known₅, tree₅⟩ := told
      rw [tree₅, TypeShape.unfold, TypeShape.erased, parameters₄.map_tree, thrown₄.map_tree,
        move₄.tree known₃, tree₃]
      rfl
    | primitive _ | noType _ | null | error _ => exact .pure h.stays ⟨known, h.tree_of_shape found⟩

theorem erase_ensures (h : s.Sound) (known : s.HasType t) :
    Ensures Advances s (StoreM.erase t) fun t' s' =>
      s'.HasType t' ∧ s'.tree t' = s.erased (s.tree t) :=
  eraseN_ensures h known StoreM.boundDepth

theorem Retains.erased (move : s.Retains s') (known : s.HasType t) :
    s'.erased (s'.tree t) = s.erased (s.tree t) :=
  move.erase known StoreM.boundDepth

end Store

end Nominal
