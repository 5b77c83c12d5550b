import Nominal.Proofs.Recipe.Collecting
import Nominal.Proofs.Recipe.Durable
import Nominal.Proofs.Recipe.Returning
/-!
Annotations come back: an annotation is described and the recipe is followed to an equal one, however many
members it has and however its arrays are nested. All it takes is that its types come back and that its enum
constants go by names of their own.
-/

namespace Nominal

open Store StoreM Rebuilding

/-- What stands in an annotation value: the value itself, or what stands in an item of it. -/
inductive AnnotationValue.Occurs (part : AnnotationValue) : AnnotationValue → Prop
  | here : Occurs part part
  | item {v : AnnotationValue} {vs : List AnnotationValue} : v ∈ vs → Occurs part v → Occurs part (.array vs)

namespace Store

/-- An enum constant whose name no other field or constant of its type has. -/
def IsNamedConstant (s : Store) (e : ElementId) : Prop :=
  s.kind? e = some .enumConstant ∧ ∀ d, s.SharesName .value d e → d = e

/-- Every type in the value comes back, and every enum constant goes by a name of its own. -/
structure Returnable (s : Store) (own : Recipe) (v : AnnotationValue) : Prop where
  types : ∀ t, (AnnotationValue.type t).Occurs v → s.TypeComesBack own t
  constants : ∀ e, (AnnotationValue.enumConstant e).Occurs v → s.IsNamedConstant e

/-- The value says what the annotation value says. -/
inductive Restates (s : Store) : AnnotationValue → Value → Prop
  | bool (b : Bool) : Restates s (.bool b) (.bool b)
  | int (n : Int64) : Restates s (.int n) (.int n)
  | str (text : String) : Restates s (.str text) (.str text)
  | type {t u : TypeId} : s.tree u = s.tree t → Restates s (.type t) (.type u)
  | enumConstant {e : ElementId} : s.kind? e = some .enumConstant → Restates s (.enumConstant e) (.element e)
  | array {vs : List AnnotationValue} {ws : List Value} :
    List.Forall₂ (Restates s) vs ws → Restates s (.array vs) (.list ws)

def Interchangeable (s : Store) (v w : AnnotationValue) : Prop := s.sameValue v w ∧ s.sameValue w v

end Store

section comes

variable {α β γ δ : Type} {s s' : Store}

def Comes (R : Store → α → Prop) (s : Store) (m : Rebuilding α) : Prop :=
  Ensures Advances s m.run fun r s' => s'.names.Fits → ∃ a, r = .ok a ∧ s'.Henceforth (R · a)

namespace Comes

variable {R : Store → α → Prop} {Q : Store → β → Prop} {m : Rebuilding α}

theorem pure {a : α} (h : s.Sound) (holds : s.Henceforth (R · a)) : Comes R s (Pure.pure a) :=
  Ensures.pure h.stays fun _ => ⟨a, rfl, holds⟩

theorem bind {f : α → Rebuilding β} (first : Comes R s m) (moves : ∀ a s', s'.Sound → Moves s' (f a))
    (next : ∀ a s', s.Advances s' → s'.Henceforth (R · a) → Comes Q s' (f a)) : Comes Q s (m >>= f) := by
  refine Ensures.except_bind first (fun e s' _ ends fits => ?_) fun a s' move ends => ?_
  · obtain ⟨_, contra, _⟩ := ends fits
    cases contra
  by_cases fits : s'.names.Fits
  · obtain ⟨a', same, holds⟩ := ends fits
    cases same
    exact next a s' move holds
  · -- names never get fewer
    exact (moves a s' move.sound).imp fun _ _ later _ fits' => absurd (fits'.of_longer later.moves.grows.names) fits

theorem lift {m : StoreM α} {f : α → Rebuilding β} {P : α → Store → Prop} (first : Ensures Advances s m P)
    (next : ∀ a s', s.Advances s' → P a s' → Comes Q s' (f a)) : Comes Q s (liftM m >>= f) :=
  Ensures.bind first next

theorem map {f : α → β} (first : Comes R s m) (related : ∀ s' a, R s' a → Q s' (f a)) : Comes Q s (f <$> m) := by
  rw [← bind_pure_comp]
  refine first.bind (fun a _ h => .pure h (f a)) fun a s' move holds => ?_
  exact .pure move.sound fun s'' later => related s'' a (holds s'' later)

theorem mapM {f : γ → Rebuilding α} {R : δ → Store → α → Prop} {ds : List δ} {cs : List γ} (h : s.Sound)
    (moves : ∀ c s', s'.Sound → Moves s' (f c))
    (each : s.Henceforth fun s' => List.Forall₂ (fun d c => Comes (R d) s' (f c)) ds cs) :
    Comes (fun s' => List.Forall₂ (R · s') ds) s (cs.mapM f) := by
  induction cs generalizing s ds with
  | nil =>
    cases each.now h
    exact .pure h fun _ _ => .nil
  | cons c cs ih =>
    obtain _ | ⟨head, _⟩ := each.now h
    rename_i d ds _
    rw [List.mapM_cons]
    refine head.bind (fun a s' h' => ?_) fun a s₁ move₁ first => ?_
    · exact Moves.bind (.mapM h' fun c _ => moves c) fun as s'' h'' => .pure h'' _
    have rest : s₁.Henceforth fun s' => List.Forall₂ (fun d c => Comes (R d) s' (f c)) ds cs := fun s' later =>
      (List.forall₂_cons.mp (each s' (Movement.trans move₁ later))).2
    refine (ih move₁.sound rest).bind (fun as s' h' => .pure h' _) fun as s₂ move₂ others => ?_
    exact .pure move₂.sound fun s' later =>
      .cons (first s' (Movement.trans move₂ later)) (others s' later)

end Comes

def Gives (R : Store → α → Prop) (s : Store) (m : OptionT StoreM α) : Prop :=
  Ensures Advances s m.run fun a? s' => ∃ a, a? = some a ∧ s'.Henceforth (R · a)

namespace Gives

variable {R : Store → α → Prop} {Q : Store → β → Prop}

theorem pure {a : α} (h : s.Sound) (holds : s.Henceforth (R · a)) : Gives R s (Pure.pure a) :=
  Ensures.pure h.stays ⟨a, rfl, holds⟩

theorem bind {m : OptionT StoreM α} {f : α → OptionT StoreM β} (first : Gives R s m)
    (next : ∀ a s', s.Advances s' → s'.Henceforth (R · a) → Gives Q s' (f a)) : Gives Q s (m >>= f) := by
  refine Ensures.option_bind first (fun s' _ ends => ?_) fun a s' move ends => ?_
  · obtain ⟨_, contra, _⟩ := ends
    cases contra
  · obtain ⟨a', same, holds⟩ := ends
    cases same
    exact next a s' move holds

theorem of_finds {m : OptionT StoreM α} {a : α} (finds : Finds s m (some a))
    (holds : s.Henceforth (R · a)) : Gives R s m :=
  finds.imp fun _ _ move found => ⟨a, found, holds.later move⟩

theorem mapM {f : γ → OptionT StoreM α} {R : γ → Store → α → Prop} {cs : List γ} (h : s.Sound)
    (each : ∀ c ∈ cs, ∀ s', s.Advances s' → Gives (R c) s' (f c)) :
    Gives (fun s' => List.Forall₂ (R · s') cs) s (cs.mapM f) := by
  induction cs generalizing s with
  | nil => exact .pure h fun _ _ => .nil
  | cons c cs ih =>
    rw [List.mapM_cons]
    refine (each c (by simp) s h.stays).bind fun a s₁ move₁ first => ?_
    refine (ih move₁.sound fun c mem s' later => each c (by simp [mem]) s' (Movement.trans move₁ later)).bind
      fun as s₂ move₂ others => ?_
    exact .pure move₂.sound fun s' later =>
      .cons (first s' (Movement.trans move₂ later)) (others s' later)

end Gives

end comes

namespace Store

variable {s s' : Store} {own d : Recipe} {v : AnnotationValue}

theorem Returnable.item {vs : List AnnotationValue} (returnable : s.Returnable own (.array vs)) (mem : v ∈ vs) :
    s.Returnable own v :=
  ⟨fun t occurs => returnable.types t (.item mem occurs), fun e occurs => returnable.constants e (.item mem occurs)⟩

section describing

abbrev Recalls (s : Store) (own : Recipe) (v : AnnotationValue) (d : Recipe) : Prop :=
  Comes (·.Restates v) s (rebuild (some own) d)

theorem comes_of_meaning {R : Store → Value → Prop} {x : Meaning}
    (means : s.meaning .plain (some own) d = some x)
    (holds : ∀ w s', s.Advances s' → w.Known s' → s'.denote w = some x → s'.Henceforth (R · w)) :
    s.Henceforth (Comes R · (rebuild (some own) d)) := by
  intro s₁ move₁
  refine (rebuild_follows (some own) d s₁ move₁.sound).imp fun r s₂ move₂ ⟨known, settled⟩ fits => ?_
  have move : s.Advances s₂ := Movement.trans move₁ move₂
  have denoted : r.toOption.bind s₂.denote = some x := by
    rw [← move.toRetains.meaning (fun _ _ => id) means]
    exact (settled s₂ move.sound.stays .plain (Lexicon.plain_reads fits)).symm
  cases r with
  | error _ => cases denoted
  | ok w => exact ⟨w, rfl, holds w s₂ move (known w rfl) denoted⟩

theorem TypeComesBack.recalled {t : TypeId} (back : s.TypeComesBack own t) (h : s.Sound) :
    ∃ d, s.typeRecipe own t = some d ∧ s.Henceforth (·.Recalls own (.type t) d) := by
  obtain ⟨known, _⟩ := id back
  obtain ⟨d, recipe, means⟩ := back.means h
  refine ⟨d, recipe, comes_of_meaning means fun w s₁ move known' denoted s₂ later => ?_⟩
  obtain ⟨u, rfl, tree⟩ := s₁.type_of_denote denoted
  refine .type ?_
  rw [later.tree known', tree]
  exact ((Movement.trans move later : s.Advances s₂).tree known).symm

theorem IsNamedConstant.recalled {e : ElementId} (named : s.IsNamedConstant e) (h : s.Sound) :
    ∃ d, s.recipe own e = some d ∧ s.Henceforth (·.Recalls own (.enumConstant e) d) := by
  obtain ⟨constant, name⟩ := named
  obtain ⟨slot, found, kind⟩ := kind?_eq_some_iff.mp constant
  have picked : Selection.value.picks slot.kind := by rw [kind]; rfl
  have owned := Selection.isOwned picked
  have member : slot.kind.isMember := by rw [kind]; rfl
  have first := (Distinguishable.of_name found picked name).foremost h found owned fun executable =>
    absurd executable (Selection.not_executable picked)
  obtain ⟨d, recipe, means⟩ : s.Tells own (s.recipe own) e := first.tells h found owned fun o enclosing =>
    h.type_found (h.owner_type found member enclosing)
  refine ⟨d, recipe, comes_of_meaning means fun w s₁ move _ denoted s₂ later => ?_⟩
  rw [s₁.element_of_denote denoted]
  exact .enumConstant ((Movement.trans move later : s.Advances s₂).moves.grows.kind constant)

mutual

theorem value_gives (h : s.Sound) : (v : AnnotationValue) → s.Returnable own v → ∀ {s' : Store}, s.Advances s' →
    Gives (·.Recalls own v ·) s' (Describing.value (some own) v)
  | .bool _, _, _, move | .int _, _, _, move | .str _, _, _, move =>
    .pure move.sound fun s₁ later => .pure later.sound fun _ _ => by constructor
  | .type t, returnable, s', move => by
    have back := returnable.types t .here
    obtain ⟨d, recipe, recalls⟩ := back.recalled h
    exact .of_finds (recipe ▸ Describing.type_finds move back.1) (recalls.later move)
  | .enumConstant e, returnable, s', move => by
    have named := returnable.constants e .here
    obtain ⟨d, recipe, recalls⟩ : ∃ d, s.recipe own e = some d ∧
        s.Henceforth (·.Recalls own (.enumConstant e) d) := named.recalled h
    obtain ⟨slot, found, _⟩ := kind?_eq_some_iff.mp named.1
    exact .of_finds (recipe ▸ Describing.element_finds move (has_element_iff.mpr ⟨slot, found⟩)) (recalls.later move)
  | .array vs, returnable, s', move => by
    refine (values_gives h vs (fun v => returnable.item) move).bind fun ds s₁ move₁ recalls => ?_
    refine .pure move₁.sound fun s₂ later => ?_
    change Comes (·.Restates (.array vs)) s₂ (rebuild (some own) (.ofItems ds))
    rw [rebuild_ofItems]
    exact (Comes.mapM later.sound (fun d s h => (rebuild_follows (some own) d s h).moves) (recalls.later later)).map
      fun s ws all => .array all

theorem values_gives (h : s.Sound) : (vs : List AnnotationValue) → (∀ v ∈ vs, s.Returnable own v) →
    ∀ {s' : Store}, s.Advances s' → Gives (fun s' => List.Forall₂ (s'.Recalls own) vs) s'
      (Describing.values (some own) vs)
  | [], _, _, move => .pure move.sound fun _ _ => .nil
  | v :: vs, returnable, s', move => by
    refine (value_gives h v (returnable v (by simp)) move).bind fun d s₁ move₁ first => ?_
    have move₁ := Movement.trans move move₁
    refine (values_gives h vs (fun v mem => returnable v (by simp [mem])) move₁).bind fun ds s₂ move₂ others => ?_
    exact .pure move₂.sound fun s₃ later => .cons (first s₃ (Movement.trans move₂ later)) (others s₃ later)

end

end describing

section following

theorem Interchangeable.array {vs ws : List AnnotationValue} (all : List.Forall₂ s.Interchangeable vs ws) :
    s.Interchangeable (.array vs) (.array ws) :=
  ⟨sameValues_of_forall₂ (all.imp fun _ _ => And.left), sameValues_of_forall₂ (all.flip.imp fun _ _ => And.right)⟩

mutual

theorem annotationValue_comes (member : String) : (v : AnnotationValue) → (w : Value) → ∀ {s : Store}, s.Sound →
    s.Henceforth (·.Restates v w) → Comes (·.Interchangeable v ·) s (annotationValue member w)
  | .array vs, w, s, h, restates => by
    obtain ⟨ws, rfl⟩ : ∃ ws, w = .list ws := by
      cases restates.now h
      exact ⟨_, rfl⟩
    rw [annotationValue]
    refine (annotationValues_comes member vs ws h fun s' later => ?_).map fun s' vs' all => .array all
    cases restates s' later
    assumption
  | .type t, w, s, h, restates => by
    obtain ⟨u, rfl⟩ : ∃ u, w = .type u := by
      cases restates.now h
      exact ⟨_, rfl⟩
    refine .pure h fun s' later => ?_
    have trees : s'.tree u = s'.tree t := by
      cases restates s' later
      assumption
    exact ⟨later.sound.same_of_tree trees.symm, later.sound.same_of_tree trees⟩
  | .enumConstant e, w, s, h, restates => by
    obtain ⟨rfl, constant⟩ : w = .element e ∧ s.kind? e = some .enumConstant := by
      cases restates.now h
      exact ⟨rfl, ‹_›⟩
    obtain ⟨slot, found, kind⟩ := kind?_eq_some_iff.mp constant
    rw [annotationValue]
    refine .lift (complete_fits h.stays found) fun r s₁ move fits => ?_
    rw [if_pos (fits.kind.trans kind)]
    exact .pure move.sound fun s' _ => by simp [Interchangeable, sameValue]
  | .bool _, w, s, h, restates | .int _, w, s, h, restates | .str _, w, s, h, restates => by
    cases restates.now h
    exact .pure h fun s' _ => by simp [Interchangeable, sameValue]

theorem annotationValues_comes (member : String) : (vs : List AnnotationValue) → (ws : List Value) → ∀ {s : Store},
    s.Sound → s.Henceforth (fun s => List.Forall₂ s.Restates vs ws) →
    Comes (fun s => List.Forall₂ s.Interchangeable vs) s (annotationValues member ws)
  | [], ws, s, h, restate => by
    cases restate.now h
    exact .pure h fun _ _ => .nil
  | v :: vs, ws, s, h, restate => by
    obtain _ | ⟨_, _⟩ := restate.now h
    rename_i w ws _ _
    have first : s.Henceforth (·.Restates v w) := fun s' later => (List.forall₂_cons.mp (restate s' later)).1
    have rest : s.Henceforth fun s => List.Forall₂ s.Restates vs ws := fun s' later =>
      (List.forall₂_cons.mp (restate s' later)).2
    rw [annotationValues]
    refine (annotationValue_comes member v w h first).bind
      (fun v' s' h' => (annotationValues_moves member ws h').bind fun _ _ h => .pure h _) fun v' s₁ move₁ same => ?_
    refine (annotationValues_comes member vs ws move₁.sound (rest.later move₁)).bind
      (fun vs' s' h' => .pure h' _) fun vs' s₂ move₂ others => ?_
    exact .pure move₂.sound fun s' later => .cons (same s' (Movement.trans move₂ later)) (others s' later)

end

def RestatesMember (s : Store) (m : String × AnnotationValue) (entry : Value × Value) : Prop :=
  entry.1 = .str m.1 ∧ s.Restates m.2 entry.2

theorem annotationMember_comes {m : String × AnnotationValue} {entry : Value × Value} (h : s.Sound)
    (restates : s.Henceforth (·.RestatesMember m entry)) :
    Comes (fun s m' => m.1 = m'.1 ∧ s.Interchangeable m.2 m'.2) s (annotationMember entry) := by
  obtain ⟨k, w⟩ := entry
  obtain ⟨rfl, _⟩ := restates.now h
  refine (annotationValue_comes m.1 m.2 w h fun s' later => (restates s' later).2).bind
    (fun v s' h' => .pure h' _) fun v s₁ move same => ?_
  exact .pure move.sound fun s' later => ⟨rfl, same s' later⟩

theorem entryAt_comes {m : String × AnnotationValue} {e : Recipe × Recipe} (h : s.Sound) (key : e.1 = .str m.1)
    (recalls : s.Henceforth (·.Recalls own m.2 e.2)) : Comes (·.RestatesMember m ·) s (entryAt (some own) e) := by
  obtain ⟨k, d⟩ := e
  cases key
  refine (recalls.now h).bind (fun w s' h' => .pure h' _) fun w s₁ move restates => ?_
  exact .pure move.sound fun s' later => ⟨rfl, restates s' later⟩

def SameUse (s : Store) (a b : AnnotationUse) : Prop := s.sameAnnotationUse a b ∧ s.sameAnnotationUse b a

theorem sameUse_of_members {a : AnnotationUse} {t : TypeId} {ms : List (String × AnnotationValue)} (h : s.Consistent)
    (ordered : a.values.Ordered) (type : s.tree t = s.tree a.type)
    (members : List.Forall₂ (ByName.Entry s.Interchangeable) a.values ms) :
    s.SameUse a { type := t, values := .ofList ms } := by
  obtain ⟨own, values⟩ := a
  have arranged : values = .ofList values := ordered.ofList_eq.symm
  rw [arranged]
  constructor
  · exact sameAnnotationUse_ofList (h.same_of_tree type.symm) (members.imp fun m m' same => ⟨same.1, same.2.1⟩)
  · exact sameAnnotationUse_ofList (h.same_of_tree type)
      (members.flip.imp fun m' m same => ⟨same.1.symm, same.2.2⟩)

theorem annotationOf_comes {a : AnnotationUse} {t : TypeId} {entries : List (Value × Value)} (h : s.Sound)
    (ordered : a.values.Ordered) (type : s.Henceforth fun s => s.tree t = s.tree a.type)
    (restate : s.Henceforth fun s => List.Forall₂ s.RestatesMember a.values entries) :
    Comes (fun s w => ∃ b, w = .annotationUse b ∧ s.SameUse a b) s (annotationOf t (.map entries)) := by
  have members : Comes (fun s => List.Forall₂ (ByName.Entry s.Interchangeable) a.values) s
      (entries.mapM annotationMember) :=
    .mapM h (fun entry s' => annotationMember_moves entry) fun s' later =>
      (restate.each h).imp fun m entry restates => annotationMember_comes later.sound (restates.later later)
  refine members.bind (fun ms s' h' => .pure h' _) fun ms s₁ move all => ?_
  exact .pure move.sound fun s' later => ⟨_, rfl, sameUse_of_members later.sound.toConsistent ordered
    (type s' (Movement.trans move later)) (all s' later)⟩

end following

theorem annotationUse_comes {a : AnnotationUse} {es : List (Recipe × Recipe)} (h : s.Sound)
    (ordered : a.values.Ordered) (type : s.Henceforth (·.Recalls own (.type a.type) d))
    (members : s.Henceforth fun s => List.Forall₂ (fun m e => e.1 = .str m.1 ∧ s.Recalls own m.2 e.2) a.values es) :
    Comes (fun s w => ∃ b, w = .annotationUse b ∧ s.SameUse a b) s
      (rebuild (some own) (own.within .annotationUse [d, .ofEntries es])) := by
  have entries {s' : Store} (move : s.Advances s') : Comes (fun s w => ∃ vs, w = .map vs ∧
      List.Forall₂ s.RestatesMember a.values vs) s' (rebuild (some own) (.ofEntries es)) := by
    rw [rebuild_ofEntries]
    have each : Comes (fun s => List.Forall₂ s.RestatesMember a.values) s' (es.mapM (entryAt (some own))) := by
      refine .mapM move.sound (fun e s h => ?_) fun s₁ later => ?_
      · exact Moves.bind (rebuild_follows (some own) e.1 s h).moves fun k s' h' =>
          Moves.bind (rebuild_follows (some own) e.2 s' h').moves fun v s'' h'' => .pure h'' _
      · refine ((members.later move).each move.sound).imp fun m e both => ?_
        exact entryAt_comes later.sound (both s₁ later).1 fun s₂ later' => (both s₂ (Movement.trans later later')).2
    exact each.map fun s vs all => ⟨vs, rfl, all⟩
  rw [rebuild_within rfl rfl]
  have type' : Comes (fun s t => s.tree t = s.tree a.type) s
      (Rebuilding.type "annotation type" (argument (some own) d)) := by
    refine (type.now h).bind (fun w s' h' => typeOf_moves _ w h') fun w s₁ move₁ restates => ?_
    obtain ⟨u, rfl⟩ : ∃ u, w = .type u := by
      cases restates.now move₁.sound
      exact ⟨_, rfl⟩
    refine .pure move₁.sound fun s' later => ?_
    cases restates s' later
    assumption
  refine type'.bind (fun t s' h' => ?_) fun t s₁ move₁ trees => ?_
  · exact Moves.bind (rebuild_follows (some own) _ s' h').moves fun w s'' h'' => (annotationOf_yields t w h'').moves
  refine (entries move₁).bind (fun w s' h' => (annotationOf_yields t w h').moves) fun w s₂ move₂ restate => ?_
  obtain ⟨vs, rfl, _⟩ := restate.now move₂.sound
  refine annotationOf_comes move₂.sound ordered (trees.later move₂) fun s' later => ?_
  obtain ⟨_, same, all⟩ := restate s' later
  cases same
  exact all

/-- Annotations of which all parts come back are described, and their recipes come to equal ones. -/
theorem annotationUse_gives {a : AnnotationUse} (h : s.Sound) (ordered : a.values.Ordered)
    (type : s.TypeComesBack own a.type) (members : ∀ m ∈ a.values, s.Returnable own m.2) :
    Gives (fun s d => Comes (fun s w => ∃ b, w = .annotationUse b ∧ s.SameUse a b) s (rebuild (some own) d)) s
      (Describing.annotationUse own a) := by
  obtain ⟨known, _⟩ := id type
  obtain ⟨d, recipe, recalls⟩ := type.recalled h
  have first : Gives (·.Recalls own (.type a.type) ·) s (Describing.type own a.type) :=
    .of_finds (recipe ▸ Describing.type_finds h.stays known) recalls
  refine first.bind fun d s₁ move₁ recalls => ?_
  have entries : Gives (fun s => List.Forall₂ (fun m e => e.1 = .str m.1 ∧ s.Recalls own m.2 e.2) a.values) s₁
      (a.values.mapM fun m => do
        let r ← Describing.value (some own) m.2
        return (Recipe.str m.1, r)) :=
    .mapM move₁.sound fun m mem s' later => by
      refine (value_gives h m.2 (members m mem) (Movement.trans move₁ later)).bind fun d s₂ move₂ recalls => ?_
      exact .pure move₂.sound fun s₃ later => ⟨rfl, recalls s₃ later⟩
  refine entries.bind fun es s₂ move₂ all => ?_
  exact .pure move₂.sound fun s₃ later => annotationUse_comes later.sound ordered
    (recalls.later (Movement.trans move₂ later)) (all.later later)

/-- An annotation is described, and whoever follows the recipe comes to an equal annotation, if its types come back
and its enum constants go by names of their own. There may be any number of members, and arrays in arrays. -/
theorem annotation_round_trip (reachable : s.Reachable) {a : AnnotationUse} (ordered : a.values.Ordered)
    (type : s.TypeComesBack own a.type)
    (types : ∀ m ∈ a.values, ∀ t, (AnnotationValue.type t).Occurs m.2 → s.TypeComesBack own t)
    (constants : ∀ m ∈ a.values, ∀ e, (AnnotationValue.enumConstant e).Occurs m.2 → s.IsNamedConstant e) :
    ∃ d s₁, (Describing.annotationUse own a).run s = (some d, s₁) ∧
      ∀ r s₂, (rebuildAnnotationUse (some own) d).run s₁ = (r, s₂) → s₂.names.Fits →
        ∃ b, r = .ok b ∧ s₂.sameAnnotationUse a b ∧ s₂.sameAnnotationUse b a := by
  have gives := annotationUse_gives reachable.sound ordered type fun m mem => ⟨types m mem, constants m mem⟩
  obtain ⟨move, d, same, comes⟩ := gives
  refine ⟨d, _, Prod.ext same rfl, fun r s₂ followed fits => ?_⟩
  have read : Comes (fun s b => s.SameUse a b) ((Describing.annotationUse own a).run s).2
      (rebuildAnnotationUse (some own) d) := by
    refine (comes.now move.sound).bind (fun w s' h' => ?_) fun w s' move ends => ?_
    · cases w <;> first | exact .pure h' _ | exact .throw h' _
    · obtain ⟨b, rfl, _⟩ := ends.now move.sound
      refine .pure move.sound fun s'' later => ?_
      obtain ⟨_, equal, same⟩ := ends s'' later
      cases equal
      exact same
  obtain ⟨move, ends⟩ := Ensures.result read followed
  obtain ⟨b, rfl, same⟩ := ends fits
  exact ⟨b, rfl, same.now move.sound⟩

section sample

def seasonProgram : PackageDecl :=
  { package := commonPackage
    types :=
      [.mk { kind := .classType, name := "Object" } [],
        .mk { kind := .enumType, name := "Season", members := [.enumConstant "SPRING", .enumConstant "AUTUMN"] } [],
        .mk { kind := .annotationType, name := "Sowing" } []] }

@[irreducible] def enteredSeasons : Store := (Request.run (.enterDeclarations seasonProgram) .empty).2

@[irreducible] def seasons : Store :=
  (Request.run (.complete ⟨3⟩) (Request.run (.complete ⟨2⟩) enteredSeasons).2).2

def sowing : AnnotationUse :=
  { type := ⟨14⟩
    values := .ofList [("when", .array [.enumConstant ⟨4⟩, .array [], .type ⟨13⟩]), ("depth", .int 3)] }

theorem reachable_seasons : seasons.Reachable := by
  have entered : enteredSeasons.Reachable := by
    unfold enteredSeasons
    exact .ask (.enterDeclarations seasonProgram) .rest ⟨nofun, nofun⟩
  unfold seasons
  exact (entered.request (.complete ⟨2⟩) (by decide +kernel) rfl).request (.complete ⟨3⟩) (by decide +kernel) rfl

theorem sowing_round_trip : ∃ d s₁ b s₂, (Describing.annotationUse .runtime sowing).run seasons = (some d, s₁) ∧
    (rebuildAnnotationUse (some .runtime) d).run s₁ = (.ok b, s₂) ∧ s₂.sameAnnotationUse sowing b ∧
      s₂.sameAnnotationUse b sowing := by
  have returnable : ∀ m ∈ sowing.values, seasons.Returnable .runtime m.2 := by
    have back : seasons.TypeComesBack .runtime ⟨13⟩ := by decide +kernel
    have named : seasons.IsNamedConstant ⟨4⟩ := by
      have apart : seasons.Distinguishable ⟨4⟩ := by decide +kernel
      exact ⟨by decide +kernel, apart.name .value⟩
    have values : sowing.values = [("depth", .int 3), ("when", .array [.enumConstant ⟨4⟩, .array [], .type ⟨13⟩])] :=
      rfl
    simp only [values, List.forall_mem_cons, List.not_mem_nil, false_implies, implies_true, and_true]
    refine ⟨⟨nofun, nofun⟩, ⟨fun t occurs => ?_, fun e occurs => ?_⟩⟩
    · obtain _ | ⟨mem, occurs⟩ := occurs
      simp only [List.mem_cons, List.not_mem_nil, or_false] at mem
      rcases mem with rfl | rfl | rfl
      · cases occurs
      · obtain _ | ⟨mem, _⟩ := occurs
        cases mem
      · cases occurs
        exact back
    · obtain _ | ⟨mem, occurs⟩ := occurs
      simp only [List.mem_cons, List.not_mem_nil, or_false] at mem
      rcases mem with rfl | rfl | rfl
      · cases occurs
        exact named
      · obtain _ | ⟨mem, _⟩ := occurs
        cases mem
      · cases occurs
  have ordered : sowing.values.Ordered := ByName.ofList_ordered _
  have type : seasons.TypeComesBack .runtime sowing.type := by decide +kernel
  obtain ⟨d, s₁, described, follows⟩ := annotation_round_trip reachable_seasons ordered type
    (fun m mem => (returnable m mem).types) fun m mem => (returnable m mem).constants
  have fits : ((Describing.annotationUse .runtime sowing).run seasons).1.any fun d =>
      ((rebuildAnnotationUse (some .runtime) d).run
        ((Describing.annotationUse .runtime sowing).run seasons).2).2.names.Fits := by decide +kernel
  rw [described] at fits
  obtain ⟨b, rebuilt, same⟩ := follows _ _ rfl (of_decide_eq_true fits)
  exact ⟨d, s₁, b, _, described, leaves rebuilt, same⟩

end sample

end Store

end Nominal
