import Nominal.Proofs.Store.Keeper
/-!
Two computations that do the same, wherever they start from a store of which something holds that lasts. Each
movement of the store is along one relation, so what holds at the start holds all the way.
-/

namespace Nominal

open Store

/-- What may be relied on all along, since no movement along `R` changes it. -/
structure Given (R : Store → Store → Prop) where
  holds : Store → Prop
  lasts : ∀ {s s'}, R s s' → holds s → holds s'

section coincide

variable {α β : Type} {R : Store → Store → Prop} {g : Given R}

def Given.and (g h : Given R) : Given R where
  holds s := g.holds s ∧ h.holds s
  lasts move both := ⟨g.lasts move both.1, h.lasts move both.2⟩

def Coincide (g : Given R) (x y : StoreM α) : Prop := ∀ s, g.holds s → x s = y s ∧ R s (x s).2

def CoincideIn (g : Given R) (x y : ResolveM α) : Prop := ∀ sc, Coincide g (x sc) (y sc)

namespace Coincide

variable {x y : StoreM α}

theorem same (moves : ∀ s, g.holds s → R s (x s).2) : Coincide g x x := fun s holds => ⟨rfl, moves s holds⟩

theorem get {f f' : Store → StoreM β} (next : ∀ s, Coincide g (f s) (f' s)) : Coincide g (get >>= f) (get >>= f') :=
  fun s => next s s

theorem getOf {f f' : Store → StoreM β} (next : ∀ s, g.holds s → Coincide g (f s) (f' s)) :
    Coincide g (MonadState.get >>= f) (MonadState.get >>= f') := fun s holds => next s holds s holds

theorem ite {x' y' : StoreM α} {c : Prop} [Decidable c] (yes : Coincide g x y) (no : Coincide g x' y') :
    Coincide g (if c then x else x') (if c then y else y') := by
  split
  · exact yes
  · exact no

theorem mono {h : Given R} (coincide : Coincide h x y) (stronger : ∀ s, g.holds s → h.holds s) : Coincide g x y :=
  fun s holds => coincide s (stronger s holds)

variable [Calm R]

theorem keeping (h : Keeping R x) : Coincide g x x := .same fun s _ => h s

theorem pure (a : α) : Coincide g (Pure.pure a) (Pure.pure a) := .keeping (Keeper.pure a)

theorem bind {f f' : α → StoreM β} (first : Coincide g x y) (next : ∀ a, Coincide g (f a) (f' a)) :
    Coincide g (x >>= f) (y >>= f') := by
  intro s holds
  obtain ⟨same, move⟩ := first s holds
  obtain ⟨same', move'⟩ := next (x s).1 (x s).2 (g.lasts move holds)
  refine ⟨?_, Calm.trans move move'⟩
  change f (x s).1 (x s).2 = f' (y s).1 (y s).2
  rw [same', same]

theorem bindOf {f f' : α → StoreM β} {P : α → Prop} (first : Coincide g x y) (learns : ∀ s, g.holds s → P (x s).1)
    (next : ∀ a, P a → Coincide g (f a) (f' a)) : Coincide g (x >>= f) (y >>= f') := by
  intro s holds
  obtain ⟨same, move⟩ := first s holds
  obtain ⟨same', move'⟩ := next _ (learns s holds) (x s).2 (g.lasts move holds)
  refine ⟨?_, Calm.trans move move'⟩
  change f (x s).1 (x s).2 = f' (y s).1 (y s).2
  rw [same', same]

theorem mapM {f f' : α → StoreM β} {as : List α} (each : ∀ a ∈ as, Coincide g (f a) (f' a)) :
    Coincide g (as.mapM f) (as.mapM f') := by
  induction as with
  | nil => exact .pure []
  | cons a as ih =>
    rw [List.mapM_cons, List.mapM_cons]
    have rest := ih fun b mem => each b (List.mem_cons_of_mem a mem)
    exact (each a List.mem_cons_self).bind fun _ => rest.bind fun _ => .pure _

theorem option_mapM {f f' : α → StoreM β} {a? : Option α} (each : ∀ a ∈ a?, Coincide g (f a) (f' a)) :
    Coincide g (a?.mapM f) (a?.mapM f') := by
  cases a? with
  | none => exact .pure none
  | some a => exact (each a rfl).bind fun b => .pure (some b)

end Coincide

namespace CoincideIn

variable {x y : ResolveM α}

theorem scope {f f' : Scope → ResolveM β} (next : ∀ sc, CoincideIn g (f sc) (f' sc)) :
    CoincideIn g (get >>= f) (get >>= f') := fun sc => next sc sc

theorem store {f f' : Store → ResolveM β} (next : ∀ s, CoincideIn g (f s) (f' s)) :
    CoincideIn g (ResolveM.store >>= f) (ResolveM.store >>= f') := fun sc s => next s sc s

theorem ite {x' y' : ResolveM α} {c : Prop} [Decidable c] (yes : CoincideIn g x y) (no : CoincideIn g x' y') :
    CoincideIn g (if c then x else x') (if c then y else y') := by
  split
  · exact yes
  · exact no

variable [Calm R]

theorem keeping (h : Keeping R x) : CoincideIn g x x := fun sc => .keeping (h sc)

theorem pure (a : α) : CoincideIn g (Pure.pure a) (Pure.pure a) := .keeping (Keeper.pure a)

theorem lift {x y : StoreM α} (h : Coincide g x y) : CoincideIn g (liftM x) (liftM y) := by
  intro sc
  change Coincide g (x >>= fun a => Pure.pure (a, sc)) (y >>= fun a => Pure.pure (a, sc))
  exact h.bind fun a => .pure (a, sc)

theorem bind {f f' : α → ResolveM β} (first : CoincideIn g x y) (next : ∀ a, CoincideIn g (f a) (f' a)) :
    CoincideIn g (x >>= f) (y >>= f') := fun sc => (first sc).bind fun r => next r.1 r.2

theorem bindOf {f f' : α → ResolveM β} {P : α → Prop} (first : CoincideIn g x y) (learns : ∀ sc s, P (x sc s).1.1)
    (next : ∀ a, P a → CoincideIn g (f a) (f' a)) : CoincideIn g (x >>= f) (y >>= f') := by
  intro sc s holds
  obtain ⟨same, move⟩ := first sc s holds
  obtain ⟨same', move'⟩ := next _ (learns sc s) (x sc s).1.2 (x sc s).2 (g.lasts move holds)
  refine ⟨?_, Calm.trans move move'⟩
  change f (x sc s).1.1 (x sc s).1.2 (x sc s).2 = f' (y sc s).1.1 (y sc s).1.2 (y sc s).2
  rw [same', same]

theorem andThen {x : StoreM α} {f f' : α → ResolveM β} {known : α → Given R}
    (first : ∀ s, g.holds s → Ensures R s x fun a s' => (known a).holds s')
    (next : ∀ a, CoincideIn (known a) (f a) (f' a)) : CoincideIn g (liftM x >>= f) (liftM x >>= f') := by
  intro sc s holds
  obtain ⟨move, learned⟩ := first s holds
  obtain ⟨same, move'⟩ := next (x s).1 sc (x s).2 learned
  exact ⟨same, Calm.trans move move'⟩

theorem block (h : CoincideIn g x y) : CoincideIn g (ResolveM.block x) (ResolveM.block y) := by
  intro sc
  let out (r : α × Scope) : α × Scope := (r.1, { r.2 with visible := sc.visible })
  change Coincide g (x sc >>= fun r => Pure.pure (out r)) (y sc >>= fun r => Pure.pure (out r))
  exact (h sc).bind fun r => .pure (out r)

theorem mapM {f f' : α → ResolveM β} (each : ∀ a, CoincideIn g (f a) (f' a)) (as : List α) :
    CoincideIn g (as.mapM f) (as.mapM f') := by
  induction as with
  | nil => exact .pure []
  | cons a as ih =>
    rw [List.mapM_cons, List.mapM_cons]
    exact (each a).bind fun _ => ih.bind fun _ => .pure _

end CoincideIn

end coincide

end Nominal
