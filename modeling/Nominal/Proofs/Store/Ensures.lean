import Mathlib.Data.List.Forall2
import Nominal.Store.Resolution
/-!
What a computation over a store ensures: how the store moves, and what holds of the result in the
store that is left. Movements accumulate along a sequence of computations without being mentioned.
-/

namespace Nominal

theorem stateM_get_bind {σ α : Type} (f : σ → StateM σ α) (s : σ) : (get >>= f : StateM σ α) s = f s s := rfl

theorem stateM_bind {σ α β : Type} (m : StateM σ α) (f : α → StateM σ β) (s : σ) : (m >>= f) s = f (m s).1 (m s).2 := rfl

theorem exceptT_get_bind {σ ε α : Type} (f : σ → ExceptT ε (StateM σ) α) (s : σ) :
    (get >>= f : ExceptT ε (StateM σ) α).run s = (f s).run s := rfl

theorem optionT_get_bind {σ α : Type} (f : σ → OptionT (StateM σ) α) (s : σ) :
    (get >>= f : OptionT (StateM σ) α).run s = (f s).run s := rfl

theorem optionT_bind {σ α β : Type} (m : OptionT (StateM σ) α) (f : α → OptionT (StateM σ) β) (s : σ) :
    (m >>= f).run s = (m.run s).1.elim (none, (m.run s).2) fun a => (f a).run (m.run s).2 := by
  rw [OptionT.run_bind, Option.elimM, stateM_bind]
  generalize m.run s = r
  obtain ⟨_ | a, s'⟩ := r <;> rfl

theorem optionT_bind_some {σ α β : Type} {m : OptionT (StateM σ) α} {f : α → OptionT (StateM σ) β} {a : α} {s s' : σ}
    (answers : m.run s = (some a, s')) : (m >>= f).run s = (f a).run s' := by
  rw [optionT_bind, answers]
  rfl

/-- A way for stores to move on: it accumulates, and where it has arrived it may stay. -/
class Movement (R : Store → Store → Prop) : Prop where
  trans : ∀ {a b c}, R a b → R b c → R a c
  stay : ∀ {a b}, R a b → R b b

def Ensures {α : Type} (R : Store → Store → Prop) (s : Store) (m : StoreM α)
    (P : α → Store → Prop) : Prop :=
  R s (m s).2 ∧ P (m s).1 (m s).2

namespace Ensures

variable {α β ε : Type} {R : Store → Store → Prop} {s : Store} {sc : Scope}

theorem imp {m : StoreM α} {P Q : α → Store → Prop} (h : Ensures R s m P)
    (weaker : ∀ a s', R s s' → P a s' → Q a s') : Ensures R s m Q :=
  ⟨h.1, weaker _ _ h.1 h.2⟩

theorem result {m : StoreM α} {P : α → Store → Prop} (h : Ensures R s m P) {a : α} {s' : Store}
    (run : m s = (a, s')) : R s s' ∧ P a s' := by
  rw [Ensures, run] at h
  exact h

theorem pure {P : α → Store → Prop} {a : α} (stay : R s s) (h : P a s) :
    Ensures R s (Pure.pure a) P :=
  ⟨stay, h⟩

theorem get {f : Store → StoreM β} {Q : β → Store → Prop} (h : Ensures R s (f s) Q) :
    Ensures R s (MonadState.get >>= f) Q := h

theorem scope {f : Scope → ResolveM β} {Q : β × Scope → Store → Prop}
    (h : Ensures R s (f sc sc) Q) : Ensures R s ((MonadState.get >>= f) sc) Q := h

theorem store {f : Store → ResolveM β} {Q : β × Scope → Store → Prop}
    (h : Ensures R s (f s sc) Q) : Ensures R s ((ResolveM.store >>= f) sc) Q := h

theorem map {m : StoreM α} {f : α → β} {P : β → Store → Prop}
    (h : Ensures R s m fun a s' => P (f a) s') : Ensures R s (f <$> m) P := h

theorem except_get {f : Store → ExceptT ε StoreM β} {Q : Except ε β → Store → Prop}
    (h : Ensures R s (f s).run Q) : Ensures R s (MonadState.get >>= f).run Q := h

theorem option_get {f : Store → OptionT StoreM β} {Q : Option β → Store → Prop}
    (h : Ensures R s (f s).run Q) : Ensures R s (MonadState.get >>= f).run Q := h

theorem option_lift {m : StoreM α} {Q : Option α → Store → Prop} (h : Ensures R s m fun a s' => Q (some a) s') :
    Ensures R s (liftM m : OptionT StoreM α).run Q := h

theorem except_lift {c : Except ε α} {f : α → ExceptT ε StoreM β} {Q : Except ε β → Store → Prop}
    (stay : R s s) (refused : ∀ e, c = .error e → Q (.error e) s)
    (next : ∀ a, c = .ok a → Ensures R s (f a).run Q) : Ensures R s (liftM c >>= f).run Q := by
  cases c with
  | error e => exact pure stay (refused e rfl)
  | ok a => exact next a rfl

theorem except_guard {c : Prop} [Decidable c] {e : ε} {f : Unit → ExceptT ε StoreM β}
    {Q : Except ε β → Store → Prop} (stay : R s s) (refused : c → Q (.error e) s)
    (next : ¬ c → Ensures R s (f ()).run Q) :
    Ensures R s (ExceptT.run (have rest := f
      if c then throw e >>= fun u => rest u else rest ())) Q := by
  split <;> rename_i holds
  · exact pure stay (refused holds)
  · exact next holds

theorem block {m : ResolveM α} {P : α × Scope → Store → Prop} (h : Ensures R s (m sc) P) :
    Ensures R s (ResolveM.block m sc) fun r s' =>
      r.2.visible = sc.visible ∧ ∃ sc', P (r.1, sc') s' :=
  ⟨h.1, rfl, _, h.2⟩

variable [Movement R]

theorem bind {m : StoreM α} {f : α → StoreM β} {P : α → Store → Prop}
    {Q : β → Store → Prop} (first : Ensures R s m P)
    (next : ∀ a s', R s s' → P a s' → Ensures R s' (f a) Q) : Ensures R s (m >>= f) Q := by
  have rest := next _ _ first.1 first.2
  exact ⟨Movement.trans first.1 rest.1, rest.2⟩

theorem mapM {f : α → StoreM β} {P : α → β → Store → Prop} {as : List α} (stay : R s s)
    (stable : ∀ a b s₁ s₂, R s₁ s₂ → P a b s₁ → P a b s₂)
    (each : ∀ a ∈ as, ∀ s', R s s' → Ensures R s' (f a) (P a)) :
    Ensures R s (as.mapM f) fun bs s' => List.Forall₂ (P · · s') as bs := by
  induction as generalizing s with
  | nil => exact pure stay .nil
  | cons a as ih =>
    rw [List.mapM_cons]
    refine (each a (by simp) s stay).bind fun b s₁ move hb => ?_
    have tail := ih (Movement.stay move) fun a mem s' later =>
      each a (by simp [mem]) s' (Movement.trans move later)
    refine tail.bind fun bs s₂ move hbs => ?_
    exact pure (Movement.stay move) (.cons (stable a b s₁ s₂ move hb) hbs)

theorem mapM_all {f : α → StoreM β} {P : β → Store → Prop} {as : List α} (stay : R s s)
    (stable : ∀ b s₁ s₂, R s₁ s₂ → P b s₁ → P b s₂)
    (each : ∀ a ∈ as, ∀ s', R s s' → Ensures R s' (f a) P) :
    Ensures R s (as.mapM f) fun bs s' => ∀ b ∈ bs, P b s' := by
  refine (mapM (P := fun _ => P) stay (fun _ => stable) each).imp fun bs s' _ all b mem => ?_
  clear each
  induction all with
  | nil => cases mem
  | cons head _ ih => exact (List.mem_cons.mp mem).elim (fun same => same ▸ head) ih

theorem resolve_bind {m : ResolveM α} {f : α → ResolveM β} {P : α × Scope → Store → Prop}
    {Q : β × Scope → Store → Prop} (first : Ensures R s (m sc) P)
    (next : ∀ a sc' s', R s s' → P (a, sc') s' → Ensures R s' (f a sc') Q) :
    Ensures R s ((m >>= f) sc) Q :=
  first.bind fun r s' move h => next r.1 r.2 s' move h

theorem ite_bind {c : Prop} [Decidable c] {m₁ m₂ : ResolveM α} {f : α → ResolveM β}
    {P : α × Scope → Store → Prop} {Q : β × Scope → Store → Prop}
    (first : Ensures R s ((if c then m₁ else m₂) sc) P)
    (next : ∀ a sc' s', R s s' → P (a, sc') s' → Ensures R s' (f a sc') Q) :
    Ensures R s ((have rest := f
      if c then m₁ >>= fun a => rest a else m₂ >>= fun a => rest a : ResolveM β) sc) Q := by
  split at first <;> rename_i holds
  · simp only [holds, ↓reduceIte]
    exact first.resolve_bind next
  · simp only [holds, ↓reduceIte]
    exact first.resolve_bind next

theorem lift_bind {m : StoreM α} {f : α → ResolveM β} {P : α → Store → Prop}
    {Q : β × Scope → Store → Prop} (first : Ensures R s m P)
    (next : ∀ a s', R s s' → P a s' → Ensures R s' (f a sc) Q) :
    Ensures R s ((liftM m >>= f) sc) Q := first.bind next

theorem resolve_mapM_from {f : α → ResolveM β} (I : List α → List β → Scope → Store → Prop)
    {as done : List α} {results : List β} (stay : R s s) (start : I done results sc s)
    (each : ∀ done a results sc' s', R s s' → I done results sc' s' →
      Ensures R s' (f a sc') fun r s'' => I (done ++ [a]) (results ++ [r.1]) r.2 s'') :
    Ensures R s (as.mapM f sc) fun r s' => I (done ++ as) (results ++ r.1) r.2 s' := by
  induction as generalizing s sc done results with
  | nil =>
    rw [List.mapM_nil]
    exact pure stay (by simpa using start)
  | cons a as ih =>
    rw [List.mapM_cons]
    refine (each done a results sc s stay start).resolve_bind fun b sc₁ s₁ move now => ?_
    have tail := ih (Movement.stay move) now fun done a results sc' s' later =>
      each done a results sc' s' (Movement.trans move later)
    refine tail.resolve_bind fun bs sc₂ s₂ move now => ?_
    exact pure (Movement.stay move) (by simpa using now)

theorem resolve_mapM {f : α → ResolveM β} (I : List α → List β → Scope → Store → Prop)
    {as : List α} (stay : R s s) (start : I [] [] sc s)
    (each : ∀ done a results sc' s', R s s' → I done results sc' s' →
      Ensures R s' (f a sc') fun r s'' => I (done ++ [a]) (results ++ [r.1]) r.2 s'') :
    Ensures R s (as.mapM f sc) fun r s' => I as r.1 r.2 s' :=
  resolve_mapM_from I stay start each

theorem except_bind {m : ExceptT ε StoreM α} {f : α → ExceptT ε StoreM β}
    {P : Except ε α → Store → Prop} {Q : Except ε β → Store → Prop} (first : Ensures R s m.run P)
    (refused : ∀ e s', R s s' → P (.error e) s' → Q (.error e) s')
    (next : ∀ a s', R s s' → P (.ok a) s' → Ensures R s' (f a).run Q) :
    Ensures R s (m >>= f).run Q := by
  rw [ExceptT.run_bind]
  refine first.bind fun r s' move h => ?_
  cases r with
  | error e => exact pure (Movement.stay move) (refused e s' move h)
  | ok a => exact next a s' move h

theorem except_step {m : StoreM α} {f : α → ExceptT ε StoreM β} {P : α → Store → Prop}
    {Q : Except ε β → Store → Prop} (first : Ensures R s m P)
    (next : ∀ a s', R s s' → P a s' → Ensures R s' (f a).run Q) :
    Ensures R s (liftM m >>= f).run Q := first.bind next

theorem option_bind {m : OptionT StoreM α} {f : α → OptionT StoreM β}
    {P : Option α → Store → Prop} {Q : Option β → Store → Prop} (first : Ensures R s m.run P)
    (failed : ∀ s', R s s' → P none s' → Q none s')
    (next : ∀ a s', R s s' → P (some a) s' → Ensures R s' (f a).run Q) :
    Ensures R s (m >>= f).run Q := by
  rw [OptionT.run_bind, Option.elimM]
  refine first.bind fun r s' move h => ?_
  cases r with
  | none => exact pure (Movement.stay move) (failed s' move h)
  | some a => exact next a s' move h

theorem option_step {m : StoreM α} {f : α → OptionT StoreM β} {P : α → Store → Prop}
    {Q : Option β → Store → Prop} (first : Ensures R s m P)
    (next : ∀ a s', R s s' → P a s' → Ensures R s' (f a).run Q) :
    Ensures R s (liftM m >>= f).run Q := first.bind next

end Ensures

end Nominal
