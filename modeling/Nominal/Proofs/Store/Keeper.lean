import Nominal.Proofs.Store.Orderly
import Nominal.Store.Entering
/-!
Computations that take nothing back. They are closed under everything by which computations are put
together, in a store as in a scope, where something may be refused and where something may not be found;
so only what opens an element and publishes it later needs an argument of its own.
-/

namespace Nominal

open Store

def Store.indexes (s : Store) : NameIndex × NameIndex × NameIndex := (s.modules, s.packages, s.typeElements)

def Store.Reuses (s s' : Store) : Prop :=
  s'.objectUsage = s.objectUsage ∨ ∃ t e, s'.objectUsage = some t ∧ s.objectElement? = some e ∧
    s.shape? t = some (.declared .none e [])

/-- A way for stores to move that every computation goes which adds nothing but names. -/
class Calm (R : Store → Store → Prop) : Prop where
  refl : ∀ s, R s s
  trans : ∀ {a b c}, R a b → R b c → R a c
  internName : ∀ name s, R s (StoreM.internName name s).2

class Extending (R : Store → Store → Prop) : Prop extends Calm R where
  pushType : ∀ s shape, R s (s.pushType shape)
  objectType : ∀ s, R s (StoreM.objectType s).2

/-- A way that every computation goes which only adds types. -/
class Mild (R : Store → Store → Prop) : Prop extends Calm R where
  aside : ∀ {s s' : Store}, s'.elements = s.elements → s'.types = s.types → s'.completions = s.completions →
    s'.indexes = s.indexes → s.Reuses s' → R s s'
  internName _ _ := aside rfl rfl rfl rfl (.inl rfl)
  pushType : ∀ s shape, R s (s.pushType shape)

class Gentle (R : Store → Store → Prop) : Prop extends Mild R where
  pushSettled : ∀ {s : Store} {slot : Slot} {r : ElementRecord}, slot.state = .complete r →
    ¬ slot.kind.isContainer → ¬ slot.kind.isParameterizable → slot.Orderly ⟨s.elements.size⟩ → R s (s.pushSlot slot)

class Attentive (R : Store → Store → Prop) : Prop extends Calm R where
  complete : ∀ e s, R s (StoreM.complete e s).2

/-- A way that every computation goes which adds types one by one and completes elements. -/
class Inquiring (R : Store → Store → Prop) : Prop extends Extending R, Attentive R

/-- Whatever is asked of a store goes this way. -/
class Tame (R : Store → Store → Prop) : Prop extends Mild R, Attentive R

class Hosting (R : Store → Store → Prop) : Prop extends Calm R where
  headings : ∀ {s s' : Store}, R s s' → s.SameHeadings s'
  listed : ∀ {s s' : Store}, s'.elements = s.elements → s'.types = s.types → s'.completions = s.completions →
    s'.objectUsage = s.objectUsage → R s s'
  pushPending : ∀ {s : Store} {slot : Slot} {work : Pending}, slot.state = .pending work →
    slot.Tidy ⟨s.elements.size⟩ → slot.Orderly ⟨s.elements.size⟩ →
    (slot.kind.isParameterizable → ∀ o, slot.enclosing = some o → s.Encloses o) → R s (s.pushSlot slot)
  addChild : ∀ s parent child, R s (s.addChild parent child)

class Receptive (R : Store → Store → Prop) : Prop extends Gentle R, Tame R, Hosting R

/-- A kind of computation of which some are known to move stores along `R`. -/
class Keeper (R : Store → Store → Prop) (m : Type → Type) [Monad m] where
  Holds : {α : Type} → m α → Prop
  holds_pure {α : Type} (a : α) : Holds (pure a)
  holds_bind {α β : Type} {x : m α} {f : α → m β} : Holds x → (∀ a, Holds (f a)) → Holds (x >>= f)

def Keeping (R : Store → Store → Prop) {m : Type → Type} [Monad m] [Keeper R m] {α : Type} (x : m α) : Prop :=
  Keeper.Holds R x

section keeper

variable {R : Store → Store → Prop} {m : Type → Type} [Monad m] [Keeper R m] {α β : Type}

@[grind ←]
theorem Keeper.pure (a : α) : Keeping R (Pure.pure a : m α) := holds_pure a

@[grind ←]
theorem Keeper.bind {x : m α} {f : α → m β} (first : Keeping R x) (next : ∀ a, Keeping R (f a)) :
    Keeping R (x >>= f) := holds_bind first next

@[grind ←]
theorem keeping_map [LawfulMonad m] {x : m α} {f : α → β} (h : Keeping R x) : Keeping R (f <$> x) := by
  rw [map_eq_pure_bind]
  exact Keeper.bind h fun _ => Keeper.pure _

theorem keeping_mapM_mem [LawfulMonad m] {f : α → m β} {as : List α} (h : ∀ a ∈ as, Keeping R (f a)) :
    Keeping R (as.mapM f) := by
  induction as with
  | nil => rw [List.mapM_nil]; exact Keeper.pure _
  | cons a as ih =>
    rw [List.mapM_cons]
    exact Keeper.bind (h a (by simp)) fun _ =>
      Keeper.bind (ih fun a mem => h a (by simp [mem])) fun _ => Keeper.pure _

@[grind ←]
theorem keeping_mapM [LawfulMonad m] {f : α → m β} {as : List α} (h : ∀ a, Keeping R (f a)) :
    Keeping R (as.mapM f) := keeping_mapM_mem fun a _ => h a

@[grind ←]
theorem keeping_option_mapM [LawfulMonad m] {f : α → m β} {a? : Option α} (h : ∀ a, Keeping R (f a)) :
    Keeping R (a?.mapM f) := by
  cases a? with
  | none => exact Keeper.pure none
  | some a => exact keeping_map (h a)

theorem keeping_allM {p : α → m Bool} (asks : ∀ a, Keeping R (p a)) (as : List α) : Keeping R (as.allM p) := by
  induction as with
  | nil => exact Keeper.pure true
  | cons a rest ih => grind [List.allM]

theorem keeping_anyM {p : α → m Bool} (asks : ∀ a, Keeping R (p a)) (as : List α) : Keeping R (as.anyM p) := by
  induction as with
  | nil => exact Keeper.pure false
  | cons a rest ih => grind [List.anyM]

end keeper

section closure

variable {R : Store → Store → Prop} [Calm R]

instance : Movement R where
  trans := Calm.trans
  stay _ := Calm.refl _

instance : Keeper R StoreM where
  Holds x := ∀ s : Store, R s (x s).2
  holds_pure _ := Calm.refl
  holds_bind hx hf s := Calm.trans (hx s) (hf _ _)

variable {m : Type → Type} [Monad m] [Keeper R m] {α β ε σ : Type}

instance : Keeper R (StateT σ m) where
  Holds x := ∀ st, Keeping R (x.run st)
  holds_pure a st := Keeper.pure (a, st)
  holds_bind hx hf st := Keeper.bind (hx st) fun r => hf r.1 r.2

instance : Keeper R (ExceptT ε m) where
  Holds x := Keeping R x.run
  holds_pure a := Keeper.pure (Except.ok a)
  holds_bind hx hf := Keeper.bind hx fun
    | .ok a => hf a
    | .error e => Keeper.pure (Except.error e)

instance : Keeper R (OptionT m) where
  Holds x := Keeping R x.run
  holds_pure a := Keeper.pure (some a)
  holds_bind hx hf := Keeper.bind hx fun
    | some a => hf a
    | none => Keeper.pure none

@[grind ←]
theorem keeping_discard {x : StoreM α} (h : Keeping R x) : Keeping R (discard x) := fun s => h s

@[grind ←]
theorem keeping_get : Keeping R (get : StoreM Store) := fun s => Calm.refl s

@[grind ←]
theorem keeping_internName (name : String) : Keeping R (StoreM.internName name) := Calm.internName name

@[grind ←]
theorem keeping_scope : Keeping R (get : ResolveM Scope) := fun sc => Keeper.pure (sc, sc)

@[grind ←]
theorem keeping_rescope (f : Scope → Scope) : Keeping R (modify f : ResolveM Unit) :=
  fun sc => Keeper.pure ((), f sc)

@[grind ←]
theorem keeping_store : Keeping R ResolveM.store := fun _ s => Calm.refl s

@[grind ←]
theorem keeping_lift {x : StoreM α} (h : Keeping R x) : Keeping R (liftM x : ResolveM α) :=
  fun sc => Keeper.bind h fun a => Keeper.pure (a, sc)

@[grind ←]
theorem keeping_run' {x : ResolveM α} (h : Keeping R x) (sc : Scope) : Keeping R (x.run' sc : StoreM α) :=
  keeping_map (h sc)

end closure

section refusals

variable {R : Store → Store → Prop} [Calm R] {α ε : Type}

@[grind ←]
theorem keeping_throw (e : ε) : Keeping R (throw e : ExceptT ε StoreM α) := fun s => Calm.refl s

theorem keeping_guard {c : Prop} [Decidable c] {e : ε} {f : Unit → ExceptT ε StoreM α}
    (next : ¬ c → Keeping R (f ())) :
    Keeping R (have rest := f
      if c then throw e >>= fun u => rest u else rest ()) := by
  split <;> rename_i holds
  · exact fun s => Calm.refl s
  · exact next holds

@[grind ←]
theorem keeping_check (c : Except ε α) : Keeping R (liftM c : ExceptT ε StoreM α) :=
  fun s => Calm.refl s

@[grind ←]
theorem keeping_checked_run {x : ExceptT ε StoreM α} (h : Keeping R x) : Keeping R (x.run : StoreM (Except ε α)) := h

@[grind ←]
theorem keeping_checked_get : Keeping R (get : Checked Store) := fun s => Calm.refl s

@[grind ←]
theorem keeping_checked_lift {x : StoreM α} (h : Keeping R x) : Keeping R (liftM x : Checked α) :=
  (keeping_map h : Keeping R (Except.ok <$> x))

end refusals

section failures

variable {R : Store → Store → Prop} [Calm R] {α : Type}

@[grind ←]
theorem keeping_partial_get : Keeping R (get : OptionT StoreM Store) := fun s => Calm.refl s

@[grind ←]
theorem keeping_failure : Keeping R (failure : OptionT StoreM α) := fun s => Calm.refl s

@[grind ←]
theorem keeping_given (a? : Option α) : Keeping R (OptionT.mk (pure a?) : OptionT StoreM α) :=
  fun s => Calm.refl s

@[grind ←]
theorem keeping_partial_lift {x : StoreM α} (h : Keeping R x) : Keeping R (liftM x : OptionT StoreM α) :=
  Keeper.bind h fun _ => Keeper.pure _

@[grind ←]
theorem keeping_partial_run {x : OptionT StoreM α} (h : Keeping R x) : Keeping R (x.run : StoreM (Option α)) := h

end failures

instance : Gentle Keeps where
  refl := Keeps.refl
  trans := Keeps.trans
  aside elements types _ _ _ :=
    (Keeps.refl _).restate (fun e => by rw [slot?, elements, slot?]) fun t => by rw [shape?, types, shape?]
  pushType _ := keeps_pushType
  pushSettled state plain _ _ :=
    (keepsBut_pushSlot fun container => absurd container plain).congr fun _ => by simp [state, Nothing]

section primitives

variable {R : Store → Store → Prop}

instance [Mild R] : Extending R where
  pushType := Mild.pushType
  objectType s := by
    rw [StoreM.objectType, stateM_get_bind]
    cases s.objectUsage with
    | some t => exact Calm.refl s
    | none =>
      cases object : s.objectElement? with
      | none => exact Calm.refl s
      | some e =>
        refine Calm.trans (Mild.pushType s (.declared .none e [])) (Mild.aside rfl rfl rfl rfl (.inr ?_))
        exact ⟨⟨s.types.size⟩, e, rfl, object, (shape?_push _).trans (if_pos rfl)⟩

instance [Tame R] : Inquiring R where
  toExtending := inferInstance
  complete := Attentive.complete

variable [Extending R]

@[grind ←]
theorem keeping_newType (shape : TypeShape) : Keeping R (StoreM.newType shape) :=
  fun s => Extending.pushType s shape

@[grind ←]
theorem keeping_objectType : Keeping R StoreM.objectType := Extending.objectType

end primitives

theorem keeping_newComplete {R : Store → Store → Prop} [Gentle R] {record : ElementId → ElementRecord} (id : ∀ e, (record e).id = e)
    (plain : ∀ e, ¬ (record e).kind.isContainer) (simple : ∀ e, ¬ (record e).kind.isParameterizable) :
    Keeping R (StoreM.newComplete record) := by
  intro s
  refine Gentle.pushSettled rfl (plain _) (simple _) ⟨?_, fun _ => nofun, ?_⟩
  · rintro (container | ⟨⟨⟩⟩)
    exact absurd container (plain _)
  · rintro _ ⟨⟩
    exact ⟨id _, rfl, rfl, rfl, rfl, rfl⟩

namespace ResolveM

variable {R : Store → Store → Prop} [Mild R]

@[grind ←]
theorem keeping_newType (shape : TypeShape) : Keeping R (newType shape) := by
  grind [newType]

@[grind ←]
theorem keeping_bindVariable (name : String) (t : TypeId) : Keeping R (bindVariable name t) := by
  grind [bindVariable]

@[grind ←]
theorem keeping_countUnresolved : Keeping R countUnresolved := by
  grind [countUnresolved]

@[grind ←]
theorem keeping_unresolvedType (name : String) : Keeping R (unresolvedType name) := by
  grind [unresolvedType]

mutual

theorem keeping_resolve : (t : TypeExpr) → Keeping R (resolve t)
  | .primitive k => by grind [resolve]
  | .void => by grind [resolve]
  | .var name => by grind [resolve]
  | .named name args => by
    have parts := keeping_resolveAll args
    grind [resolve]
  | .array c => by
    have part := keeping_resolve c
    grind [resolve]
  | .wildcard upper lower => by
    have first := keeping_resolve? upper
    have second := keeping_resolve? lower
    grind [resolve]

theorem keeping_resolveAll : (ts : List TypeExpr) → Keeping R (resolveAll ts)
  | [] => by grind [resolveAll]
  | t :: rest => by
    have first := keeping_resolve t
    have others := keeping_resolveAll rest
    grind [resolveAll]

theorem keeping_resolve? : (t? : Option TypeExpr) → Keeping R (resolve? t?)
  | none => by grind [resolve?]
  | some t => by
    have part := keeping_resolve t
    grind [resolve?]

end

attribute [grind ←] keeping_resolve keeping_resolveAll

end ResolveM

section turns

variable {α β : Type} {p q : ElementId → Prop} {s : Store} {x : ResolveM α}

def Turns (s : Store) (p : ElementId → Prop) (x : ResolveM α) (q : α → ElementId → Prop) : Prop :=
  ∀ sc s', s.KeepsBut p s' → s.KeepsBut (q (x sc s').1.1) (x sc s').2

theorem Turns.bind {f : α → ResolveM β} {q : α → ElementId → Prop} {r : β → ElementId → Prop}
    (first : Turns s p x q) (next : ∀ a, Turns s (q a) (f a) r) : Turns s p (x >>= f) r :=
  fun sc s' start => next _ _ _ (first sc s' start)

theorem Turns.after {f : α → ResolveM β} {r : β → ElementId → Prop} (first : Keeping Keeps x)
    (next : ∀ a, Turns s p (f a) r) : Turns s p (x >>= f) r :=
  Turns.bind (q := fun _ => p) (fun sc s' start => start.step (first sc s')) next

theorem Turns.congr {q r : α → ElementId → Prop} (turns : Turns s p x q) (same : ∀ a e, q a e ↔ r a e) :
    Turns s p x r :=
  fun sc s' start => (turns sc s' start).congr (same _)

theorem Turns.ite {y : ResolveM α} {q : α → ElementId → Prop} {c : Prop} [Decidable c] (yes : Turns s p x q)
    (no : Turns s p y q) : Turns s p (if c then x else y) q := by
  split
  · exact yes
  · exact no

theorem Turns.block {q : α → ElementId → Prop} (turns : Turns s p x q) : Turns s p (ResolveM.block x) q := turns

theorem keeping_of_turns (turns : ∀ s, Turns s Nothing x fun _ => Nothing) : Keeping Keeps x :=
  fun sc s => turns s sc s (Keeps.refl s)

theorem turns_newSlot {slot : Slot} (plain : ¬ slot.kind.isContainer) (completing : slot.state = .completing) :
    Turns s Nothing (liftM (StoreM.newSlot slot)) fun e e' => e' = e := fun _ s' start =>
  (start.trans (keepsBut_pushSlot fun container => absurd container plain)).congr fun e => by
    simp only [Nothing, completing, and_true, false_or]
    rfl

theorem turns_publish {record : ElementRecord} {e : ElementId} (id : record.id = e) (mine : p e) :
    Turns s p (liftM (StoreM.publish record)) fun _ e' => p e' ∧ e' ≠ e := by
  subst id
  exact fun _ _ start => start.publish mine

end turns

namespace Completion

section typeParameters

variable {p : ElementId → Prop} {s : Store} {owner e : ElementId} {t : TypeId}

theorem turns_completeTypeParameter (decl : TypeParameterDecl) (mine : p e) (new : s.shape? t = none) :
    Turns s p (completeTypeParameter owner decl e t) fun _ e' => p e' ∧ e' ≠ e := by
  refine .after (ResolveM.keeping_resolveAll _) fun bounds => ?_
  have settles (upper : TypeId) : Turns s p (liftM (StoreM.setShape t (.typeVariable e upper))) fun _ => p :=
    fun _ _ start => start.updateShape new _
  rcases bounds with _ | ⟨b, _ | ⟨b', rest⟩⟩
  all_goals
    refine .after (by grind) fun upper => ?_
    exact (settles upper).bind fun _ => turns_publish rfl mine

structure SetsAside (s : Store) (entered : List (ElementId × TypeId)) (s' : Store) : Prop where
  keeps : s.KeepsBut (· ∈ entered.map (·.1)) s'
  new : ∀ x ∈ entered, s.slot? x.1 = none ∧ s.shape? x.2 = none
  distinct : (entered.map (·.1)).Nodup

theorem SetsAside.append {s' s'' : Store} {entered more : List (ElementId × TypeId)}
    (first : SetsAside s entered s') (second : SetsAside s' more s'') : SetsAside s (entered ++ more) s'' where
  keeps := (first.keeps.trans second.keeps).congr fun e => by simp
  new x mem := by
    rcases List.mem_append.mp mem with mem | mem
    · exact first.new x mem
    · exact ⟨first.keeps.absent (second.new x mem).1, first.keeps.absent_shape (second.new x mem).2⟩
  distinct := by
    rw [List.map_append]
    refine first.distinct.append second.distinct fun e mem mem' => ?_
    obtain ⟨slot, found, _⟩ := (first.keeps.opens e).mpr (.inr mem)
    obtain ⟨x, listed, rfl⟩ := List.mem_map.mp mem'
    simp [(second.new x listed).1] at found

theorem reserve_setsAside (decl : TypeParameterDecl) (sc : Scope) (s : Store) :
    SetsAside s [(reserveTypeParameter owner decl sc s).1.1] (reserveTypeParameter owner decl sc s).2 where
  keeps := ((keepsBut_pushSlot fun container => Bool.noConfusion container).step (keeps_pushType _)).congr fun e => by
    change _ ↔ e ∈ [(⟨s.elements.size⟩ : ElementId)]
    simp
  new x mem := by
    cases List.mem_singleton.mp mem
    exact ⟨slot?_at_size, shape?_at_size⟩
  distinct := List.nodup_singleton _

theorem reserveAll_setsAside (ps : List TypeParameterDecl) (sc : Scope) (s : Store) :
    SetsAside s (ps.mapM (reserveTypeParameter owner) sc s).1.1 (ps.mapM (reserveTypeParameter owner) sc s).2 ∧
      (ps.mapM (reserveTypeParameter owner) sc s).1.1.length = ps.length := by
  induction ps generalizing sc s with
  | nil =>
    rw [List.mapM_nil]
    refine ⟨⟨(Keeps.refl s).congr fun e => ?_, nofun, .nil⟩, rfl⟩
    change Nothing e ↔ e ∈ ([] : List ElementId)
    simp [Nothing]
  | cons p ps ih =>
    rw [List.mapM_cons]
    obtain ⟨rest, length⟩ := ih (reserveTypeParameter owner p sc s).1.2 (reserveTypeParameter owner p sc s).2
    exact ⟨(reserve_setsAside p sc s).append rest, congrArg (· + 1) length⟩

theorem turns_completeAll (owner : ElementId) (pairs : List (TypeParameterDecl × ElementId × TypeId))
    (new : ∀ x ∈ pairs, s.shape? x.2.2 = none) (distinct : (pairs.map (·.2.1)).Nodup) :
    Turns s (· ∈ pairs.map (·.2.1))
      (pairs.forM fun (p, e, t) => completeTypeParameter owner p e t) fun _ => Nothing := by
  induction pairs with
  | nil => exact fun _ s' start => start.congr (by simp [Nothing])
  | cons x rest ih =>
    obtain ⟨apart, distinct⟩ := List.nodup_cons.mp distinct
    have first : Turns s (· ∈ (x :: rest).map (·.2.1)) (completeTypeParameter owner x.1 x.2.1 x.2.2) _ :=
      turns_completeTypeParameter x.1 (by simp) (new x (by simp))
    refine (first.congr (r := fun _ => (· ∈ rest.map (·.2.1))) fun _ e => ?_).bind fun _ =>
      ih (fun x mem => new x (by simp [mem])) distinct
    simp only [List.map_cons, List.mem_cons]
    constructor
    · exact fun ⟨mem, other⟩ => mem.resolve_left other
    · exact fun mem => ⟨.inr mem, fun same => apart (by subst same; exact mem)⟩

@[grind ←]
theorem keeping_enterTypeParameters (owner : ElementId) (ps : List TypeParameterDecl) :
    Keeping Keeps (enterTypeParameters owner ps) := by
  intro sc s
  let r := ps.mapM (reserveTypeParameter owner) sc s
  obtain ⟨aside, length⟩ : SetsAside s r.1.1 r.2 ∧ r.1.1.length = ps.length := reserveAll_setsAside ps sc s
  have seconds : (ps.zip r.1.1).map (·.2) = r.1.1 := List.map_snd_zip (Nat.le_of_eq length)
  have elements : (ps.zip r.1.1).map (·.2.1) = r.1.1.map (·.1) := by
    have firsts := congrArg (List.map (·.1)) seconds
    rw [List.map_map] at firsts
    exact firsts
  have publishes := turns_completeAll owner (ps.zip r.1.1)
    (fun x mem => (aside.new x.2 (seconds ▸ List.mem_map_of_mem mem)).2) (elements ▸ aside.distinct)
  rw [elements] at publishes
  exact publishes r.1.2 r.2 aside.keeps

end typeParameters

section adding

variable {R : Store → Store → Prop} [Gentle R]

theorem keeping_newVariable (owner : ElementId) {kind : ElementKind} (plain : ¬ kind.isContainer)
    (simple : ¬ kind.isParameterizable) (name : String) (t : TypeId) (nesting : Nesting) (modifiers : List Modifier) :
    Keeping R (newVariable owner kind name t nesting modifiers) :=
  keeping_lift (keeping_newComplete (fun _ => rfl) (fun _ => plain) fun _ => simple)

@[grind ←]
theorem keeping_enterParameter (owner : ElementId) (name : String) (t : TypeExpr) :
    Keeping R (enterParameter owner name t) := by
  have entered (t : TypeId) : Keeping R (newVariable owner .parameter name t .body []) :=
    keeping_newVariable owner (by decide) (by decide) name t .body []
  grind [enterParameter]

end adding

section asking

variable {R : Store → Store → Prop} [Mild R] {again : Again}

theorem keeping_visibleVariablesN (asks : ∀ e, Keeping R (again e)) (fuel : Nat) (e? : Option ElementId) :
    Keeping R (visibleVariablesN again fuel e?) := by
  induction fuel generalizing e? with
  | zero => grind [visibleVariablesN]
  | succ fuel ih =>
    cases e? with
    | none => exact Keeper.pure []
    | some e =>
      have own (p : ElementId) : Keeping R (do
          let p ← again p
          return (p.simpleName, p.asType)) := Keeper.bind (asks p) fun _ => Keeper.pure _
      rw [visibleVariablesN]
      refine Keeper.bind keeping_get fun s => ?_
      grind

@[grind ←]
theorem keeping_visibleVariables (asks : ∀ e, Keeping R (again e)) (e? : Option ElementId) :
    Keeping R (visibleVariables again e?) :=
  Keeper.bind keeping_get fun s => keeping_visibleVariablesN asks (s.elements.size + 1) e?

theorem keeping_resolveConstant (asks : ∀ e, Keeping R (again e)) (t : TypeId) (name : String) :
    Keeping R (resolveConstant again t name) := by
  rw [resolveConstant]
  refine Keeper.bind keeping_store fun s => ?_
  split
  · exact Keeper.bind (keeping_lift (asks _)) (by grind)
  · grind

mutual

theorem keeping_resolveValue (asks : ∀ e, Keeping R (again e)) : (v : ValueExpr) → Keeping R (resolveValue again v)
  | .bool b | .int n | .str text => by grind [resolveValue]
  | .type t => by grind [resolveValue]
  | .enumConstant t name => by grind [resolveValue, keeping_resolveConstant]
  | .array values => by
    have parts := keeping_resolveValues asks values
    grind [resolveValue]

theorem keeping_resolveValues (asks : ∀ e, Keeping R (again e)) :
    (vs : List ValueExpr) → Keeping R (resolveValues again vs)
  | [] => by grind [resolveValues]
  | v :: rest => by
    have first := keeping_resolveValue asks v
    have others := keeping_resolveValues asks rest
    grind [resolveValues]

end

@[grind ←]
theorem keeping_resolveAnnotationUse (asks : ∀ e, Keeping R (again e)) (a : AnnotationDecl) :
    Keeping R (resolveAnnotationUse again a) := by
  refine Keeper.bind (ResolveM.keeping_resolve a.type) fun t =>
    Keeper.bind (keeping_mapM fun x => ?_) fun _ => Keeper.pure _
  exact Keeper.bind (keeping_resolveValue asks x.2) fun _ => Keeper.pure _

@[grind ←]
theorem keeping_usageOf (name : String) (arguments : List TypeId) : Keeping R (usageOf name arguments) := by
  grind [usageOf]

@[grind ←]
theorem keeping_superclassOf (h : TypeHeader) (qualifiedName : String) (asType : TypeId) :
    Keeping R (superclassOf h qualifiedName asType) := by
  grind [superclassOf]

@[grind ←]
theorem keeping_interfacesOf (h : TypeHeader) : Keeping R (interfacesOf h) := by
  grind [interfacesOf]

end asking

section settling

variable {again : Again}

theorem keeping_enterExecutable (asks : ∀ e, Keeping Keeps (again e)) (owner : ElementId) (ownerType : TypeId)
    {kind : ElementKind} (plain : ¬ kind.isContainer) (d : ExecutableDecl) :
    Keeping Keeps (enterExecutable again owner ownerType kind d) := by
  refine keeping_of_turns fun s => .bind (turns_newSlot plain rfl) fun id => .after keeping_scope fun _ => ?_
  have closes (record : ElementRecord) (same : record.id = id) :
      Turns s (· = id) (liftM (StoreM.publish record)) fun _ => Nothing :=
    (turns_publish (p := (· = id)) same rfl).congr fun _ e => by simp [Nothing]
  refine Turns.bind (q := fun _ => Nothing) (.block ?_) fun _ _ _ start => start
  refine .after (keeping_enterTypeParameters id d.typeParameters) fun generics => .ite ?_ ?_
  all_goals
    refine .after (by grind) fun returnType => ?_
    refine .after (by grind) fun parameters => ?_
    refine .after (by grind) fun thrown => ?_
    refine .after (by grind) fun annotations => ?_
    refine .after (by grind) fun asType => ?_
    exact .after keeping_scope fun _ => closes _ rfl

@[grind ←]
theorem keeping_enterMember (asks : ∀ e, Keeping Keeps (again e)) (owner : ElementId) (ownerType : TypeId)
    (d : MemberDecl) : Keeping Keeps (enterMember again owner ownerType d) := by
  cases d with
  | field name t modifiers =>
    exact Keeper.bind (ResolveM.keeping_resolve t) fun t => keeping_newVariable owner (by decide) (by decide) name t _ _
  | enumConstant name => exact keeping_newVariable owner (by decide) (by decide) name ownerType _ _
  | method d => exact keeping_enterExecutable asks owner ownerType (by decide) d
  | constructor d => exact keeping_enterExecutable asks owner ownerType (by decide) d
  | recordComponent name t =>
    exact Keeper.bind (ResolveM.keeping_resolve t) fun t => keeping_newVariable owner (by decide) (by decide) name t _ _

theorem keeping_typeRecord (asks : ∀ e, Keeping Keeps (again e)) (id : ElementId) (slot : Slot) (h : TypeHeader)
    (nesting : Nesting) : Keeping Keeps (typeRecord again id slot h nesting) := by
  refine Keeper.bind (keeping_enterTypeParameters id h.typeParameters) fun generics => ?_
  refine Keeper.bind (ResolveM.keeping_newType _) fun asType => ?_
  refine Keeper.bind (keeping_superclassOf h slot.qualifiedName asType) fun superclass => ?_
  refine Keeper.bind (keeping_interfacesOf h) fun interfaces => ?_
  refine Keeper.bind (keeping_mapM fun d => keeping_enterMember asks id asType d) fun members => ?_
  refine Keeper.bind (keeping_mapM fun a => keeping_resolveAnnotationUse asks a) fun annotations => ?_
  exact Keeper.bind keeping_scope fun _ => Keeper.pure _

theorem keeping_completeType (asks : ∀ e, Keeping Keeps (again e)) (id : ElementId) (slot : Slot) (h : TypeHeader) :
    Keeping Keeps (completeType again id slot h) := by
  grind [completeType, keeping_typeRecord]

theorem completeType_id (again : Again) (id : ElementId) (slot : Slot) (h : TypeHeader) (s : Store) :
    (completeType again id slot h s).1.id = id := by
  unfold completeType
  exact iteInduction (motive := fun m : StoreM ElementRecord => (m s).1.id = id) (fun _ => rfl) fun _ => rfl

theorem container_settles {e : ElementId} {slot : Slot} {s : Store} (found : s.slot? e = some slot)
    (state : slot.state = .pending .container) :
    Ensures Keeps s (do
      modify (·.setState e .completing)
      modify fun s => { s with completions := s.completions + 1 }
      StoreM.publish (containerRecord e slot)
      return containerRecord e slot) fun r s' => s'.record? e = some r := by
  let r := containerRecord e slot
  let s₁ : Store := { s.setState e .completing with completions := s.completions + 1 }
  have elements : (s₁.setState e (.complete r)).elements = (s.setState e (.complete r)).elements :=
    setState_setState .completing (.complete r)
  have there : s₁.HasElement e := by
    change e.index < (s.elements.modify _ _).size
    rw [Array.size_modify]
    exact has_element_iff.mpr ⟨slot, found⟩
  refine ⟨(keeps_container found state).restate (fun e' => ?_) fun _ => rfl, record?_publish there⟩
  change (s₁.setState e (.complete r)).slot? e' = _
  rw [slot?, elements, slot?]

theorem type_settles (asks : ∀ e, Keeping Keeps (again e)) {e : ElementId} {slot : Slot} {header : TypeHeader}
    {s : Store} (found : s.slot? e = some slot) (state : slot.state = .pending (.type header)) :
    Ensures Keeps s (do
      modify (·.setState e .completing)
      let r ← completeType again e slot header
      modify fun s => { s with completions := s.completions + 1 }
      StoreM.publish r
      return r) fun r s' => s'.record? e = some r := by
  let s₁ := s.setState e .completing
  let r := (completeType again e slot header s₁).1
  let s₂ := (completeType again e slot header s₁).2
  have opened : s.KeepsBut (· = e) s₁ := keepsBut_begin found state
  have found₂ : s.KeepsBut (· = e) { s₂ with completions := s₂.completions + 1 } :=
    (opened.step (keeping_completeType asks e slot header s₁)).restate (fun _ => rfl) fun _ => rfl
  have id : r.id = e := completeType_id again e slot header s₁
  have published := found₂.publish (r := r) id
  refine ⟨published.congr fun e' => by simp [id, Nothing], ?_⟩
  have there : s.HasElement r.id := has_element_iff.mpr ⟨slot, by rw [id, found]⟩
  exact (congrArg _ id.symm).trans (record?_publish (found₂.there there))

theorem step_settles (asks : ∀ e, Keeping Keeps (again e)) (s : Store) (e : ElementId) :
    Ensures Keeps s (step again e) fun r s' => s.HasElement e → ¬ s.Open e → s'.record? e = some r := by
  refine .get ?_
  cases found : s.slot? e with
  | none =>
    refine .pure (.refl s) fun there => ?_
    obtain ⟨slot, found'⟩ := has_element_iff.mp there
    simp [found] at found'
  | some slot =>
    dsimp only
    cases state : slot.state with
    | complete r => exact .pure (.refl s) fun _ _ => record?_eq_some_iff.mpr ⟨slot, found, state⟩
    | completing => exact .pure (.refl s) fun _ closed => absurd ⟨slot, found, state⟩ closed
    | pending work =>
      cases work with
      | container => exact (container_settles found state).imp fun _ _ _ complete _ _ => complete
      | type header => exact (type_settles asks found state).imp fun _ _ _ complete _ _ => complete

theorem stepN_settles (fuel : Nat) (s : Store) (e : ElementId) :
    Ensures Keeps s (stepN fuel e) fun r s' => s.HasElement e → ¬ s.Open e → s'.record? e = some r := by
  induction fuel generalizing s e with
  | zero => exact step_settles (fun e => Keeper.pure _) s e
  | succ fuel ih => exact step_settles (fun e s => (ih s e).1) s e

end settling

end Completion

namespace StoreM

theorem complete_settles (s : Store) (e : ElementId) :
    Ensures Keeps s (complete e) fun r s' => s.HasElement e → ¬ s.Open e → s'.record? e = some r :=
  .get (Completion.stepN_settles _ s e)

end StoreM

instance : Tame Keeps where
  complete e s := (StoreM.complete_settles s e).1

instance : Receptive Keeps where
  listed elements types _ _ :=
    (Keeps.refl _).restate (fun e => by rw [slot?, elements, slot?]) fun t => by rw [shape?, types, shape?]
  headings keeps e slot found := by
    obtain ⟨_, found', _, _, rfl, _⟩ := keeps.slots e slot found
    exact ⟨_, found', rfl⟩
  pushPending state tidy _ _ := (keepsBut_pushSlot tidy).congr fun _ => by simp [state, Nothing]
  addChild _ := keeps_addChild

namespace StoreM

section asking

variable {R : Store → Store → Prop}

@[grind ←]
theorem keeping_complete [Attentive R] (e : ElementId) : Keeping R (complete e) := Attentive.complete e

@[grind ←]
theorem keeping_inspect [Attentive R] (t : TypeId) : Keeping R (inspect t) := by
  grind [inspect]

@[grind ←]
theorem keeping_scopeWithin [Tame R] (e : ElementId) : Keeping R (scopeWithin e) := by
  grind [scopeWithin]

end asking

section entering

variable {R : Store → Store → Prop} [Hosting R]

theorem keeping_addChild (parent child : ElementId) : Keeping R (modify (·.addChild parent child) : StoreM Unit) :=
  fun s => Hosting.addChild s parent child

theorem keeping_listed {f : Store → Store} (elements : ∀ s, (f s).elements = s.elements) (types : ∀ s, (f s).types = s.types)
    (completions : ∀ s, (f s).completions = s.completions) (usage : ∀ s, (f s).objectUsage = s.objectUsage) :
    Keeping R (modify f : StoreM Unit) :=
  fun s => Hosting.listed (elements s) (types s) (completions s) (usage s)

theorem keeping_newContainer {slot : Slot} (state : slot.state = .pending .container) (bare : slot.arity = 0)
    (simple : ¬ slot.kind.isParameterizable) : Keeping R (newSlot slot) := fun _ =>
  Hosting.pushPending state (fun _ => .inl state)
    ⟨fun _ => bare, fun h waits => by simp [state] at waits, fun r done => by simp [state] at done⟩
    fun generic => absurd generic simple

@[grind ←]
theorem keeping_enterModule (name : String) : Keeping R (enterModule name) := by
  refine Keeper.bind keeping_get fun s => ?_
  split
  · exact Keeper.pure _
  · refine Keeper.bind (keeping_newContainer rfl rfl nofun) fun id => ?_
    exact Keeper.bind (keeping_listed (fun _ => rfl) (fun _ => rfl) (fun _ => rfl) fun _ => rfl) fun _ => Keeper.pure id

theorem keeping_enterPackage (module : Option ElementId) (name : String) : Keeping R (enterPackage module name) := by
  refine Keeper.bind keeping_get fun s => ?_
  split
  · exact Keeper.pure _
  · refine Keeper.bind (keeping_newContainer rfl rfl nofun) fun id => ?_
    refine Keeper.bind (keeping_listed (fun _ => rfl) (fun _ => rfl) (fun _ => rfl) fun _ => rfl) fun _ => ?_
    cases module with
    | none => exact Keeper.bind (Keeper.pure ()) fun _ => Keeper.pure id
    | some m => exact Keeper.bind (keeping_addChild m id) fun _ => Keeper.pure id

theorem newTypeElement_moves {s : Store} {enclosing : ElementId} (encloses : s.Encloses enclosing)
    (qualifiedName : String) {h : TypeHeader} (isType : h.kind.isType) :
    Ensures R s (newTypeElement enclosing qualifiedName h) fun e s' => s'.Encloses e := by
  let slot : Slot :=
    { kind := h.kind, simpleName := h.name, qualifiedName, enclosing := some enclosing
      arity := h.typeParameters.length, state := .pending (.type h) }
  have plain : ¬ slot.kind.isContainer := ElementKind.isType_not_container isType
  have fits : slot.Orderly ⟨s.elements.size⟩ := by
    refine ⟨?_, ?_, nofun⟩
    · rintro (container | ⟨⟨⟩⟩)
      exact absurd container plain
    · rintro _ ⟨⟩
      exact ⟨isType, rfl, rfl, rfl⟩
  have entered : R s (s.pushSlot slot) := by
    refine Hosting.pushPending rfl (fun container => absurd container plain) fits fun _ o same => ?_
    cases same
    exact encloses
  let listed : Store :=
    { s.pushSlot slot with typeElements := s.typeElements ++ [(qualifiedName, ⟨s.elements.size⟩)] }
  have indexed : R s listed := Calm.trans entered (Hosting.listed rfl rfl rfl rfl)
  have child : R listed (listed.addChild enclosing ⟨s.elements.size⟩) := Hosting.addChild _ _ _
  have generic : slot.kind.isParameterizable := by
    change (h.kind.isType || _) = true
    rw [isType, Bool.true_or]
  have new : listed.Encloses ⟨s.elements.size⟩ := ⟨slot, (slot?_push slot).trans (if_pos rfl), .inr generic⟩
  exact ⟨Calm.trans indexed child, (Hosting.headings child).encloses new⟩

mutual

theorem enterTypeIn_moves {s : Store} {enclosing : ElementId} (encloses : s.Encloses enclosing) (scope : String) :
    (d : TypeDecl) → Ensures R s (enterTypeIn enclosing scope d).run fun _ _ => True
  | .mk h nested => by
    rw [enterTypeIn]
    refine .except_guard (Calm.refl s) (fun _ => trivial) fun isType => ?_
    refine .except_get (.except_guard (Calm.refl s) (fun _ => trivial) fun _ => ?_)
    refine (newTypeElement_moves encloses (qualify scope h.name) (by simpa using isType)).except_step
      fun id s' _ new => ?_
    refine (enterTypesIn_moves new (qualify scope h.name) nested).except_bind (fun _ _ _ _ => trivial) fun _ s'' _ _ => ?_
    exact .pure (Calm.refl s'') trivial

theorem enterTypesIn_moves {s : Store} {enclosing : ElementId} (encloses : s.Encloses enclosing) (scope : String) :
    (ds : List TypeDecl) → Ensures R s (enterTypesIn enclosing scope ds).run fun _ _ => True
  | [] => .pure (Calm.refl s) trivial
  | d :: rest => by
    rw [enterTypesIn]
    refine (enterTypeIn_moves encloses scope d).except_bind (fun _ _ _ => id) fun _ s' move _ => ?_
    exact enterTypesIn_moves ((Hosting.headings move).encloses encloses) scope rest

end

theorem keeping_enterType (package : ElementId) (d : TypeDecl) : Keeping R (enterType package d) := by
  intro s
  refine (Ensures.except_get (Q := fun _ _ => True) ?_).1
  cases found : s.slot? package with
  | none => exact .pure (Calm.refl s) trivial
  | some slot =>
    exact .except_guard (Calm.refl s) (fun _ => trivial) fun kind =>
      enterTypeIn_moves ⟨slot, found, .inl (by simpa using kind)⟩ _ d

theorem keeping_enterTypes (package : ElementId) (ds : List TypeDecl) : Keeping R (enterTypes package ds) := by
  induction ds with
  | nil => exact Keeper.pure []
  | cons d rest ih =>
    exact Keeper.bind (keeping_checked_run (keeping_enterType package d)) fun _ =>
      Keeper.bind ih fun _ => Keeper.pure _

theorem keeping_enterDeclarations (p : PackageDecl) : Keeping R (enterDeclarations p) := by
  refine Keeper.bind (keeping_option_mapM keeping_enterModule) fun module => ?_
  refine Keeper.bind (keeping_enterPackage module p.package) fun package => ?_
  exact Keeper.bind (keeping_enterTypes package p.types) fun _ => Keeper.pure _

end entering

theorem keeping_enterLocal {R : Store → Store → Prop} [Receptive R] (owner : ElementId) (kind : ElementKind) (name : String) (type : TypeExpr) :
    Keeping R (enterLocal owner kind name type) := by
  refine keeping_guard fun isLocal => Keeper.bind (keeping_checked_lift (keeping_complete owner)) fun r =>
    keeping_guard fun _ => ?_
  obtain ⟨plain, simple⟩ : ¬ kind.isContainer ∧ ¬ kind.isParameterizable := by
    revert isLocal
    cases kind <;> decide
  refine Keeper.bind (keeping_checked_lift (keeping_scopeWithin owner)) fun scope => ?_
  refine Keeper.bind (keeping_checked_lift (ResolveM.keeping_resolve type scope)) fun (t, sc) => ?_
  have enters (record : ElementId → ElementRecord) (id : ∀ e, (record e).id = e) (same : ∀ e, (record e).kind = kind) :
      Keeping R (newComplete record) :=
    keeping_newComplete id (fun e => by rw [same]; exact plain) fun e => by rw [same]; exact simple
  refine Keeper.bind (keeping_checked_lift (enters _ (fun _ => rfl) fun _ => rfl)) fun id => ?_
  exact Keeper.bind (keeping_checked_lift (keeping_addChild owner id)) fun _ => Keeper.pure id

end StoreM

end Nominal
