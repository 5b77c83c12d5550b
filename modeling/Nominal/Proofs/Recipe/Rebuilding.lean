import Nominal.Proofs.Recipe.Meaning
/-!
Following a recipe comes to what the recipe stands for when its names are taken for what their keys lead to: it
ends with a value exactly if the recipe has a meaning then, and the value is what it means.
-/

namespace Nominal

open Store StoreM

namespace Rebuilding

variable {α β : Type}

theorem run_bind (m : Rebuilding α) (f : α → Rebuilding β) (s : Store) :
    (m >>= f).run s = match m.run s with
      | (.ok a, s') => (f a).run s'
      | (.error e, s') => (.error e, s') := by
  unfold ExceptT.run
  simp only [bind, ExceptT.bind, ExceptT.mk, StateT.bind, ExceptT.bindCont]
  cases m s with
  | mk r s' => cases r <;> rfl

theorem parts_of_run {m : Rebuilding α} {f : α → Rebuilding β} {s s'' : Store} {b : β} (run : (m >>= f).run s = (.ok b, s'')) :
    ∃ a s', m.run s = (.ok a, s') ∧ (f a).run s' = (.ok b, s'') := by
  rw [run_bind] at run
  cases first : m.run s with
  | mk r s' =>
    rw [first] at run
    cases r with
    | error e => cases run
    | ok a => exact ⟨a, s', rfl, run⟩

end Rebuilding

/-- How results are read: which of them are of the store, and what they stand for there. -/
structure Sense (α β : Type) where
  known : Store → α → Prop
  read : Store → α → Option β

namespace Sense

def plain {α : Type} : Sense α α := ⟨fun _ _ => True, fun _ a => some a⟩

def element : Sense ElementId ElementId := ⟨HasElement, fun _ e => some e⟩

def type : Sense TypeId TypeTree := ⟨HasType, fun s t => some (s.tree t)⟩

def optional : Sense (Option TypeId) (Option TypeTree) :=
  ⟨fun s t => ∀ u ∈ t, s.HasType u, fun s t => some (t.map s.tree)⟩

def list {α β : Type} (σ : Sense α β) : Sense (List α) (List β) :=
  ⟨fun s as => ∀ a ∈ as, σ.known s a, fun s as => as.mapM (σ.read s)⟩

def types : Sense (List TypeId) (List TypeTree) :=
  ⟨fun s ts => ∀ t ∈ ts, s.HasType t, fun s ts => some (ts.map s.tree)⟩

end Sense

def Value.Known (s : Store) : Value → Prop
  | .name key => key.index.toNat < s.names.size
  | .element e => s.HasElement e
  | .type t => s.HasType t
  | .list items => ∀ t, .type t ∈ items → s.HasType t
  | _ => True

theorem Value.Known.type {s : Store} {v : Value} (known : v.Known s) : ∀ t, v = .type t → s.HasType t := by
  rintro t rfl
  exact known

def Sense.value : Sense Value Meaning := ⟨Value.Known, denote⟩

def Yields {α β : Type} (σ : Sense α β) (s : Store) (m : Rebuilding α) (x : Lexicon → Store → Option β) : Prop :=
  Ensures Advances s m.run fun r s' => (∀ a, r = .ok a → σ.known s' a) ∧
    ∀ s'', s'.Advances s'' → ∀ lex, lex.Reads s'.names → x lex s'' = r.toOption.bind (σ.read s'')

namespace Yields

variable {α β γ δ : Type} {σ : Sense α β} {τ : Sense γ δ} {s : Store} {x : Lexicon → Store → Option β}

theorem pure (h : s.Sound) {a : α} (known : σ.known s a)
    (same : ∀ s', s.Advances s' → ∀ lex, lex.Reads s.names → x lex s' = σ.read s' a) : Yields σ s (Pure.pure a) x :=
  Ensures.pure h.stays ⟨fun _ same => by cases same; exact known, same⟩

theorem throw (h : s.Sound) {e : Refusal}
    (none_ : ∀ s', s.Advances s' → ∀ lex, lex.Reads s.names → x lex s' = none) :
    Yields σ s (throw e) x :=
  Ensures.pure h.stays ⟨nofun, none_⟩

theorem bind {m : Rebuilding α} {f : α → Rebuilding γ} {y : Lexicon → Store → β → Option δ}
    (first : Yields σ s m x) (next : ∀ a s', s.Advances s' → σ.known s' a →
      Yields τ s' (f a) fun lex s'' => σ.read s'' a >>= y lex s'') :
    Yields τ s (m >>= f) fun lex s' => x lex s' >>= y lex s' := by
  refine Ensures.except_bind first (fun e s' _ ⟨_, settled⟩ => ⟨nofun, fun s'' later lex reads => ?_⟩)
    fun a s' move ⟨known, settled⟩ => ?_
  · dsimp only
    rw [settled s'' later lex reads]
    rfl
  · refine (next a s' move (known a rfl)).imp fun r s₁ move₁ ⟨known₁, settled₁⟩ =>
      ⟨known₁, fun s₂ later lex reads => ?_⟩
    rw [← settled₁ s₂ later lex reads]
    dsimp only
    rw [settled s₂ (Movement.trans move₁ later) lex (reads.of_longer move₁.moves.grows.names)]
    rfl

theorem lift {m : StoreM α} {f : α → Rebuilding γ} {P : α → Store → Prop} {y : Lexicon → Store → Option δ}
    (first : Ensures Advances s m P) (next : ∀ a s', s.Advances s' → P a s' → Yields τ s' (f a) y) :
    Yields τ s (liftM m >>= f) y :=
  Ensures.bind first next

theorem get {f : Store → Rebuilding γ} {y : Lexicon → Store → Option δ} (next : Yields τ s (f s) y) :
    Yields τ s (MonadState.get >>= f) y := next

theorem congr {m : Rebuilding α} {y : Lexicon → Store → Option β} (yields : Yields σ s m x)
    (same : ∀ lex s', s.Advances s' → y lex s' = x lex s') : Yields σ s m y :=
  yields.imp fun _ _ move ⟨known, settled⟩ => ⟨known, fun s'' later lex reads =>
    (same lex s'' (Movement.trans move later)).trans (settled s'' later lex reads)⟩

theorem reread {ρ : Sense α δ} {m : Rebuilding α} {y : β → Option δ} (yields : Yields σ s m x)
    (known : ∀ a s', σ.known s' a → ρ.known s' a) (read : ∀ a s', ρ.read s' a = σ.read s' a >>= y) :
    Yields ρ s m fun lex s' => x lex s' >>= y := by
  refine yields.imp fun r s' _ ⟨known', settled⟩ => ⟨fun a same => known a s' (known' a same),
    fun s'' later lex reads => ?_⟩
  dsimp only
  rw [settled s'' later lex reads]
  cases r with
  | error e => rfl
  | ok a => exact (read a s'').symm

theorem mapM {f : γ → Rebuilding α} {g : Lexicon → Store → γ → Option β} {as : List γ} (h : s.Sound)
    (stable : ∀ a s s', s.Advances s' → σ.known s a → σ.known s' a)
    (each : ∀ a ∈ as, ∀ s', s.Advances s' → Yields σ s' (f a) fun lex s'' => g lex s'' a) :
    Yields (.list σ) s (as.mapM f) fun lex s' => as.mapM (g lex s') := by
  induction as generalizing s with
  | nil => exact .pure h (by simp [Sense.list]) fun _ _ _ _ => rfl
  | cons a as ih =>
    rw [List.mapM_cons]
    simp only [List.mapM_cons]
    refine (each a (by simp) s h.stays).bind fun b s₁ move₁ known₁ => ?_
    have tail := ih move₁.sound fun a mem s' later => each a (by simp [mem]) s' (Movement.trans move₁ later)
    let y (_ : Lexicon) (s' : Store) (vs : List β) : Option (List β) := do return (← σ.read s' b) :: vs
    refine (tail.bind (y := y) fun bs s₂ move₂ known₂ => ?_).congr fun lex s' _ => ?_
    · have all : ∀ a ∈ b :: bs, σ.known s₂ a := by
        rintro a (_ | ⟨_, mem⟩)
        · exact stable b s₁ s₂ move₂ known₁
        · exact known₂ a mem
      refine .pure move₂.sound all fun s' _ _ _ => ?_
      simp only [Sense.list, List.mapM_cons, y]
      cases bs.mapM (σ.read s') <;> cases σ.read s' b <;> rfl
    · simp only [y]
      cases as.mapM (g lex s') <;> cases σ.read s' b <;> rfl

theorem map {m : Rebuilding α} {f : α → γ} {g : β → δ} (first : Yields σ s m x)
    (next : ∀ a s', s'.Sound → σ.known s' a → τ.known s' (f a) ∧
      ∀ s'', τ.read s'' (f a) = g <$> σ.read s'' a) :
    Yields τ s (f <$> m) fun lex s' => g <$> x lex s' := by
  rw [← bind_pure_comp]
  refine (first.bind (y := fun _ _ b => some (g b)) fun a s' move known => ?_).congr fun lex s' _ => ?_
  · obtain ⟨known', read⟩ := next a s' move.sound known
    refine .pure move.sound known' fun s'' _ _ _ => ?_
    rw [read]
    cases σ.read s'' a <;> rfl
  · cases x lex s' <;> rfl

end Yields

def Moves {α : Type} (s : Store) (m : Rebuilding α) : Prop := Ensures Advances s m.run fun _ _ => True

theorem Yields.moves {α β : Type} {s : Store} {σ : Sense α β} {m : Rebuilding α} {x : Lexicon → Store → Option β}
    (yields : Yields σ s m x) : Moves s m :=
  yields.imp fun _ _ _ _ => trivial

namespace Moves

variable {α β : Type} {s : Store}

theorem bind {m : Rebuilding α} {f : α → Rebuilding β} (first : Moves s m)
    (next : ∀ a s', s'.Sound → Moves s' (f a)) : Moves s (m >>= f) :=
  Ensures.except_bind first (fun _ _ _ _ => trivial) fun a s' move _ => next a s' move.sound

theorem lift {m : StoreM α} {f : α → Rebuilding β} {P : α → Store → Prop}
    (first : Ensures Advances s m P) (next : ∀ a s', s'.Sound → Moves s' (f a)) :
    Moves s (liftM m >>= f) :=
  Ensures.bind first fun a s' move _ => next a s' move.sound

theorem pure (h : s.Sound) (a : α) : Moves s (Pure.pure a) := Ensures.pure h.stays trivial

theorem throw (h : s.Sound) (e : Refusal) : Moves s (throw e : Rebuilding α) :=
  Ensures.pure h.stays trivial

theorem map {m : Rebuilding α} {f : α → β} (moves : Moves s m) : Moves s (f <$> m) := by
  rw [← bind_pure_comp]
  exact moves.bind fun a _ h => .pure h (f a)

theorem mapM {f : α → Rebuilding β} {as : List α} (h : s.Sound)
    (each : ∀ a ∈ as, ∀ s', s'.Sound → Moves s' (f a)) : Moves s (as.mapM f) := by
  induction as generalizing s with
  | nil => exact .pure h []
  | cons a as ih =>
    rw [List.mapM_cons]
    refine (each a (by simp) s h).bind fun b s₁ h₁ => ?_
    exact (ih h₁ fun a mem => each a (by simp [mem])).bind fun bs s₂ h₂ => .pure h₂ _

theorem silent {m : Rebuilding α} {f : α → Rebuilding Value} (first : Moves s m)
    (next : ∀ a s', s'.Sound → Yields .value s' (f a) fun _ _ => none) :
    Yields .value s (m >>= f) fun _ _ => none :=
  Ensures.except_bind first (fun _ _ _ _ => ⟨nofun, fun _ _ _ _ => rfl⟩) fun a s' move _ => next a s' move.sound

theorem yields {m : Rebuilding α} {f : α → Value} (moves : Moves s m)
    (silent : ∀ a s, (f a).Known s ∧ s.denote (f a) = none) : Yields .value s (f <$> m) fun _ _ => none := by
  rw [← bind_pure_comp]
  exact moves.silent fun a s' h => .pure h (silent a s').1 fun s'' _ _ _ => (silent a s'').2.symm

end Moves

namespace Rebuilding

variable {own : Option Recipe} {s : Store} {d : Recipe}

def argument (own : Option Recipe) (d : Recipe) : Argument := ⟨d, rebuild own d⟩

theorem arguments_eq (own : Option Recipe) (ds : List Recipe) : arguments own ds = ds.map (argument own) := by
  induction ds with
  | nil => rfl
  | cons d ds ih =>
    rw [arguments, List.map_cons, ih]
    rfl

def Follows (own : Option Recipe) (d : Recipe) : Prop :=
  ∀ s, s.Sound → Yields .value s (rebuild own d) fun lex s' => s'.meaning lex own d

section arguments

variable (follows : Follows own d) (h : s.Sound)

include follows h

theorem element_yields (context : String) :
    Yields .element s (element context (argument own d)) fun lex s' => (s'.reading lex own d).element? := by
  refine (follows s h).bind (y := fun _ _ m => m.element?) fun v s' move known => ?_
  cases v
  case element e => exact .pure move.sound known fun _ _ _ _ => rfl
  all_goals
    refine .throw move.sound fun s'' _ _ _ => ?_
    simp [Sense.value, denote, Option.bind_map, Meaning.element?]

theorem elementKind_yields (context : String) :
    Yields .plain s (elementKind context (argument own d)) fun lex s' => (s'.reading lex own d).elementKind? := by
  refine (follows s h).bind (y := fun _ _ m => m.elementKind?) fun v s' move _ => ?_
  cases v
  case elementKind k => exact .pure move.sound trivial fun _ _ _ _ => rfl
  all_goals
    refine .throw move.sound fun s'' _ _ _ => ?_
    simp [Sense.value, denote, Option.bind_map, Meaning.elementKind?]

theorem typeKind_yields :
    Yields .plain s (typeKind (argument own d)) fun lex s' => (s'.reading lex own d).typeKind? := by
  refine (follows s h).bind (y := fun _ _ m => m.typeKind?) fun v s' move _ => ?_
  cases v
  case typeKind k => exact .pure move.sound trivial fun _ _ _ _ => rfl
  all_goals
    refine .throw move.sound fun s'' _ _ _ => ?_
    simp [Sense.value, denote, Option.bind_map, Meaning.typeKind?]

theorem name_yields :
    Yields .plain s (name (argument own d)) fun lex s' => (s'.reading lex own d).name? := by
  refine (follows s h).bind (y := fun _ _ m => m.name?) fun v s' move known => ?_
  cases v
  case name key =>
    refine .get ?_
    have same (s'' : Store) (later : s'.Advances s'') : s''.names.get? key = s'.names.get? key :=
      NameTable.get?_of_longer later.moves.grows.names known
    cases found : s'.names.get? key with
    | none =>
      refine .throw move.sound fun s'' later _ _ => ?_
      simp [Sense.value, denote, same s'' later, found]
    | some text =>
      refine .pure move.sound trivial fun s'' later _ _ => ?_
      simp [Sense.value, denote, same s'' later, found, Meaning.name?, Sense.plain]
  all_goals
    refine .throw move.sound fun s'' _ _ _ => ?_
    simp [Sense.value, denote, Option.bind_map, Meaning.name?]

omit follows in
theorem typeOf_yields (context : String) {v : Value} (known : ∀ t, v = .type t → s.HasType t) :
    Yields .type s (typeOf context v) fun _ s' => s'.itemType v := by
  cases v
  case type t => exact .pure h (known t rfl) fun _ _ _ _ => rfl
  all_goals exact .throw h fun _ _ _ _ => rfl

theorem type_yields (context : String) :
    Yields .type s (type context (argument own d)) fun lex s' => (s'.reading lex own d).type? := by
  refine (follows s h).bind (y := fun _ _ m => m.type?) fun v s' move known => ?_
  exact (typeOf_yields move.sound context known.type).congr fun _ s'' _ => s''.denote_type? v

theorem optional_yields (context : String) :
    Yields .optional s (type? context (argument own d)) fun lex s' => (s'.reading lex own d).optional? := by
  refine (follows s h).bind (y := fun _ _ m => m.optional?) fun v s' move known => ?_
  have some_ : Yields .optional s' (some <$> typeOf context v) fun _ s'' => some <$> s''.itemType v :=
    (typeOf_yields move.sound context known.type).map fun t s'' _ known' =>
      ⟨by rintro _ ⟨⟩; exact known', fun _ => rfl⟩
  cases v
  case null => exact .pure move.sound nofun fun _ _ _ _ => rfl
  all_goals
    refine some_.congr fun _ s'' _ => ?_
    simp [Sense.value, denote, Option.bind_map, itemType, Meaning.optional?]

theorem types_yields (context itemContext : String) :
    Yields .types s (types context itemContext (argument own d)) fun lex s' => (s'.reading lex own d).types? := by
  refine (follows s h).bind (y := fun _ _ m => m.types?) fun v s' move known => ?_
  cases v
  case list items =>
    have each : Yields (.list .type) s' (items.mapM (typeOf itemContext)) fun _ s'' =>
        items.mapM s''.itemType :=
      .mapM move.sound (fun _ _ _ move => move.moves.grows.has_type) fun v mem s'' later =>
        typeOf_yields later.sound itemContext fun t same => later.moves.grows.has_type (known t (same ▸ mem))
    have whole : Yields .types s' (items.mapM (typeOf itemContext)) fun _ s'' =>
        items.mapM s''.itemType >>= some :=
      each.reread (fun _ _ => id) fun ts s'' => by
        have all : ts.mapM (fun t => some (s''.tree t)) = some (ts.map s''.tree) := List.mapM_pure
        simp [Sense.list, Sense.types, Sense.type, all]
    exact whole.congr fun _ s'' _ => (s''.denote_types? items).trans (bind_pure _).symm
  all_goals
    refine .throw move.sound fun s'' _ _ _ => ?_
    simp [Sense.value, denote, Option.bind_map, Meaning.types?]

end arguments

section results

theorem found_yields {x : Store → Option ElementId} {e? : Option ElementId} (role name : String)
    (h : s.Sound) (settled : Settled s x e?) (there : ∀ e, x s = some e → s.HasElement e) :
    Yields .value s (found role name e?) fun _ s' => .element <$> x s' := by
  cases e? with
  | none =>
    refine .throw h fun s' move _ _ => ?_
    rw [settled s' move]
    rfl
  | some e =>
    refine .pure h (there e (settled s h.stays)) fun s' move _ _ => ?_
    rw [settled s' move]
    rfl

theorem made_yields {m : Checked TypeId} {t? : Option TypeTree}
    (offers : Ensures Advances s m.run (Offers t?)) :
    Yields .value s (.type <$> ofChecked m) fun _ _ => .type <$> t? := by
  have checked : Yields .type s (ofChecked m) fun _ _ => t? := by
    refine Ensures.map (f := Except.mapError Refusal.fault) (offers.imp fun r s' _ offered => ?_)
    cases r with
    | error e => exact ⟨nofun, fun _ _ _ _ => offered⟩
    | ok t =>
      obtain ⟨known, made⟩ := offered
      refine ⟨?_, fun s'' later _ _ => ?_⟩
      · rintro _ ⟨⟩
        exact known
      · rw [made, ← later.tree known]
        rfl
  exact checked.map fun t s' _ known => ⟨known, fun _ => rfl⟩

end results

section factories

variable {a b : Recipe}

theorem indexed_yields (first : Follows own a) (h : s.Sound) (role : String)
    (index : Store → NameIndex) {p : ElementKind → Bool}
    (indexes : ∀ s : Store, s.Sound → s.Indexes p (index s))
    (same : ∀ s s' : Store, s.Advances s' → index s' = index s) :
    Yields .value s (do
      let n ← name (argument own a)
      found role n ((index (← get)).find? n)) fun lex s' => (do
        let n ← (s'.reading lex own a).name?
        .element <$> (index s').find? n) := by
  refine (name_yields first h).bind fun n s₁ move _ => .get ?_
  refine found_yields (x := fun s' => (index s').find? n) role n move.sound (fun s₂ later => ?_)
    fun e found => ?_
  · dsimp only
    rw [same s₁ s₂ later]
  · obtain ⟨slot, there, _⟩ := (indexes s₁ move.sound n e).mp found
    exact has_element_iff.mpr ⟨slot, there⟩

theorem owned_yields (first : Follows own a) (second : Follows own b) (h : s.Sound)
    (role context : String) {look : ElementId → String → StoreM (Option ElementId)}
    {p : ElementKind → Bool}
    (looks : ∀ s o n, s.Sound → s.HasElement o → Ensures Advances s (look o n) fun e? s' =>
      Settled s' (·.lookup o p n) e?) :
    Yields .value s (do
      let o ← element context (argument own a)
      let n ← name (argument own b)
      found role n (← look o n)) fun lex s' => (do
        let o ← (s'.reading lex own a).element?
        let n ← (s'.reading lex own b).name?
        .element <$> s'.lookup o p n) := by
  refine (element_yields first h context).bind fun o s₁ move₁ there => ?_
  refine (name_yields second move₁.sound).bind fun n s₂ move₂ _ => ?_
  refine .lift (looks s₂ o n move₂.sound (move₂.moves.grows.has_element there)) fun e? s₃ move₃ settled => ?_
  exact found_yields (x := (·.lookup o p n)) role n move₃.sound settled fun e found =>
    there_of_ownedOf (List.mem_of_find?_eq_some found)

theorem executable_yields {c d : Recipe} (first : Follows own a) (second : Follows own b)
    (third : Follows own c) (fourth : Follows own d) (h : s.Sound) :
    Yields .value s (build own .executableElement
      [argument own a, argument own b, argument own c, argument own d]) fun lex s' =>
        s'.built lex .executableElement [s'.reading lex own a, s'.reading lex own b, s'.reading lex own c, s'.reading lex own d] := by
  refine (element_yields first h _).bind fun o s₁ move₁ there => ?_
  refine (elementKind_yields second move₁.sound _).bind fun k s₂ move₂ _ => ?_
  refine (name_yields third move₂.sound).bind fun n s₃ move₃ _ => ?_
  refine (types_yields fourth move₃.sound _ _).bind fun ts s₄ move₄ known => ?_
  have from₁ := Movement.trans move₂ (Movement.trans move₃ move₄)
  refine .lift (executable?_ensures move₄.sound (from₁.moves.grows.has_element there) n known)
    fun e? s₅ move₅ settled => ?_
  refine (found_yields k.name n move₅.sound settled fun e found => ?_).congr fun lex s₆ _ => ?_
  · split at found
    · exact there_of_ownedOf (List.mem_of_find?_eq_some found)
    · cases found
  · simp [Sense.types, List.map_map, Function.comp_def]

theorem declared_yields {c : Recipe} (first : Follows own a) (second : Follows own b)
    (third : Follows own c) (h : s.Sound) :
    Yields .value s (build own .declaredType [argument own a, argument own b, argument own c]) fun lex s' =>
      s'.built lex .declaredType [s'.reading lex own a, s'.reading lex own b, s'.reading lex own c] := by
  refine (optional_yields first h _).bind fun o s₁ move₁ outer => ?_
  refine (element_yields second move₁.sound _).bind fun e s₂ move₂ there => ?_
  refine (types_yields third move₂.sound _ _).bind fun ts s₃ move₃ known => ?_
  have outer₃ : ∀ t ∈ o, s₃.HasType t := fun t mem =>
    (Movement.trans move₂ move₃).moves.grows.has_type (outer t mem)
  refine (made_yields (declaredType_offers (e := e) move₃.sound outer₃ known)).congr fun lex s₄ later => ?_
  have there₃ : s₃.HasElement e := move₃.moves.grows.has_element there
  simp only [Sense.types, Option.bind_eq_bind, Option.bind_some]
  rw [later.optional_tree outer₃, later.map_tree known, later.usage there₃]

theorem wildcard_yields (first : Follows own a) (second : Follows own b) (h : s.Sound) :
    Yields .value s (build own .wildcardType [argument own a, argument own b]) fun lex s' =>
      s'.built lex .wildcardType [s'.reading lex own a, s'.reading lex own b] := by
  refine (optional_yields first h _).bind fun upper s₁ move₁ above => ?_
  refine (optional_yields second move₁.sound _).bind fun lower s₂ move₂ below => ?_
  have above₂ : ∀ t ∈ upper, s₂.HasType t := fun t mem => move₂.moves.grows.has_type (above t mem)
  refine (made_yields (wildcardType_offers move₂.sound above₂ below)).congr fun lex s₃ later => ?_
  simp only [Sense.optional, Option.bind_eq_bind, Option.bind_some]
  rw [later.optional_tree above₂, later.optional_tree below]

theorem variable_yields (first : Follows own a) (h : s.Sound) :
    Yields .value s (build own .typeVariable [argument own a]) fun lex s' =>
      s'.built lex .typeVariable [s'.reading lex own a] := by
  refine (element_yields first h _).bind fun e s₁ move₁ there => ?_
  refine (made_yields (typeVariable_offers move₁.sound there)).congr fun lex s₂ later => ?_
  obtain ⟨slot, found⟩ := has_element_iff.mp there
  obtain ⟨children, state, found'⟩ := later.slot found
  simp only [Sense.element, Option.bind_eq_bind, Option.bind_some, kind?, found, found', Option.map_some]
  split <;> rfl

theorem list_yields {ds : List Recipe} (follows : ∀ d ∈ ds, Follows own d) (h : s.Sound) :
    Yields .value s (.list <$> (ds.map (argument own)).mapM (·.value)) fun lex s' =>
      .types <$> (ds.map (s'.reading lex own)).mapM (·.type?) := by
  let item : Sense Value TypeTree := ⟨fun s v => ∀ t, v = .type t → s.HasType t, itemType⟩
  have each : Yields (.list item) s ((ds.map (argument own)).mapM (·.value)) fun lex s' =>
      (ds.map (s'.reading lex own)).mapM (·.type?) := by
    simp only [List.mapM_map]
    refine .mapM h (fun v s s' move known t same => move.moves.grows.has_type (known t same))
      fun d mem s' move => ?_
    exact (follows d mem s' move.sound).reread (fun _ _ known => known.type) fun v s'' =>
      (s''.denote_type? v).symm
  refine each.map fun vs s' _ known => ⟨?_, fun _ => rfl⟩
  intro t mem
  exact known (.type t) mem t rfl

theorem named_yields (h : s.Sound) :
    Yields .value s (build own .name [argument own a]) fun lex s' => s'.built lex .name [s'.reading lex own a] := by
  cases a
  case str text =>
    change Yields .value s (Value.name <$> liftM (StoreM.internName text)) fun lex _ => .name <$> lex text
    rw [← bind_pure_comp]
    refine .lift (h.ensures (internName_ensures h.toConsistent text)) fun key s₁ move same => ?_
    have names : s₁.names = (s.names.intern text).2 := congrArg Prod.snd same
    obtain rfl : key = (s.names.intern text).1 := congrArg Prod.fst same
    have bound : (s.names.intern text).1.index.toNat < s₁.names.size :=
      names ▸ s.names.intern_in_range text
    refine .pure move.sound bound fun s₂ later lex reads => ?_
    have taken : lex text = s₁.names.get? (s.names.intern text).1 :=
      reads _ _ (names ▸ s.names.find?_intern text)
    rw [taken, ← NameTable.get?_of_longer later.moves.grows.names bound]
    rfl
  all_goals exact .throw h fun _ _ _ _ => rfl

section silent

mutual

theorem annotationValue_moves (member : String) :
    (v : Value) → ∀ {s : Store}, s.Sound → Moves s (annotationValue member v)
  | .element e, s, h => by
    rw [annotationValue]
    refine .lift (h.ensures (complete_ensures h.toConsistent e)) fun r s₁ h₁ => ?_
    split
    · exact .pure h₁ _
    · exact .throw h₁ _
  | .list items, s, h => by
    rw [annotationValue]
    exact (annotationValues_moves member items h).map
  | .bool _, s, h | .int _, s, h | .str _, s, h | .type _, s, h => by
    rw [annotationValue]
    exact .pure h _
  | .null, s, h | .name _, s, h | .elementKind _, s, h | .typeKind _, s, h | .domain _, s, h
  | .annotationUse _, s, h | .map _, s, h | .entry .., s, h => .throw h _

theorem annotationValues_moves (member : String) :
    (vs : List Value) → ∀ {s : Store}, s.Sound → Moves s (annotationValues member vs)
  | [], s, h => .pure h _
  | v :: rest, s, h => by
    rw [annotationValues]
    exact (annotationValue_moves member v h).bind fun v s₁ h₁ =>
      (annotationValues_moves member rest h₁).bind fun vs s₂ h₂ => .pure h₂ _

end

theorem annotationMember_moves (entry : Value × Value) (h : s.Sound) : Moves s (annotationMember entry) := by
  obtain ⟨k, v⟩ := entry
  cases k
  case str member => exact (annotationValue_moves member v h).bind fun v s₁ h₁ => .pure h₁ _
  all_goals exact .throw h _

theorem pairs_moves : (ds : List Recipe) → (∀ d ∈ ds, Follows own d) → ∀ {s : Store}, s.Sound →
    Moves s (pairs (ds.map (argument own)))
  | k :: v :: rest, follows, s, h => by
    rw [List.map_cons, List.map_cons, pairs]
    refine (follows k (by simp) s h).moves.bind fun k' s₁ h₁ => ?_
    refine (follows v (by simp) s₁ h₁).moves.bind fun v' s₂ h₂ => ?_
    exact (pairs_moves rest (fun d mem => follows d (by simp [mem])) h₂).bind fun entries s₃ h₃ => .pure h₃ _
  | [], _, _, h | [_], _, _, h => .pure h _

theorem entryOf_moves (v : Value) (h : s.Sound) : Moves s (entryOf v) := by
  cases v
  case entry k v => exact .pure h (k, v)
  all_goals exact .throw h _

theorem entry_moves (follows : Follows own a) (h : s.Sound) : Moves s (entry (argument own a)) :=
  (follows s h).moves.bind fun v _ h₁ => entryOf_moves v h₁

theorem annotationOf_yields (type : TypeId) (v : Value) (h : s.Sound) :
    Yields .value s (annotationOf type v) fun _ _ => none := by
  cases v
  case map entries =>
    have members : Moves s (entries.mapM annotationMember) :=
      .mapM h fun entry _ s' => annotationMember_moves entry
    exact members.silent fun members s₁ h₁ => .pure h₁ trivial fun _ _ _ _ => rfl
  all_goals exact .throw h fun _ _ _ _ => rfl

theorem annotationUse_yields (first : Follows own a) (second : Follows own b) (h : s.Sound) :
    Yields .value s (annotationUse (argument own a) (argument own b)) fun _ _ => none := by
  refine (type_yields first h _).moves.silent fun t s₁ h₁ => ?_
  exact (second s₁ h₁).moves.silent fun v s₂ h₂ => annotationOf_yields t v h₂

end silent

theorem build_yields {f : Factory} {ds : List Recipe} (follows : ∀ d ∈ ds, Follows own d) (h : s.Sound)
    (number : ∀ n, f.arity? = some n → ds.length + (if f.takesDomain then 1 else 0) = n) :
    Yields .value s (build own f (ds.map (argument own))) fun lex s' =>
      s'.built lex f (ds.map (s'.reading lex own)) := by
  have one (n : f.arity? = some 2 ∧ f.takesDomain) : ∃ a, ds = [a] := by
    have length := number 2 n.1
    rw [if_pos n.2] at length
    exact List.length_eq_one_iff.mp (Nat.succ_inj.mp length)
  have two (n : f.arity? = some 3 ∧ f.takesDomain) : ∃ a b, ds = [a, b] := by
    have length := number 3 n.1
    rw [if_pos n.2] at length
    exact List.length_eq_two.mp (Nat.succ_inj.mp length)
  cases f with
  | moduleElement =>
    obtain ⟨a, rfl⟩ := one ⟨rfl, rfl⟩
    exact indexed_yields (follows a (by simp)) h "module" (·.modules) (fun _ h => h.modules)
      fun _ _ move => move.moves.modules
  | packageElement =>
    obtain ⟨a, rfl⟩ := one ⟨rfl, rfl⟩
    exact indexed_yields (follows a (by simp)) h "package" (·.packages) (fun _ h => h.packages)
      fun _ _ move => move.moves.packages
  | typeElement =>
    obtain ⟨a, rfl⟩ := one ⟨rfl, rfl⟩
    exact indexed_yields (follows a (by simp)) h "type" (·.typeElements) (fun _ h => h.typeElements)
      fun _ _ move => move.moves.typeElements
  | typeParameterElement =>
    obtain ⟨a, b, rfl⟩ := two ⟨rfl, rfl⟩
    exact owned_yields (follows a (by simp)) (follows b (by simp)) h "type parameter" "generic element"
      fun _ _ n h there => typeParameter?_ensures h there n
  | variableElement =>
    obtain ⟨a, b, rfl⟩ := two ⟨rfl, rfl⟩
    exact owned_yields (follows a (by simp)) (follows b (by simp)) h "variable" "enclosing element"
      fun _ _ n h there => memberVariable?_ensures h there n
  | recordComponentElement =>
    obtain ⟨a, b, rfl⟩ := two ⟨rfl, rfl⟩
    exact owned_yields (follows a (by simp)) (follows b (by simp)) h "record component" "record"
      fun _ _ n h there => recordComponent?_ensures h there n
  | arrayType =>
    obtain ⟨a, rfl⟩ := one ⟨rfl, rfl⟩
    refine (type_yields (follows a (by simp)) h _).bind fun t s₁ move known => ?_
    refine (made_yields (arrayType_offers move.sound known)).congr fun lex s₂ later => ?_
    simp only [Sense.type, Option.bind_eq_bind, Option.bind_some, later.tree known]
  | primitiveType =>
    obtain ⟨a, rfl⟩ := one ⟨rfl, rfl⟩
    refine (typeKind_yields (follows a (by simp)) h).bind fun k s₁ move _ => ?_
    refine (made_yields (primitiveType_offers move.sound k)).congr fun lex s₂ _ => ?_
    simp [Sense.plain, Function.comp_def]
  | noType =>
    obtain ⟨a, rfl⟩ := one ⟨rfl, rfl⟩
    refine (typeKind_yields (follows a (by simp)) h).bind fun k s₁ move _ => ?_
    exact made_yields (noType_offers move.sound k)
  | typeVariable =>
    obtain ⟨a, rfl⟩ := one ⟨rfl, rfl⟩
    exact variable_yields (follows a (by simp)) h
  | wildcardType =>
    obtain ⟨a, b, rfl⟩ := two ⟨rfl, rfl⟩
    exact wildcard_yields (follows a (by simp)) (follows b (by simp)) h
  | listOf n => exact list_yields follows h
  | listOfArray => exact list_yields follows h
  | name =>
    obtain ⟨a, rfl⟩ := one ⟨rfl, rfl⟩
    exact named_yields h
  | annotationUse =>
    obtain ⟨a, b, rfl⟩ := two ⟨rfl, rfl⟩
    exact annotationUse_yields (follows a (by simp)) (follows b (by simp)) h
  | executableElement =>
    obtain ⟨a, b, c, d, rfl⟩ : ∃ a b c d, ds = [a, b, c, d] := by
      have length : ds.length = 4 := Nat.succ_inj.mp (number 5 rfl)
      match ds, length with
      | [a, b, c, d], _ => exact ⟨a, b, c, d, rfl⟩
    exact executable_yields (follows a (by simp)) (follows b (by simp)) (follows c (by simp))
      (follows d (by simp)) h
  | declaredType =>
    obtain ⟨a, b, c, rfl⟩ := List.length_eq_three.mp (Nat.succ_inj.mp (number 4 rfl))
    exact declared_yields (follows a (by simp)) (follows b (by simp)) (follows c (by simp)) h
  | nullType =>
    refine .pure h (h.has_initial (by decide)) fun s' move _ _ => ?_
    exact congrArg (fun t => some (Meaning.type t)) move.sound.tree_null.symm
  | mapOf n => exact (pairs_moves ds follows h).yields fun _ _ => ⟨trivial, rfl⟩
  | mapOfEntries =>
    have entries : Moves s ((ds.map (argument own)).mapM entry) := by
      rw [List.mapM_map]
      exact .mapM h fun d mem s' => entry_moves (follows d mem)
    exact entries.yields fun _ _ => ⟨trivial, rfl⟩
  | mapEntry =>
    obtain ⟨a, b, rfl⟩ := List.length_eq_two.mp (number 2 rfl)
    refine (follows a (by simp) s h).moves.silent fun k s₁ h₁ => ?_
    exact (follows b (by simp) s₁ h₁).moves.silent fun v s₂ h₂ => .pure h₂ trivial fun _ _ _ _ => rfl
  | runtimeDomain => exact .pure h trivial fun _ _ _ _ => rfl

end factories

theorem checkArity_yields {n : Nat} {m : Rebuilding Value} {f : Factory} {x : Lexicon → Store → Option Meaning}
    (h : s.Sound) (next : (∀ k, f.arity? = some k → n = k) → Yields .value s m x) :
    Yields .value s (do checkArity f n; m) fun lex s' => if f.arity?.all (n == ·) then x lex s' else none := by
  unfold checkArity
  cases number : f.arity? with
  | none => exact next fun k same => by simp [number] at same
  | some k =>
    by_cases same : n = k
    · simp only [same, ↓reduceIte, Option.all_some, BEq.rfl]
      exact next fun k' number' => by simp_all
    · simp only [same, ↓reduceIte, Option.all_some, beq_iff_eq]
      exact .throw h fun _ _ _ _ => rfl

theorem checkedBuild_yields {f : Factory} {ds : List Recipe} (follows : ∀ d ∈ ds, Follows own d) (h : s.Sound)
    (number : ∀ k, f.arity? = some k → ds.length = k) :
    Yields .value s (if f.takesDomain then
        match ds.map (argument own) with
        | [] => throw (.arity f 1 0)
        | domain :: args => do
          checkDomain own domain.recipe
          build own f args
      else build own f (ds.map (argument own))) fun lex s' =>
      if f.takesDomain then
        match ds.map (s'.reading lex own) with
        | [] => none
        | domain :: args => if own = some domain.recipe then s'.built lex f args else none
      else s'.built lex f (ds.map (s'.reading lex own)) := by
  cases takes : f.takesDomain with
  | false => exact build_yields follows h fun n same => by simp [takes, number n same]
  | true =>
    cases ds with
    | nil => exact .throw h fun _ _ _ _ => rfl
    | cons d ds =>
      simp only [List.map_cons, ↓reduceIte, checkDomain, argument, Store.reading]
      split
      · exact build_yields (fun d mem => follows d (by simp [mem])) h fun n same => by
          simpa [takes] using number n same
      · exact .throw h fun _ _ _ _ => rfl

theorem invoke_yields {f : Factory} {ds : List Recipe} (follows : ∀ d ∈ ds, Follows own d) (h : s.Sound) :
    Yields .value s (invoke own f (ds.map (argument own))) fun lex s' =>
      s'.invoked lex own f (ds.map (s'.reading lex own)) := by
  have body := checkedBuild_yields (f := f) follows h
  rw [← List.length_map (f := argument own)] at body
  refine (checkArity_yields h body).congr fun lex s' _ => ?_
  have number : (ds.map (argument own)).length = (ds.map (s'.reading lex own)).length := by
    rw [List.length_map, List.length_map]
  rw [number]
  rfl

mutual

/-- Whatever recipe is followed, it comes to what it stands for. -/
theorem rebuild_follows (own : Option Recipe) : (d : Recipe) → Follows own d
  | .null | .elementKind _ | .typeKind _ | .bool _ | .int _ | .str _ => fun _ h =>
    .pure h trivial fun _ _ _ _ => rfl
  | .invoke f args => fun s h => by
    rw [rebuild, arguments_eq]
    refine (invoke_yields (arguments_follow own args) h).congr fun lex s' _ => ?_
    rw [meaning, readings_eq]

theorem arguments_follow (own : Option Recipe) : (ds : List Recipe) → ∀ d ∈ ds, Follows own d
  | [] => nofun
  | d :: ds => List.forall_mem_cons.mpr ⟨rebuild_follows own d, arguments_follow own ds⟩

end

end Rebuilding

end Nominal
