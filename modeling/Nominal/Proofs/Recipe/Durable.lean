import Nominal.Proofs.ByName
import Nominal.Proofs.Recipe.Provenance
import Nominal.Proofs.Recipe.RoundTrip
/-!
Recipes are durable: what a recipe was once followed to, it can be followed to again, whatever is asked of the
store in between. Types that are made again have other handles, but they are the same types.
-/

namespace Nominal

open Store StoreM Rebuilding

/-- Values that say the same: literals, keys and elements are equal, types and annotations are the same, and
collections agree item by item. -/
inductive Store.Alike (s : Store) : Value → Value → Prop
  | null : Alike s .null .null
  | bool (b : Bool) : Alike s (.bool b) (.bool b)
  | int (n : Int64) : Alike s (.int n) (.int n)
  | str (text : String) : Alike s (.str text) (.str text)
  | name (key : NameKey) : Alike s (.name key) (.name key)
  | elementKind (k : ElementKind) : Alike s (.elementKind k) (.elementKind k)
  | typeKind (k : TypeKind) : Alike s (.typeKind k) (.typeKind k)
  | domain (d : HomeDomain) : Alike s (.domain d) (.domain d)
  | element (e : ElementId) : Alike s (.element e) (.element e)
  | type {t u : TypeId} : s.sameType t u → Alike s (.type t) (.type u)
  | annotationUse {a b : AnnotationUse} : s.sameAnnotationUse a b → Alike s (.annotationUse a) (.annotationUse b)
  | list {vs ws : List Value} : List.Forall₂ (Alike s) vs ws → Alike s (.list vs) (.list ws)
  | map {vs ws : List (Value × Value)} :
    List.Forall₂ (Alike s) (vs.map fun v => .entry v.1 v.2) (ws.map fun w => .entry w.1 w.2) →
    Alike s (.map vs) (.map ws)
  | entry {k v l w : Value} : Alike s k l → Alike s v w → Alike s (.entry k v) (.entry l w)

def Factory.isConstruct : Factory → Bool
  | moduleElement | packageElement | typeElement | typeParameterElement | executableElement
  | variableElement | recordComponentElement | declaredType | arrayType | primitiveType | noType | nullType
  | typeVariable | wildcardType => true
  | _ => false

namespace Store

def Henceforth (s : Store) (P : Store → Prop) : Prop := ∀ s', s.Advances s' → P s'

variable {s s' : Store} {P : Store → Prop}

theorem Henceforth.now (always : s.Henceforth P) (h : s.Sound) : P s := always s h.stays

theorem Henceforth.each {α β : Type} {P : Store → α → β → Prop} {as : List α} {bs : List β} (h : s.Sound)
    (all : s.Henceforth fun s' => List.Forall₂ (P s') as bs) :
    List.Forall₂ (fun a b => s.Henceforth (P · a b)) as bs :=
  List.forall₂_iff_zip.mpr ⟨(all s h.stays).length_eq, fun mem s' later =>
    (List.forall₂_iff_zip.mp (all s' later)).2 mem⟩

theorem Henceforth.later (always : s.Henceforth P) (move : s.Advances s') : s'.Henceforth P :=
  fun s'' move' => always s'' (Movement.trans move move')

end Store

/-- What one computation came to, another one comes to later, up to `R`. The second may count on `P`. -/
structure Repeats {α : Type} (P : Store → Prop) (R : Store → α → α → Prop) (m m' : Rebuilding α) :
    Prop where
  moves : ∀ s, s.Sound → Moves s m
  moves' : ∀ s, s.Sound → Moves s m'
  again : ∀ {s t s₁ t₁ a r}, s.Sound → t.Henceforth P → m.run s = (.ok a, s₁) → s₁.Retains t →
    m'.run t = (r, t₁) → ∃ b, r = .ok b ∧ t₁.Henceforth (R · a b)

namespace Repeats

variable {α β γ : Type} {P : Store → Prop} {R : Store → α → α → Prop} {Q : Store → β → β → Prop}
  {m m' : Rebuilding α}

theorem pure {a b : α} (related : ∀ s, P s → R s a b) : Repeats P R (Pure.pure a) (Pure.pure b) where
  moves s h := .pure h a
  moves' s h := .pure h b
  again _ always run _ run' := by
    cases run
    cases run'
    exact ⟨b, rfl, fun t move => related t (always t move)⟩

theorem throw {e : Refusal} (moves : ∀ s, s.Sound → Moves s m') : Repeats P R (throw e) m' where
  moves s h := .throw h e
  moves' := moves
  again _ _ run := by cases run

theorem bind {f f' : α → Rebuilding β} (first : Repeats P R m m')
    (next : ∀ a b, Repeats (fun s => P s ∧ R s a b) Q (f a) (f' b)) : Repeats P Q (m >>= f) (m' >>= f') where
  moves s h := (first.moves s h).bind fun a s' h' => (next a a).moves s' h'
  moves' s h := (first.moves' s h).bind fun a s' h' => (next a a).moves' s' h'
  again {s t s₂ t₂ c r} h always run retained run' := by
    rw [run_bind] at run run'
    split at run
    · rename_i a s₁ first_s
      have sound₁ := (first.moves s h |>.result first_s).1.sound
      have move : s₁.Advances s₂ := (Ensures.result ((next a a).moves s₁ sound₁) run).1
      have retained₁ : s₁.Retains t := Movement.trans move.toRetains retained
      split at run'
      · rename_i b t₁ first_t
        have move' : t.Advances t₁ := (Ensures.result (first.moves' t retained.sound) first_t).1
        obtain ⟨b', same, related⟩ := first.again h always first_s retained₁ first_t
        cases same
        exact (next a b).again (Ensures.result (first.moves s h) first_s).1.sound
          (fun t' move'' => ⟨always t' (Movement.trans move' move''), related t' move''⟩) run
          (Movement.trans retained move'.toRetains) run'
      · rename_i e t₁ first_t
        cases run'
        obtain ⟨_, contra, _⟩ := first.again h always first_s retained₁ first_t
        cases contra
    · cases run

theorem weaken {P' : Store → Prop} (repeats : Repeats P R m m') (weaker : ∀ s, P' s → P s) :
    Repeats P' R m m' where
  moves := repeats.moves
  moves' := repeats.moves'
  again h always := repeats.again h fun t move => weaker t (always t move)

theorem given (moves : ∀ s, s.Sound → Moves s m) (moves' : ∀ s, s.Sound → Moves s m')
    (each : ∀ s, P s → Repeats P R m m') : Repeats P R m m' where
  moves := moves
  moves' := moves'
  again h always run retained := (each _ (always.now retained.sound)).again h always run retained

theorem map {f : α → β} (first : Repeats P R m m') (related : ∀ a b s, P s → R s a b → Q s (f a) (f b)) :
    Repeats P Q (f <$> m) (f <$> m') := by
  rw [← bind_pure_comp, ← bind_pure_comp]
  exact first.bind fun a b => .pure fun s ⟨before, same⟩ => related a b s before same

theorem mapM {f f' : γ → Rebuilding α} {as bs : List γ}
    (each : List.Forall₂ (fun a b => Repeats P R (f a) (f' b)) as bs) :
    Repeats P (fun s => List.Forall₂ (R s)) (as.mapM f) (bs.mapM f') := by
  induction each with
  | nil => exact .pure fun _ _ => .nil
  | cons head _ ih =>
    rw [List.mapM_cons, List.mapM_cons]
    refine head.bind fun a b => ?_
    refine (ih.weaken fun s => And.left).bind fun as bs => ?_
    exact .pure fun s ⟨⟨_, first⟩, rest⟩ => .cons first rest

end Repeats

namespace Store

variable {s : Store} {v w : Value}

theorem alike_map_iff {es fs : List (Value × Value)} : s.Alike (.map es) (.map fs) ↔
    List.Forall₂ (fun e f => s.Alike (.entry e.1 e.2) (.entry f.1 f.2)) es fs := by
  rw [← List.forall₂_map_right_iff, ← List.forall₂_map_left_iff]
  exact ⟨fun alike => by cases alike; assumption, .map⟩

theorem sameList_of_forall₂ {α : Type} {same : α → α → Bool} {as bs : List α}
    (all : List.Forall₂ (fun a b => same a b) as bs) : sameList same as bs := by
  induction all with
  | nil => rfl
  | cons head _ ih => simp [sameList, head, ih]

theorem sameValues_of_forall₂ {vs ws : List AnnotationValue}
    (all : List.Forall₂ (fun v w => s.sameValue v w) vs ws) : s.sameValues vs ws := by
  induction all with
  | nil => rfl
  | cons head _ ih => simp [sameValues, head, ih]

end Store

def Store.SameMember (s : Store) (a b : String × AnnotationValue) : Prop := a.1 = b.1 ∧ s.sameValue a.2 b.2

theorem Store.sameAnnotationUse_ofList {s : Store} {t u : TypeId} {as bs : List (String × AnnotationValue)}
    (type : s.sameType t u) (members : List.Forall₂ s.SameMember as bs) :
    s.sameAnnotationUse { type := t, values := .ofList as } { type := u, values := .ofList bs } := by
  rw [sameAnnotationUse, Bool.and_eq_true]
  have members : List.Forall₂ (ByName.Entry fun v w => s.sameValue v w) as bs := members
  refine ⟨type, sameList_of_forall₂ ((ByName.ofList_entries members).imp fun a b same => ?_)⟩
  rw [Bool.and_eq_true, beq_iff_eq]
  exact same

namespace Rebuilding

variable {s : Store} {v w : Value}

theorem typeOf_moves (context : String) (v : Value) (h : s.Sound) : Moves s (typeOf context v) := by
  cases v
  case type t => exact .pure h t
  all_goals exact .throw h _

theorem typeOf_repeats (context : String) (v w : Value) :
    Repeats (·.Alike v w) (fun s t u => s.sameType t u) (typeOf context v) (typeOf context w) := by
  refine .given (fun s h => typeOf_moves context v h) (fun s h => typeOf_moves context w h) fun s alike => ?_
  cases alike with
  | type _ => exact .pure fun s alike => by cases alike; assumption
  | _ => exact .throw fun s h => typeOf_moves context _ h

theorem complete_repeats {P : Store → Prop} (e : ElementId) :
    Repeats P (fun _ r r' => r.kind = .enumConstant → r'.kind = .enumConstant) (liftM (complete e))
      (liftM (complete e)) where
  moves s h := (h.ensures (complete_ensures h.toConsistent e)).imp fun _ _ _ _ => trivial
  moves' s h := (h.ensures (complete_ensures h.toConsistent e)).imp fun _ _ _ _ => trivial
  again {s t s₁ t₁ r r'} h _ run retained run' := by
    cases run
    cases run'
    refine ⟨_, rfl, fun t' _ constant => ?_⟩
    have answered := (complete_ensures h.toConsistent e).2
    have kind : (complete e s).2.kind? e = some .enumConstant := by
      rw [← constant]
      exact retained.start.kind_answered answered fun same => by rw [same] at constant; cases constant
    obtain ⟨slot, found, same⟩ := kind?_eq_some_iff.mp (retained.grows.kind kind)
    exact (complete_fits retained.sound.stays found).2.kind.trans same

mutual

theorem annotationValue_repeats (member : String) : (v w : Value) →
    Repeats (·.Alike v w) (fun s a b => s.sameValue a b) (annotationValue member v) (annotationValue member w)
  | .list vs, w => by
    refine .given (fun s h => annotationValue_moves member _ h) (fun s h => annotationValue_moves member _ h)
      fun s alike => ?_
    cases alike with
    | @list _ ws _ =>
      rw [annotationValue, annotationValue]
      refine ((annotationValues_repeats member vs ws).weaken fun s alike => ?_).map fun as bs s _ same => ?_
      · cases alike
        assumption
      · exact sameValues_of_forall₂ same
  | .element e, w => by
    refine .given (fun s h => annotationValue_moves member _ h) (fun s h => annotationValue_moves member _ h)
      fun s alike => ?_
    cases alike
    rw [annotationValue]
    refine (complete_repeats e).bind fun r r' => ?_
    have moves (r : ElementRecord) (s : Store) (h : s.Sound) : Moves s (if r.kind = .enumConstant
        then pure (AnnotationValue.enumConstant e)
        else throw (.shape s!"value of `{member}`" "an annotation value")) := by
      split
      · exact .pure h _
      · exact .throw h _
    refine .given (moves r) (moves r') fun s ⟨_, same⟩ => ?_
    by_cases constant : r.kind = .enumConstant
    · rw [if_pos constant, if_pos (same constant)]
      exact .pure fun _ _ => by simp [sameValue]
    · rw [if_neg constant]
      exact .throw (moves r')
  | .bool _, w | .int _, w | .str _, w | .type _, w => by
    refine .given (fun s h => annotationValue_moves member _ h) (fun s h => annotationValue_moves member _ h)
      fun s alike => ?_
    cases alike
    refine .pure fun s alike => ?_
    cases alike
    simp [sameValue, *]
  | .null, w | .name _, w | .elementKind _, w | .typeKind _, w | .domain _, w | .annotationUse _, w | .map _, w
  | .entry .., w => .throw fun s h => annotationValue_moves member w h

theorem annotationValues_repeats (member : String) : (vs ws : List Value) →
    Repeats (fun s => List.Forall₂ s.Alike vs ws) (fun s => List.Forall₂ fun a b => s.sameValue a b)
      (annotationValues member vs) (annotationValues member ws)
  | [], ws => by
    refine .given (fun s h => annotationValues_moves member _ h) (fun s h => annotationValues_moves member _ h)
      fun s alike => ?_
    cases alike
    exact .pure fun _ _ => .nil
  | v :: vs, ws => by
    refine .given (fun s h => annotationValues_moves member _ h) (fun s h => annotationValues_moves member _ h)
      fun s alike => ?_
    obtain _ | ⟨_, _⟩ := alike
    rename_i w ws _ _
    rw [annotationValues, annotationValues]
    refine ((annotationValue_repeats member v w).weaken fun s alike => ?_).bind fun a b => ?_
    · cases alike
      assumption
    refine ((annotationValues_repeats member vs ws).weaken fun s both => ?_).bind fun as bs => ?_
    · cases both.1
      assumption
    exact .pure fun s ⟨⟨_, first⟩, rest⟩ => .cons first rest

end

theorem annotationMember_repeats (e f : Value × Value) :
    Repeats (fun s => s.Alike (.entry e.1 e.2) (.entry f.1 f.2)) SameMember (annotationMember e)
      (annotationMember f) := by
  refine .given (fun s h => annotationMember_moves e h) (fun s h => annotationMember_moves f h) fun s alike => ?_
  obtain ⟨k, v⟩ := e
  obtain ⟨l, w⟩ := f
  cases alike with
  | entry key value =>
    cases key with
    | str member =>
      refine ((annotationValue_repeats member v w).weaken fun s alike => ?_).bind fun a b => ?_
      · cases alike
        assumption
      · exact .pure fun s ⟨_, same⟩ => ⟨rfl, same⟩
    | _ => exact .throw fun s h => annotationMember_moves _ h

abbrev SaysTheSame (m : Rebuilding Value) : Prop := Repeats (fun _ => True) Alike m m

variable {own : Option Recipe} {P : Store → Prop} {a a' b b' : Argument}

theorem entry_repeats (a : Argument) (value : SaysTheSame a.value) :
    Repeats (fun _ => True) (fun s e f => s.Alike (.entry e.1 e.2) (.entry f.1 f.2)) (entry a) (entry a) := by
  refine value.bind fun v w => ?_
  have moves (s : Store) (h : s.Sound) : Moves s (entryOf w) := entryOf_moves w h
  refine .given (fun s h => entryOf_moves v h) moves fun s ⟨_, alike⟩ => ?_
  cases alike with
  | entry _ _ => exact .pure fun s alike => alike.2
  | _ => exact .throw moves

theorem pairs_repeat : (args : List Argument) → (∀ a ∈ args, SaysTheSame a.value) →
    Repeats (fun _ => True) (fun s => List.Forall₂ fun e f => s.Alike (.entry e.1 e.2) (.entry f.1 f.2)) (pairs args)
      (pairs args)
  | k :: v :: rest, each => by
    rw [pairs]
    refine (each k (by simp)).bind fun k k' => ?_
    refine ((each v (by simp)).weaken fun _ _ => trivial).bind fun v v' => ?_
    refine ((pairs_repeat rest fun a mem => each a (by simp [mem])).weaken fun _ _ => trivial).bind fun es fs => ?_
    refine .pure fun s given => ?_
    obtain ⟨⟨⟨_, key⟩, value⟩, all⟩ := given
    exact .cons (.entry key value) all
  | [], _ | [_], _ => .pure fun _ _ => .nil

theorem type_repeats (context : String) (value : Repeats P Alike a.value a'.value) :
    Repeats P (fun s t u => s.sameType t u) (Rebuilding.type context a) (Rebuilding.type context a') :=
  value.bind fun v w => (typeOf_repeats context v w).weaken fun _ => And.right

theorem annotationUse_repeats (type : Repeats P Alike a.value a'.value) (values : Repeats P Alike b.value b'.value) :
    Repeats P Alike (annotationUse a b) (annotationUse a' b') := by
  refine (type_repeats _ type).bind fun t u => (values.weaken fun _ => And.left).bind fun v w => ?_
  have moves (s : Store) (h : s.Sound) : Moves s (annotationOf u w) := (annotationOf_yields u w h).moves
  refine .given (fun s h => (annotationOf_yields t v h).moves) moves fun s ⟨_, alike⟩ => ?_
  cases alike with
  | @map es fs entries =>
    obtain ⟨length, _⟩ := List.forall₂_iff_zip.mp (alike_map_iff.mp (.map entries))
    have members : Repeats (fun s => s.Alike (.map es) (.map fs)) (fun s => List.Forall₂ s.SameMember)
        (es.mapM annotationMember) (fs.mapM annotationMember) :=
      .mapM (List.forall₂_iff_zip.mpr ⟨length, fun mem => (annotationMember_repeats _ _).weaken fun s alike =>
        (List.forall₂_iff_zip.mp (alike_map_iff.mp alike)).2 mem⟩)
    refine (members.weaken fun _ => And.right).bind fun ms ns => .pure fun s ⟨⟨⟨_, type⟩, _⟩, same⟩ => ?_
    exact .annotationUse (sameAnnotationUse_ofList type same)
  | _ => exact .throw moves

theorem list_repeats {args : List Argument} (each : ∀ a ∈ args, SaysTheSame a.value) :
    SaysTheSame (.list <$> args.mapM (·.value)) := by
  have items : Repeats (fun _ => True) (fun s => List.Forall₂ s.Alike) (args.mapM (·.value))
      (args.mapM (·.value)) :=
    .mapM (List.forall₂_same.mpr each)
  exact items.map fun _ _ _ _ all => .list all

theorem internName_moves (text : String) (h : s.Sound) : Moves s (Value.name <$> liftM (internName text)) := by
  rw [← bind_pure_comp]
  exact .lift (h.ensures (internName_ensures h.toConsistent text)) fun _ _ h => .pure h _

theorem name_repeats (text : String) : SaysTheSame (.name <$> liftM (internName text)) where
  moves s h := internName_moves text h
  moves' s h := internName_moves text h
  again {s t s₁ t₁ a r} h _ run retained run' := by
    cases run
    cases run'
    have again : t.names.intern text = ((s.names.intern text).1, t.names) :=
      NameTable.intern_again text retained.grows.names
    refine ⟨.name (s.names.intern text).1, ?_, fun t' _ => .name _⟩
    exact congrArg (fun done => Except.ok (Value.name done.1)) again

theorem build_repeats {f : Factory} {args : List Argument} (each : ∀ a ∈ args, SaysTheSame a.value)
    (other : ¬ f.isConstruct) : SaysTheSame (build own f args) := by
  unfold build
  split
  case h_1 => exact .pure fun _ _ => .domain _
  case h_2 text =>
    split
    · exact name_repeats _
    · exact .throw fun s h => .throw h _
  case h_17 => exact annotationUse_repeats (each _ (by simp)) (each _ (by simp))
  case h_18 | h_19 => exact list_repeats each
  case h_20 => exact (pairs_repeat args each).map fun _ _ _ _ => alike_map_iff.mpr
  case h_21 =>
    have entries : Repeats (fun _ => True)
        (fun s => List.Forall₂ fun e f => s.Alike (.entry e.1 e.2) (.entry f.1 f.2))
        (args.mapM entry) (args.mapM entry) :=
      .mapM (List.forall₂_same.mpr fun a mem => entry_repeats a (each a mem))
    exact entries.map fun _ _ _ _ => alike_map_iff.mpr
  case h_22 k v =>
    refine (each k (by simp)).bind fun k k' => ?_
    refine ((each v (by simp)).weaken fun _ _ => trivial).bind fun v v' => ?_
    exact .pure fun s ⟨⟨_, key⟩, value⟩ => .entry key value
  case h_23 => exact .throw fun s h => .throw h _
  all_goals exact absurd rfl other

section constructs

def MakesConstruct (m : Rebuilding Value) : Prop :=
  ∀ s v s', m.run s = (.ok v, s') → (∃ e, v = .element e) ∨ ∃ t, v = .type t

namespace MakesConstruct

theorem throw (e : Refusal) : MakesConstruct (throw e) := by
  rintro s v s' ⟨⟩

theorem bind {α : Type} {m : Rebuilding α} {f : α → Rebuilding Value} (next : ∀ a, MakesConstruct (f a)) :
    MakesConstruct (m >>= f) := by
  intro s v s' run
  obtain ⟨a, s₁, _, second⟩ := parts_of_run run
  exact next a s₁ v s' second

theorem type (m : Rebuilding TypeId) : MakesConstruct (.type <$> m) := by
  rw [← bind_pure_comp]
  refine .bind fun t s v s' run => ?_
  cases run
  exact .inr ⟨t, rfl⟩

theorem found (role name : String) (e? : Option ElementId) : MakesConstruct (found role name e?) := by
  intro s v s' run
  cases e? <;> cases run
  exact .inl ⟨_, rfl⟩

theorem build {f : Factory} {args : List Argument} (construct : f.isConstruct) :
    MakesConstruct (build own f args) := by
  unfold Rebuilding.build
  split
  case h_3 | h_4 | h_5 => exact .bind fun _ => .bind fun _ => .found _ _ _
  case h_6 | h_8 | h_9 => exact .bind fun _ => .bind fun _ => .bind fun _ => .found _ _ _
  case h_7 => exact .bind fun _ => .bind fun _ => .bind fun _ => .bind fun _ => .bind fun _ => .found _ _ _
  case h_10 => exact .bind fun _ => .bind fun _ => .bind fun _ => .type _
  case h_11 | h_12 | h_13 | h_15 => exact .bind fun _ => .type _
  case h_14 =>
    rintro s v s' ⟨⟩
    exact .inr ⟨_, rfl⟩
  case h_16 => exact .bind fun _ => .bind fun _ => .type _
  case h_23 => exact .throw _
  all_goals cases construct

end MakesConstruct

theorem rebuild_makes {f : Factory} {ds : List Recipe} (construct : f.isConstruct) :
    MakesConstruct (rebuild own (.invoke f ds)) := by
  rw [rebuild, invoke.eq_def]
  refine .bind fun _ => ?_
  split
  · split
    · exact .throw _
    · exact .bind fun _ => .build construct
  · exact .build construct

theorem construct_repeats {f : Factory} {ds : List Recipe} (construct : f.isConstruct) :
    SaysTheSame (rebuild own (.invoke f ds)) where
  moves s h := (rebuild_follows own _ s h).moves
  moves' s h := (rebuild_follows own _ s h).moves
  again {s t s₁ t₁ v r} h _ run retained run' := by
    obtain ⟨move', known', stands'⟩ := rebuild_run retained.sound run'
    obtain ⟨move, known, stands⟩ := rebuild_run h run
    have all : s₁.Retains t₁ := Movement.trans retained move'.toRetains
    have means := stands s₁.names.lexicon s₁.names.lexicon_reads
    have means' := stands' t₁.names.lexicon t₁.names.lexicon_reads
    have still : s₁.names.lexicon.Lasts t₁.names.lexicon := NameTable.lexicon_lasts all.grows.names
    rcases rebuild_makes construct s v s₁ run with ⟨e, rfl⟩ | ⟨u, rfl⟩
    · rw [all.meaning still means] at means'
      cases r with
      | error _ => cases means'
      | ok w =>
        obtain rfl : w = .element e := t₁.element_of_denote means'.symm
        exact ⟨_, rfl, fun _ _ => .element e⟩
    · rw [all.meaning still means] at means'
      cases r with
      | error _ => cases means'
      | ok w =>
        obtain ⟨u', rfl, tree⟩ := t₁.type_of_denote means'.symm
        have there : s₁.HasType u := known _ rfl
        have there' : t₁.HasType u' := known' _ rfl
        refine ⟨_, rfl, fun t' later => .type ?_⟩
        have before : t'.tree u = s₁.tree u := Grown.tree (Movement.trans all.toGrown later.toGrown) there
        exact later.sound.same_of_tree (before.trans ((later.tree there').trans tree).symm)

end constructs

section guards

variable {P : Store → Prop}

theorem checkArity_repeats (f : Factory) (n : Nat) :
    Repeats P (fun _ _ _ => True) (checkArity f n) (checkArity f n) := by
  unfold checkArity
  split
  · split
    · exact .pure fun _ _ => trivial
    · exact .throw fun s h => .throw h _
  · exact .pure fun _ _ => trivial

theorem checkDomain_repeats (own : Option Recipe) (domain : Recipe) :
    Repeats P (fun _ _ _ => True) (checkDomain own domain) (checkDomain own domain) := by
  unfold checkDomain
  split
  · exact .pure fun _ _ => trivial
  · exact .throw fun s h => .throw h _

end guards

theorem invoke_repeats {f : Factory} {ds : List Recipe} (each : ∀ d ∈ ds, SaysTheSame (rebuild own d))
    (other : ¬ f.isConstruct) : SaysTheSame (invoke own f (ds.map (argument own))) := by
  have built {ds : List Recipe} (each : ∀ d ∈ ds, SaysTheSame (rebuild own d)) :
      SaysTheSame (build own f (ds.map (argument own))) := by
    refine build_repeats (fun a mem => ?_) other
    obtain ⟨d, mem', rfl⟩ := List.mem_map.mp mem
    exact each d mem'
  rw [invoke.eq_def]
  refine (checkArity_repeats f _).bind fun _ _ => Repeats.weaken ?_ fun _ _ => trivial
  split
  · cases ds with
    | nil => exact .throw fun s h => .throw h _
    | cons domain ds =>
      refine (checkDomain_repeats own domain).bind fun _ _ => Repeats.weaken ?_ fun _ _ => trivial
      exact built (List.forall_mem_cons.mp each).2
  · exact built each

mutual

theorem rebuild_repeats (own : Option Recipe) : (d : Recipe) → SaysTheSame (rebuild own d)
  | .null => .pure fun _ _ => .null
  | .bool b => .pure fun _ _ => .bool b
  | .int n => .pure fun _ _ => .int n
  | .str text => .pure fun _ _ => .str text
  | .elementKind k => .pure fun _ _ => .elementKind k
  | .typeKind k => .pure fun _ _ => .typeKind k
  | .invoke f ds => by
    by_cases construct : f.isConstruct
    · exact construct_repeats construct
    · rw [rebuild, arguments_eq]
      exact invoke_repeats (arguments_repeat own ds) construct

theorem arguments_repeat (own : Option Recipe) : (ds : List Recipe) → ∀ d ∈ ds, SaysTheSame (rebuild own d)
  | [] => nofun
  | d :: ds => List.forall_mem_cons.mpr ⟨rebuild_repeats own d, arguments_repeat own ds⟩

end

end Rebuilding

namespace Store

variable {s s₁ s₂ s₃ : Store} {own : Option Recipe} {d : Recipe}

/-- What a recipe was followed to before, it is followed to again, however many elements, types and names have
come to the store since. A name that was given the key of another is given it again. -/
theorem recipes_are_durable (reachable : s.Reachable) {top : ElementId} (object : s.objectElement? = some top)
    {v : Value} (followed : (rebuild own d).run s = (.ok v, s₁)) (leads : s₁.LeadsTo s₂)
    {r : Except Refusal Value} (again : (rebuild own d).run s₂ = (r, s₃)) : ∃ w, r = .ok w ∧ s₃.Alike v w := by
  have h := reachable.sound
  have move : s.Advances s₁ := (Ensures.result (rebuild_follows own d s h).moves followed).1
  have grown : s₁.Grown s₂ := leads.grown move.sound
  have retained : s₁.Retains s₂ := grown.retains (move.object.trans object)
  obtain ⟨w, rfl, alike⟩ := (rebuild_repeats own d).again h (fun _ _ => trivial) followed retained again
  have move' : s₂.Advances s₃ := (Ensures.result (rebuild_follows own d s₂ grown.sound).moves again).1
  exact ⟨w, rfl, alike.now move'.sound⟩

def rawBoxes : Recipe :=
  let box := Recipe.runtime.within .typeElement [Recipe.runtime.ofName "lang.Box"]
  .ofItems [Recipe.runtime.ofName "later",
    Recipe.runtime.within .arrayType [Recipe.runtime.within .declaredType [.null, box, .ofItems []]]]

theorem rawBoxes_are_durable : ∃ v s₁ w s₃, (rebuild (some .runtime) rawBoxes).run completeSample = (.ok v, s₁) ∧
    (rebuild (some .runtime) rawBoxes).run ((Request.enterModule "later").run s₁).2 = (.ok w, s₃) ∧
      s₃.Alike v w := by
  have object : completeSample.objectElement? = some ⟨1⟩ := by decide +kernel
  have followed : ((rebuild (some .runtime) rawBoxes).run completeSample).1.isOk := by decide +kernel
  cases run : (rebuild (some .runtime) rawBoxes).run completeSample with
  | mk r s₁ =>
    rw [run] at followed
    cases r with
    | error _ => cases followed
    | ok v =>
      have leads : s₁.LeadsTo ((Request.enterModule "later").run s₁).2 := .ask _ .rest
        ⟨by simp [Request.elements], by simp [Request.types]⟩
      obtain ⟨w, again, alike⟩ := recipes_are_durable reachable_completeSample object run leads Prod.mk.eta.symm
      exact ⟨v, s₁, w, _, rfl, leaves again, alike⟩

end Store

end Nominal
