import Nominal.Proofs.ByName
import Nominal.Store.Basic
/-!
Two stores that hold the same under other handles. A renaming says which handles stand for each other;
records and shapes are the same under it if they say the same of handles that do.
-/

namespace Nominal

/-- Which handles of one store stand for which of another. -/
structure Renaming where
  element : ElementId → ElementId → Prop
  type : TypeId → TypeId → Prop

namespace Renaming

/-- Every handle stands for at most one other, and no two for the same. -/
structure OneToOne (π : Renaming) : Prop where
  element : ∀ {a b a' b'}, π.element a b → π.element a' b' → (a = a' ↔ b = b')
  type : ∀ {t u t' u'}, π.type t u → π.type t' u' → (t = t' ↔ u = u')

/-- The values are the same under the renaming. -/
inductive Value (π : Renaming) : AnnotationValue → AnnotationValue → Prop
  | bool (b : Bool) : Value π (.bool b) (.bool b)
  | int (n : Int64) : Value π (.int n) (.int n)
  | str (text : String) : Value π (.str text) (.str text)
  | type {t u : TypeId} : π.type t u → Value π (.type t) (.type u)
  | enumConstant {a b : ElementId} : π.element a b → Value π (.enumConstant a) (.enumConstant b)
  | array {vs ws : List AnnotationValue} : List.Forall₂ (Value π) vs ws → Value π (.array vs) (.array ws)

structure Use (π : Renaming) (a a' : AnnotationUse) : Prop where
  type : π.type a.type a'.type
  values : List.Forall₂ (ByName.Entry π.Value) a.values a'.values

structure Signature (π : Renaming) (sig sig' : Nominal.Signature) : Prop where
  typeVariables : List.Forall₂ π.type sig.typeVariables sig'.typeVariables
  receiver : π.type sig.receiver sig'.receiver
  parameters : List.Forall₂ π.type sig.parameters sig'.parameters
  result : π.type sig.result sig'.result
  thrown : List.Forall₂ π.type sig.thrown sig'.thrown

/-- The shapes are the same under the renaming. -/
inductive Shape (π : Renaming) : TypeShape → TypeShape → Prop
  | primitive (p : Primitive) : Shape π (.primitive p) (.primitive p)
  | noType (n : NoType) : Shape π (.noType n) (.noType n)
  | null : Shape π .null .null
  | array {c c' : TypeId} : π.type c c' → Shape π (.array c) (.array c')
  | declared {o o' : TypeId} {e e' : ElementId} {ts ts' : List TypeId} : π.type o o' → π.element e e' →
      List.Forall₂ π.type ts ts' → Shape π (.declared o e ts) (.declared o' e' ts')
  | error (name : String) : Shape π (.error name) (.error name)
  | typeVariable {e e' : ElementId} {u u' : TypeId} : π.element e e' → π.type u u' →
      Shape π (.typeVariable e u) (.typeVariable e' u')
  | wildcard {u u' l l' : Option TypeId} : Option.Rel π.type u u' → Option.Rel π.type l l' →
      Shape π (.wildcard u l) (.wildcard u' l')
  | executable {sig sig' : Nominal.Signature} : π.Signature sig sig' → Shape π (.executable sig) (.executable sig')
  | union {ts ts' : List TypeId} : List.Forall₂ π.type ts ts' → Shape π (.union ts) (.union ts')
  | intersection {ts ts' : List TypeId} : List.Forall₂ π.type ts ts' → Shape π (.intersection ts) (.intersection ts')

structure TypeDetail (π : Renaming) (d d' : Nominal.TypeDetail) : Prop where
  typeParameters : List.Forall₂ π.element d.typeParameters d'.typeParameters
  superclass : π.type d.superclass d'.superclass
  interfaces : List.Forall₂ π.type d.interfaces d'.interfaces
  components : List.Forall₂ π.element d.components d'.components

structure ExecutableDetail (π : Renaming) (d d' : Nominal.ExecutableDetail) : Prop where
  typeParameters : List.Forall₂ π.element d.typeParameters d'.typeParameters
  parameters : List.Forall₂ π.element d.parameters d'.parameters
  returnType : π.type d.returnType d'.returnType
  thrown : List.Forall₂ π.type d.thrown d'.thrown
  varargs : d.varargs = d'.varargs

inductive Detail (π : Renaming) : Nominal.Detail → Nominal.Detail → Prop
  | plain : Detail π .plain .plain
  | type {d d' : Nominal.TypeDetail} : π.TypeDetail d d' → Detail π (.type d) (.type d')
  | executable {d d' : Nominal.ExecutableDetail} : π.ExecutableDetail d d' → Detail π (.executable d) (.executable d')
  | typeParameter {o o' : ElementId} {bs bs' : List TypeId} : π.element o o' → List.Forall₂ π.type bs bs' →
      Detail π (.typeParameter o bs) (.typeParameter o' bs')

/-- The records are the same under the renaming. -/
structure Record (π : Renaming) (r r' : ElementRecord) : Prop where
  id : π.element r.id r'.id
  kind : r.kind = r'.kind
  simpleName : r.simpleName = r'.simpleName
  qualifiedName : r.qualifiedName = r'.qualifiedName
  enclosing : Option.Rel π.element r.enclosing r'.enclosing
  enclosed : List.Forall₂ π.element r.enclosed r'.enclosed
  modifiers : r.modifiers = r'.modifiers
  nesting : r.nesting = r'.nesting
  asType : π.type r.asType r'.asType
  annotations : List.Forall₂ π.Use r.annotations r'.annotations
  erroneous : r.erroneous = r'.erroneous
  detail : π.Detail r.detail r'.detail

/-- The records say the same of the place of an element, of its members and of its supertypes. -/
structure Outline (π : Renaming) (r r' : ElementRecord) : Prop where
  kind : r.kind = r'.kind
  simpleName : r.simpleName = r'.simpleName
  enclosing : Option.Rel π.element r.enclosing r'.enclosing
  enclosed : List.Forall₂ π.element r.enclosed r'.enclosed
  modifiers : r.modifiers = r'.modifiers
  asType : π.type r.asType r'.asType
  typeParameters : List.Forall₂ π.element r.typeParameters r'.typeParameters
  superclass : π.type r.superclass r'.superclass
  interfaces : List.Forall₂ π.type r.interfaces r'.interfaces

inductive State (π : Renaming) : SlotState → SlotState → Prop
  | completing : State π .completing .completing
  | complete {r r' : ElementRecord} : π.Record r r' → State π (.complete r) (.complete r')

structure Slot (π : Renaming) (slot slot' : Nominal.Slot) : Prop where
  kind : slot.kind = slot'.kind
  simpleName : slot.simpleName = slot'.simpleName
  qualifiedName : slot.qualifiedName = slot'.qualifiedName
  enclosing : Option.Rel π.element slot.enclosing slot'.enclosing
  state : π.State slot.state slot'.state

instance : LE Renaming where
  le π ρ := (∀ {a b}, π.element a b → ρ.element a b) ∧ ∀ {t u}, π.type t u → ρ.type t u

section monotone

variable {π ρ : Renaming}

theorem le_elements (le : π ≤ ρ) {as bs : List ElementId} (same : List.Forall₂ π.element as bs) :
    List.Forall₂ ρ.element as bs := same.imp fun _ _ => le.1

theorem le_types (le : π ≤ ρ) {ts us : List TypeId} (same : List.Forall₂ π.type ts us) :
    List.Forall₂ ρ.type ts us := same.imp fun _ _ => le.2

theorem rel_mono {α : Type} {R S : α → α → Prop} (weaker : ∀ {a b}, R a b → S a b) {x y : Option α}
    (rel : Option.Rel R x y) : Option.Rel S x y := by
  cases rel with
  | some same => exact .some (weaker same)
  | none => exact .none

mutual

theorem Value.mono (le : π ≤ ρ) : (v : AnnotationValue) → ∀ w, π.Value v w → ρ.Value v w
  | .bool b, _, .bool _ => .bool b
  | .int n, _, .int _ => .int n
  | .str text, _, .str _ => .str text
  | .type _, _, .type same => .type (le.2 same)
  | .enumConstant _, _, .enumConstant same => .enumConstant (le.1 same)
  | .array vs, _, .array same => .array (Value.mono_all le vs _ same)

theorem Value.mono_all (le : π ≤ ρ) : (vs : List AnnotationValue) → ∀ ws, List.Forall₂ π.Value vs ws →
    List.Forall₂ ρ.Value vs ws
  | [], _, .nil => .nil
  | v :: vs, _, .cons first rest => .cons (Value.mono le v _ first) (Value.mono_all le vs _ rest)

end

theorem Use.mono (le : π ≤ ρ) {a a' : AnnotationUse} (same : π.Use a a') : ρ.Use a a' :=
  ⟨le.2 same.type, same.values.imp fun _ _ entry => ⟨entry.1, Value.mono le _ _ entry.2⟩⟩

theorem Shape.mono (le : π ≤ ρ) {shape shape' : TypeShape} (same : π.Shape shape shape') : ρ.Shape shape shape' := by
  cases same with
  | primitive p => exact .primitive p
  | noType n => exact .noType n
  | null => exact .null
  | array component => exact .array (le.2 component)
  | declared enclosing element args => exact .declared (le.2 enclosing) (le.1 element) (le_types le args)
  | error name => exact .error name
  | typeVariable element upper => exact .typeVariable (le.1 element) (le.2 upper)
  | wildcard upper lower => exact .wildcard (rel_mono le.2 upper) (rel_mono le.2 lower)
  | executable sig =>
    exact .executable ⟨le_types le sig.typeVariables, le.2 sig.receiver, le_types le sig.parameters, le.2 sig.result,
      le_types le sig.thrown⟩
  | union parts => exact .union (le_types le parts)
  | intersection parts => exact .intersection (le_types le parts)

theorem Detail.mono (le : π ≤ ρ) {d d' : Nominal.Detail} (same : π.Detail d d') : ρ.Detail d d' := by
  cases same with
  | plain => exact .plain
  | type same =>
    exact .type ⟨le_elements le same.typeParameters, le.2 same.superclass, le_types le same.interfaces,
      le_elements le same.components⟩
  | executable same =>
    exact .executable ⟨le_elements le same.typeParameters, le_elements le same.parameters, le.2 same.returnType,
      le_types le same.thrown, same.varargs⟩
  | typeParameter owner bounds => exact .typeParameter (le.1 owner) (le_types le bounds)

theorem Record.mono (le : π ≤ ρ) {r r' : ElementRecord} (same : π.Record r r') : ρ.Record r r' :=
  { same with
    id := le.1 same.id
    enclosing := rel_mono le.1 same.enclosing
    enclosed := le_elements le same.enclosed
    asType := le.2 same.asType
    annotations := same.annotations.imp fun _ _ => Use.mono le
    detail := same.detail.mono le }

theorem Record.outline {r r' : ElementRecord} (same : π.Record r r') (none : π.type .none .none) : π.Outline r r' := by
  refine ⟨same.kind, same.simpleName, same.enclosing, same.enclosed, same.modifiers, same.asType, ?_, ?_, ?_⟩
  all_goals
    have detail := same.detail
    simp only [ElementRecord.typeParameters, ElementRecord.superclass, ElementRecord.interfaces]
    generalize r.detail = d at detail
    generalize r'.detail = d' at detail
    cases detail
  case type d => exact d.typeParameters
  case executable d => exact d.typeParameters
  case type d => exact d.superclass
  case type d => exact d.interfaces
  all_goals first
    | exact .nil
    | exact none

theorem Outline.mono (le : π ≤ ρ) {r r' : ElementRecord} (same : π.Outline r r') : ρ.Outline r r' :=
  { same with
    enclosing := rel_mono le.1 same.enclosing
    enclosed := le_elements le same.enclosed
    asType := le.2 same.asType
    typeParameters := le_elements le same.typeParameters
    superclass := le.2 same.superclass
    interfaces := le_types le same.interfaces }

theorem State.mono (le : π ≤ ρ) {state state' : SlotState} (same : π.State state state') : ρ.State state state' := by
  cases same with
  | completing => exact .completing
  | complete record => exact .complete (record.mono le)

theorem Slot.mono (le : π ≤ ρ) {slot slot' : Nominal.Slot} (same : π.Slot slot slot') : ρ.Slot slot slot' :=
  { same with enclosing := rel_mono le.1 same.enclosing, state := same.state.mono le }

end monotone

def across (π ρ : Renaming) : Renaming where
  element a b := ∃ c, π.element a c ∧ ρ.element b c
  type t u := ∃ v, π.type t v ∧ ρ.type u v

section across

variable {π ρ : Renaming}

theorem OneToOne.across (once : π.OneToOne) (once' : ρ.OneToOne) : (π.across ρ).OneToOne where
  element := by
    rintro a b a' b' ⟨c, first, second⟩ ⟨c', first', second'⟩
    rw [once.element first first', once'.element second second']
  type := by
    rintro t u t' u' ⟨v, first, second⟩ ⟨v', first', second'⟩
    rw [once.type first first', once'.type second second']

theorem across_list {α : Type} {R S : α → α → Prop} {as bs cs : List α} (first : List.Forall₂ R as cs)
    (second : List.Forall₂ S bs cs) : List.Forall₂ (fun a b => ∃ c, R a c ∧ S b c) as bs := by
  induction first generalizing bs with
  | nil => cases second; exact .nil
  | cons head _ ih =>
    cases second with
    | cons head' rest' => exact .cons ⟨_, head, head'⟩ (ih rest')

theorem across_option {α : Type} {R S : α → α → Prop} {x y z : Option α} (first : Option.Rel R x z)
    (second : Option.Rel S y z) : Option.Rel (fun a b => ∃ c, R a c ∧ S b c) x y := by
  cases first with
  | none => cases second; exact .none
  | some same => cases second with | some same' => exact .some ⟨_, same, same'⟩

mutual

theorem Value.across : (u : AnnotationValue) → ∀ v w, π.Value v u → ρ.Value w u → (π.across ρ).Value v w
  | .bool b, _, _, .bool _, .bool _ => .bool b
  | .int n, _, _, .int _, .int _ => .int n
  | .str text, _, _, .str _, .str _ => .str text
  | .type _, _, _, .type same, .type same' => .type ⟨_, same, same'⟩
  | .enumConstant _, _, _, .enumConstant same, .enumConstant same' => .enumConstant ⟨_, same, same'⟩
  | .array us, _, _, .array same, .array same' => .array (Value.across_all us _ _ same same')

theorem Value.across_all : (us : List AnnotationValue) → ∀ vs ws, List.Forall₂ π.Value vs us →
    List.Forall₂ ρ.Value ws us → List.Forall₂ (π.across ρ).Value vs ws
  | [], _, _, .nil, .nil => .nil
  | u :: us, _, _, .cons first rest, .cons first' rest' =>
    .cons (Value.across u _ _ first first') (Value.across_all us _ _ rest rest')

end

theorem Use.across {a b c : AnnotationUse} (same : π.Use a c) (same' : ρ.Use b c) : (π.across ρ).Use a b := by
  refine ⟨⟨_, same.type, same'.type⟩, (across_list same.values same'.values).imp ?_⟩
  rintro m m' ⟨n, ⟨name, value⟩, name', value'⟩
  exact ⟨name.trans name'.symm, Value.across n.2 _ _ value value'⟩

theorem Shape.across {a b c : TypeShape} (same : π.Shape a c) (same' : ρ.Shape b c) : (π.across ρ).Shape a b := by
  cases same with
  | primitive p => cases same'; exact .primitive p
  | noType n => cases same'; exact .noType n
  | null => cases same'; exact .null
  | array component => cases same' with | array component' => exact .array ⟨_, component, component'⟩
  | declared enclosing element args =>
    cases same' with
    | declared enclosing' element' args' =>
      exact .declared ⟨_, enclosing, enclosing'⟩ ⟨_, element, element'⟩ (across_list args args')
  | error name => cases same'; exact .error name
  | typeVariable element upper =>
    cases same' with
    | typeVariable element' upper' => exact .typeVariable ⟨_, element, element'⟩ ⟨_, upper, upper'⟩
  | wildcard upper lower =>
    cases same' with
    | wildcard upper' lower' => exact .wildcard (across_option upper upper') (across_option lower lower')
  | executable sig =>
    cases same' with
    | executable sig' =>
      exact .executable ⟨across_list sig.typeVariables sig'.typeVariables, ⟨_, sig.receiver, sig'.receiver⟩,
        across_list sig.parameters sig'.parameters, ⟨_, sig.result, sig'.result⟩, across_list sig.thrown sig'.thrown⟩
  | union parts => cases same' with | union parts' => exact .union (across_list parts parts')
  | intersection parts => cases same' with | intersection parts' => exact .intersection (across_list parts parts')

theorem Detail.across {a b c : Nominal.Detail} (same : π.Detail a c) (same' : ρ.Detail b c) :
    (π.across ρ).Detail a b := by
  cases same with
  | plain => cases same'; exact .plain
  | type d =>
    cases same' with
    | type d' =>
      exact .type ⟨across_list d.typeParameters d'.typeParameters, ⟨_, d.superclass, d'.superclass⟩,
        across_list d.interfaces d'.interfaces, across_list d.components d'.components⟩
  | executable d =>
    cases same' with
    | executable d' =>
      exact .executable ⟨across_list d.typeParameters d'.typeParameters, across_list d.parameters d'.parameters,
        ⟨_, d.returnType, d'.returnType⟩, across_list d.thrown d'.thrown, d.varargs.trans d'.varargs.symm⟩
  | typeParameter owner bounds =>
    cases same' with
    | typeParameter owner' bounds' => exact .typeParameter ⟨_, owner, owner'⟩ (across_list bounds bounds')

theorem Record.across {a b c : ElementRecord} (same : π.Record a c) (same' : ρ.Record b c) :
    (π.across ρ).Record a b where
  id := ⟨_, same.id, same'.id⟩
  kind := same.kind.trans same'.kind.symm
  simpleName := same.simpleName.trans same'.simpleName.symm
  qualifiedName := same.qualifiedName.trans same'.qualifiedName.symm
  enclosing := across_option same.enclosing same'.enclosing
  enclosed := across_list same.enclosed same'.enclosed
  modifiers := same.modifiers.trans same'.modifiers.symm
  nesting := same.nesting.trans same'.nesting.symm
  asType := ⟨_, same.asType, same'.asType⟩
  annotations := (across_list same.annotations same'.annotations).imp fun _ _ ⟨_, use, use'⟩ => use.across use'
  erroneous := same.erroneous.trans same'.erroneous.symm
  detail := same.detail.across same'.detail

end across

end Renaming

end Nominal
