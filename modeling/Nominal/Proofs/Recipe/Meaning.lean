import Nominal.Proofs.Names
import Nominal.Proofs.Recipe.Lookup
import Nominal.Proofs.Types.Making
import Nominal.Recipe.Rebuild
/-!
What recipes stand for, read off a store in which nothing has to be completed or added any more, and off what
their names are taken for. Types stand as trees. What can only be part of an annotation or of a domain stands
for nothing here.
-/

namespace Nominal

inductive Meaning where
  | null
  | name (text : String)
  | elementKind (kind : ElementKind)
  | typeKind (kind : TypeKind)
  | element (element : ElementId)
  | type (type : TypeTree)
  | types (types : List TypeTree)

namespace Meaning

def name? : Meaning → Option String
  | name text => some text
  | _ => none

def elementKind? : Meaning → Option ElementKind
  | elementKind k => some k
  | _ => none

def typeKind? : Meaning → Option TypeKind
  | typeKind k => some k
  | _ => none

def element? : Meaning → Option ElementId
  | element e => some e
  | _ => none

def type? : Meaning → Option TypeTree
  | type t => some t
  | _ => none

def optional? : Meaning → Option (Option TypeTree)
  | null => some none
  | type t => some (some t)
  | _ => none

def types? : Meaning → Option (List TypeTree)
  | types ts => some ts
  | _ => none

end Meaning

/-- A recipe and what it stands for. -/
structure Reading where
  recipe : Recipe
  meaning : Option Meaning

namespace Reading

variable (r : Reading)

def name? : Option String := r.meaning.bind Meaning.name?

def elementKind? : Option ElementKind := r.meaning.bind Meaning.elementKind?

def typeKind? : Option TypeKind := r.meaning.bind Meaning.typeKind?

def element? : Option ElementId := r.meaning.bind Meaning.element?

def type? : Option TypeTree := r.meaning.bind Meaning.type?

def optional? : Option (Option TypeTree) := r.meaning.bind Meaning.optional?

def types? : Option (List TypeTree) := r.meaning.bind Meaning.types?

end Reading

namespace Store

variable (s : Store) (lex : Lexicon)

def built : Factory → List Reading → Option Meaning
  | .name, [text] =>
    match text.recipe with
    | .str text => .name <$> lex text
    | _ => none
  | .moduleElement, [n] => do
    let n ← n.name?
    .element <$> s.module? n
  | .packageElement, [n] => do
    let n ← n.name?
    .element <$> s.package? n
  | .typeElement, [n] => do
    let n ← n.name?
    .element <$> s.typeElement? n
  | .typeParameterElement, [generic, n] => do
    let generic ← generic.element?
    let n ← n.name?
    .element <$> s.lookup generic (· == .typeParameter) n
  | .executableElement, [enclosing, kind, n, parameters] => do
    let enclosing ← enclosing.element?
    let kind ← kind.elementKind?
    let n ← n.name?
    let parameters ← parameters.types?
    .element <$> (if kind.isExecutable then s.overload enclosing kind n (parameters.map s.erased) else none)
  | .variableElement, [enclosing, n] => do
    let enclosing ← enclosing.element?
    let n ← n.name?
    .element <$> s.lookup enclosing (·.isValue) n
  | .recordComponentElement, [record, n] => do
    let record ← record.element?
    let n ← n.name?
    .element <$> s.lookup record (· == .recordComponent) n
  | .declaredType, [enclosing, e, arguments] => do
    let enclosing ← enclosing.optional?
    let e ← e.element?
    let arguments ← arguments.types?
    .type <$> s.usage enclosing e arguments
  | .arrayType, [component] => do
    let component ← component.type?
    .type <$> component.arrayOf
  | .primitiveType, [kind] => do
    let kind ← kind.typeKind?
    (.type <| .primitive ·) <$> kind.primitive?
  | .noType, [kind] => do
    let kind ← kind.typeKind?
    .type <$> TypeTree.noTypeOf kind
  | .nullType, _ => some (.type .null)
  | .typeVariable, [parameter] => do
    let parameter ← parameter.element?
    if s.kind? parameter = some .typeParameter then some (.type (.typeVariable parameter)) else none
  | .wildcardType, [upper, lower] => do
    let upper ← upper.optional?
    let lower ← lower.optional?
    .type <$> TypeTree.wildcardOf upper lower
  | .listOf _, items | .listOfArray, items => .types <$> items.mapM (·.type?)
  | _, _ => none

def invoked (own : Option Recipe) (f : Factory) (args : List Reading) : Option Meaning :=
  if f.arity?.all (args.length == ·) then
    if f.takesDomain then
      match args with
      | [] => none
      | domain :: args => if own = some domain.recipe then s.built lex f args else none
    else s.built lex f args
  else none

variable (own : Option Recipe)

mutual

def meaning : Recipe → Option Meaning
  | .null => some .null
  | .elementKind k => some (.elementKind k)
  | .typeKind k => some (.typeKind k)
  | .bool _ | .int _ | .str _ => none
  | .invoke f args => s.invoked lex own f (readings args)

def readings : List Recipe → List Reading
  | [] => []
  | r :: rs => ⟨r, meaning r⟩ :: readings rs

end

def reading (r : Recipe) : Reading := ⟨r, s.meaning lex own r⟩

theorem readings_eq (rs : List Recipe) : s.readings lex own rs = rs.map (s.reading lex own) := by
  induction rs with
  | nil => rfl
  | cons r rs ih =>
    rw [readings, List.map_cons, ih]
    rfl

def itemType : Value → Option TypeTree
  | .type t => some (s.tree t)
  | _ => none

def denote : Value → Option Meaning
  | .null => some .null
  | .name key => .name <$> s.names.get? key
  | .elementKind k => some (.elementKind k)
  | .typeKind k => some (.typeKind k)
  | .element e => some (.element e)
  | .type t => some (.type (s.tree t))
  | .list items => .types <$> items.mapM s.itemType
  | .bool _ | .int _ | .str _ | .domain _ | .annotationUse _ | .map _ | .entry .. => none

theorem denote_type? (v : Value) : s.denote v >>= Meaning.type? = s.itemType v := by
  cases v with
  | name key =>
    change Meaning.name <$> s.names.get? key >>= Meaning.type? = none
    cases s.names.get? key <;> rfl
  | list items =>
    change Meaning.types <$> items.mapM s.itemType >>= Meaning.type? = none
    cases items.mapM s.itemType <;> rfl
  | _ => rfl

theorem denote_types? (items : List Value) : s.denote (.list items) >>= Meaning.types? = items.mapM s.itemType := by
  change Meaning.types <$> items.mapM s.itemType >>= Meaning.types? = _
  cases items.mapM s.itemType <;> rfl

theorem element_of_denote {v : Value} {e : ElementId} (denoted : s.denote v = some (.element e)) :
    v = .element e := by
  cases v with
  | name | list =>
    obtain ⟨_, _, other⟩ := Option.map_eq_some_iff.mp denoted
    cases other
  | _ => cases denoted <;> rfl

theorem type_of_denote {v : Value} {t : TypeTree} (denoted : s.denote v = some (.type t)) :
    ∃ u, v = .type u ∧ s.tree u = t := by
  cases v with
  | name | list =>
    obtain ⟨_, _, other⟩ := Option.map_eq_some_iff.mp denoted
    cases other
  | type u =>
    cases denoted
    exact ⟨u, rfl, rfl⟩
  | _ => cases denoted

end Store

end Nominal
