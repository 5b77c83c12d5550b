import Nominal.Proofs.Order.Needs
import Nominal.Proofs.Store.Reachable
/-!
Where a name is looked up. It is said that the members of a type and of the types around it come first, then a
qualified name, then the package and at last what every program sees. But what is around a type is read off its
qualified name, up to each dot, and so the packages whose names begin the name of its package count as types around it:
a type in one of these is found by its simple name, before any qualified name.
-/

namespace Nominal

section text

theorem dottedPrefixes_dot (rest : List Char) : dottedPrefixes ('.' :: rest) = [] :: (dottedPrefixes rest).map ('.' :: ·) := by
  rw [dottedPrefixes]

theorem dottedPrefixes_other {c : Char} (other : c ≠ '.') (rest : List Char) :
    dottedPrefixes (c :: rest) = (dottedPrefixes rest).map (c :: ·) := by
  rw [dottedPrefixes]
  exact other

theorem dottedPrefixes_append (a b : List Char) :
    dottedPrefixes (a ++ '.' :: b) = dottedPrefixes a ++ a :: (dottedPrefixes b).map (a ++ '.' :: ·) := by
  induction a with
  | nil => exact dottedPrefixes_dot b
  | cons c a ih =>
    by_cases dot : c = '.'
    · subst dot
      rw [List.cons_append, dottedPrefixes_dot, dottedPrefixes_dot, ih]
      simp
    · rw [List.cons_append, dottedPrefixes_other dot, dottedPrefixes_other dot, ih]
      simp

theorem dottedPrefixes_plain {a : List Char} (plain : '.' ∉ a) : dottedPrefixes a = [] := by
  induction a with
  | nil => rfl
  | cons c a ih =>
    rw [List.mem_cons, not_or] at plain
    rw [dottedPrefixes_other (Ne.symm plain.1), ih plain.2, List.map_nil]

def stretches (name : String) : List String := (dottedPrefixes name.toList ++ [name.toList]).reverse.map .ofList

theorem stretches_eq (name : String) : stretches name = name :: (dottedPrefixes name.toList).reverse.map .ofList := by
  simp [stretches]

theorem stretches_plain {name : String} (plain : '.' ∉ name.toList) : stretches name = [name] := by
  rw [stretches_eq, dottedPrefixes_plain plain, List.reverse_nil, List.map_nil]

theorem outward_eq (name : String) : outward name = (stretches name).filter (· ≠ "") := by
  rw [outward, stretches, List.filter_map]
  congr 1
  apply List.filter_congr
  intro l _
  cases l <;> simp

theorem qualify_eq {scope : String} (inside : scope ≠ "") (name : String) : qualify scope name = scope ++ "." ++ name := by
  rw [qualify, if_neg (by simpa using inside)]
  rfl

theorem qualify_empty (name : String) : qualify "" name = name := rfl

theorem qualify_ne_empty {scope name : String} (some : name ≠ "") : qualify scope name ≠ "" := by
  by_cases inside : scope = ""
  · rwa [inside, qualify_empty]
  · rw [qualify_eq inside]
    simp

theorem stretches_qualify {scope : String} (inside : scope ≠ "") (name : String) :
    stretches (qualify scope name) = (stretches name).map (qualify scope) ++ stretches scope := by
  have within (b : List Char) : String.ofList (scope.toList ++ '.' :: b) = qualify scope (.ofList b) := by
    rw [qualify_eq inside]
    apply String.toList_inj.mp
    simp
  have whole : (qualify scope name).toList = scope.toList ++ '.' :: name.toList := by
    rw [← String.toList_ofList (l := scope.toList ++ '.' :: name.toList), within, String.ofList_toList]
  rw [stretches, whole, dottedPrefixes_append]
  simp [stretches, within, Function.comp_def]

theorem outward_qualify (scope name : String) :
    outward (qualify scope name) = ((stretches name).map (qualify scope)).filter (· ≠ "") ++ outward scope := by
  by_cases inside : scope = ""
  · subst inside
    have nowhere : outward "" = [] := rfl
    have same : (stretches name).map (qualify "") = stretches name := List.map_id'' qualify_empty _
    rw [same, nowhere, List.append_nil, qualify_empty, outward_eq]
  · rw [outward_eq, outward_eq, stretches_qualify inside, List.filter_append]

end text

/-- The simple name is not empty and has no dot. -/
def Slot.HasPlainName (slot : Slot) : Prop := slot.simpleName ≠ "" ∧ '.' ∉ slot.simpleName.toList

namespace Store

/-- The types around an element from the inside out, itself the first, and the package around all of them. -/
inductive Within (s : Store) : ElementId → List Slot → Slot → Prop
  | outermost {x o : ElementId} {slot package : Slot} (found : s.slot? x = some slot) (type : slot.kind.isType)
      (place : slot.enclosing = some o) (around : s.slot? o = some package) (kind : package.kind = .package) :
      Within s x [slot] package
  | member {x o : ElementId} {slot package : Slot} {around : List Slot} (found : s.slot? x = some slot)
      (type : slot.kind.isType) (place : slot.enclosing = some o) (outer : Within s o around package) :
      Within s x (slot :: around) package

def Nested (package : Slot) : List Slot → Prop
  | [] => True
  | slot :: around =>
    slot.qualifiedName = qualify (around.headD package).qualifiedName slot.simpleName ∧ Nested package around

/-- The names within which members are looked up: of each type its own and, where it was given a simple name with
dots, that up to each dot; then the name of the package and that up to each dot. -/
def searched (package : Slot) : List Slot → List String
  | [] => outward package.qualifiedName
  | slot :: around =>
    ((stretches slot.simpleName).map (qualify (around.headD package).qualifiedName)).filter (· ≠ "") ++
      searched package around

/-- The names within which members are looked up although no type around has them. -/
def strays (package : Slot) : List Slot → List String
  | [] => outward package.qualifiedName
  | slot :: around =>
    ((stretches slot.simpleName).tail.map (qualify (around.headD package).qualifiedName)).filter (· ≠ "") ++
      strays package around

/-- The first element that goes by the name within one of the others. -/
def firstWithin? (s : Store) (within : List String) (name : String) : Option ElementId :=
  within.findSome? fun q => s.typeElement? s!"{q}.{name}"

/-- What a name stands for that is no member: a qualified name, a type of the package or one that every program sees. -/
def global? (s : Store) (package : Slot) (name : String) : Option ElementId :=
  (s.typeElement? name).or ((s.typeElement? s!"{package.qualifiedName}.{name}").or
    (s.typeElement? s!"{commonPackage}.{name}"))

/-- What a name is said to stand for among these types: what is a member of one of them, the innermost first, or else
what it stands for anywhere in the package. What is inside a type without a name has its simple name as its qualified
one. -/
def documented? (s : Store) (around : List Slot) (package : Slot) (name : String) : Option ElementId :=
  (s.firstWithin? ((around.map (·.qualifiedName)).filter (· ≠ "")) name).or (s.global? package name)

variable {s : Store} {x : ElementId} {slot package : Slot} {around : List Slot} {name : String}

theorem firstWithin?_append (s : Store) (qs rs : List String) (name : String) :
    s.firstWithin? (qs ++ rs) name = (s.firstWithin? qs name).or (s.firstWithin? rs name) := List.findSome?_append

theorem firstWithin?_eq_none_iff {qs : List String} :
    s.firstWithin? qs name = none ↔ ∀ q ∈ qs, s.typeElement? s!"{q}.{name}" = none := List.findSome?_eq_none_iff

/-- In a scope one looks within the name of its owner outward, and then anywhere. -/
theorem typeElement?_eq (s : Store) {sc : Scope} (here : sc.package = package.qualifiedName) (name : String) :
    sc.typeElement? s name = (s.firstWithin? (outward sc.owner) name).or (s.global? package name) := by
  rw [Scope.typeElement?, Scope.candidates, List.findSome?_append, List.findSome?_map, here]
  simp only [List.findSome?_cons, List.findSome?_nil, firstWithin?, global?]
  congr 1
  cases s.typeElement? name <;> cases s.typeElement? s!"{package.qualifiedName}.{name}" <;>
    cases s.typeElement? s!"{commonPackage}.{name}" <;> rfl

namespace Within

theorem exists_of_type (h : s.Consistent) (found : s.slot? x = some slot) (type : slot.kind.isType) :
    ∃ around package, s.Within x around package := by
  induction older : x.index using Nat.strong_induction_on generalizing x slot with
  | _ n ih =>
    subst older
    obtain ⟨o, k, place, older, kind, admits⟩ := (h.slots x slot found).placed (ElementKind.isType_not_container type)
    obtain ⟨outer, there, rfl⟩ := kind?_eq_some_iff.mp kind
    have which : outer.kind = .package ∨ outer.kind.isType := by
      revert admits type
      cases slot.kind <;> cases outer.kind <;> decide
    rcases which with isPackage | isType
    · exact ⟨[slot], outer, .outermost found type place there isPackage⟩
    · obtain ⟨around, package, within⟩ := ih o.index older there isType rfl
      exact ⟨slot :: around, package, .member found type place within⟩

theorem head (within : s.Within x around package) : ∃ slot rest, around = slot :: rest ∧ s.slot? x = some slot := by
  cases within with
  | outermost found => exact ⟨_, _, rfl, found⟩
  | member found => exact ⟨_, _, rfl, found⟩

theorem inPackage (within : s.Within x around package) : s.InPackage x package.qualifiedName := by
  have plain {slot : Slot} (type : slot.kind.isType) : slot.kind ≠ .package := by
    intro same
    rw [same] at type
    cases type
  induction within with
  | outermost found type place there kind => exact .inside found (plain type) place (.itself there kind)
  | member found type place _ ih => exact .inside found (plain type) place ih

theorem packageName (h : s.Consistent) (within : s.Within x around package) : s.packageName x = package.qualifiedName := by
  obtain ⟨slot, _, _, found⟩ := within.head
  have type : slot.kind.isType := by
    cases within with
    | outermost found' type => cases found.symm.trans found'; exact type
    | member found' type => cases found.symm.trans found'; exact type
  exact (h.inPackage ⟨slot.kind, kind?_eq_some_iff.mpr ⟨slot, found, rfl⟩, type⟩).unique within.inPackage

theorem nested (addressed : s.Addressed) (within : s.Within x around package) : Nested package around := by
  induction within with
  | outermost found type place there =>
    obtain ⟨_, _, place', there', name⟩ := addressed _ _ found type
    cases place.symm.trans place'
    cases there.symm.trans there'
    exact ⟨name, trivial⟩
  | member found type place within ih =>
    obtain ⟨outer, rest, rfl, there⟩ := within.head
    obtain ⟨_, _, place', there', name⟩ := addressed _ _ found type
    cases place.symm.trans place'
    cases there.symm.trans there'
    exact ⟨name, ih⟩

end Within

namespace Nested

/-- What is outward of the name of a type is outward of the names around it, of which it is made. -/
theorem outward_eq (nested : Nested package around) : outward (around.headD package).qualifiedName = searched package around := by
  induction around with
  | nil => rfl
  | cons slot around ih =>
    obtain ⟨name, nested⟩ := nested
    rw [List.headD_cons, name, outward_qualify, ih nested, searched]

/-- Where nothing is within a stray, one finds the members of the types around. -/
theorem firstWithin?_searched (nested : Nested package around)
    (free : ∀ q ∈ strays package around, s.typeElement? s!"{q}.{name}" = none) :
    s.firstWithin? (searched package around) name =
      s.firstWithin? ((around.map (·.qualifiedName)).filter (· ≠ "")) name := by
  induction around with
  | nil => exact firstWithin?_eq_none_iff.mpr free
  | cons slot around ih =>
    obtain ⟨own, nested⟩ := nested
    rw [strays, List.forall_mem_append] at free
    have none := firstWithin?_eq_none_iff.mpr free.1
    rw [stretches_eq, List.tail_cons] at none
    rw [searched, firstWithin?_append, ih nested free.2, stretches_eq, List.map_cons, ← own, List.map_cons,
      List.filter_cons, List.filter_cons]
    split
    · rw [← List.singleton_append, firstWithin?_append, none, Option.or_none, ← firstWithin?_append, List.singleton_append]
    · rw [none, Option.none_or]

/-- Where no simple name is empty or has a dot, the strays are the names outward of the package. -/
theorem searched_plain (nested : Nested package around) (plain : ∀ slot ∈ around, slot.HasPlainName) :
    searched package around = around.map (·.qualifiedName) ++ outward package.qualifiedName := by
  induction around with
  | nil => rfl
  | cons slot around ih =>
    obtain ⟨own, nested⟩ := nested
    obtain ⟨⟨some, undotted⟩, plain⟩ := List.forall_mem_cons.mp plain
    have called : slot.qualifiedName ≠ "" := own ▸ qualify_ne_empty some
    rw [searched, ih nested plain, stretches_plain undotted, List.map_singleton, ← own, List.map_cons, List.cons_append,
      List.filter_singleton]
    simp [called]

end Nested

end Store

open Store in
/-- Every type is found by its simple name within the name of what it is in. What a name stands for in a type is first
looked up within the name of the type and what is outward of it, up to each dot, then as a qualified name, in the package
and among what every program sees. Where no simple name has a dot that is: among the members of the type and of the types
around it outward, then of the packages whose names begin the name of its package, from that down. So the members of the
types around it, a qualified name, the package and what every program sees come in this order, and nothing else does,
as long as the name stands for nothing within a stray. -/
theorem names_are_looked_up_outward {s : Store} (reachable : s.Reachable) {x : ElementId} {slot : Slot}
    (found : s.slot? x = some slot) (type : slot.kind.isType) :
    (∃ o outer, slot.enclosing = some o ∧ s.slot? o = some outer ∧
      s.typeElement? (qualify outer.qualifiedName slot.simpleName) = some x) ∧
    ∃ around package, s.Within x around package ∧
      ∀ sc : Scope, sc.package = s.packageName x → sc.owner = slot.qualifiedName → ∀ n,
        sc.typeElement? s n = (s.firstWithin? (searched package around) n).or (s.global? package n) ∧
        ((∀ y ∈ around, y.HasPlainName) → sc.typeElement? s n = (s.firstWithin? (around.map (·.qualifiedName)) n).or
          ((s.firstWithin? (outward package.qualifiedName) n).or (s.global? package n))) ∧
        ((∀ q ∈ strays package around, s.typeElement? s!"{q}.{n}" = none) →
          sc.typeElement? s n = s.documented? around package n) := by
  have h := reachable.sound.toConsistent
  obtain ⟨around, package, within⟩ := Within.exists_of_type h found type
  refine ⟨?_, around, package, within, fun sc here owner n => ?_⟩
  · obtain ⟨o, outer, place, there, name⟩ := reachable.addressed x slot found type
    exact ⟨o, outer, place, there, name ▸ (h.typeElements _ x).mpr ⟨slot, found, type, rfl⟩⟩
  have nested := within.nested reachable.addressed
  obtain ⟨head, rest, rfl, found'⟩ := within.head
  cases found.symm.trans found'
  have looked : sc.typeElement? s n =
      (s.firstWithin? (searched package (slot :: rest)) n).or (s.global? package n) := by
    rw [typeElement?_eq s (here.trans (within.packageName h)), owner, ← nested.outward_eq]
    rfl
  refine ⟨looked, fun plain => ?_, fun free => ?_⟩
  · rw [looked, nested.searched_plain plain, firstWithin?_append, Option.or_assoc]
  · rw [looked, nested.firstWithin?_searched free, documented?]

section sample

namespace Store

@[irreducible] def neighbours : Store :=
  (([{ package := "a", types := [.mk { kind := .classType, name := "Y" } []] },
      { package := "a.b", types := [.mk { kind := .classType, name := "X" } []] }] : List PackageDecl).forM
    (fun p => discard (StoreM.enterDeclarations p)) empty).2

theorem reachable_neighbours : neighbours.Reachable := by
  unfold neighbours
  exact leadsTo_enterDeclarations _ empty

theorem neighbours_slots : ∃ slot package, neighbours.slot? ⟨3⟩ = some slot ∧ neighbours.slot? ⟨2⟩ = some package ∧
    slot.kind = .classType ∧ slot.enclosing = some ⟨2⟩ ∧ slot.qualifiedName = "a.b.X" ∧ package.kind = .package ∧
    package.qualifiedName = "a.b" := by
  have inner : (neighbours.slot? ⟨3⟩).map (fun slot => (slot.kind, slot.enclosing, slot.qualifiedName)) =
      some (.classType, some ⟨2⟩, "a.b.X") := by decide +kernel
  have outer : (neighbours.slot? ⟨2⟩).map (fun slot => (slot.kind, slot.qualifiedName)) = some (.package, "a.b") := by
    decide +kernel
  obtain ⟨slot, found, same⟩ := Option.map_eq_some_iff.mp inner
  obtain ⟨package, around, same'⟩ := Option.map_eq_some_iff.mp outer
  simp only [Prod.mk.injEq] at same same'
  exact ⟨slot, package, found, around, same.1, same.2.1, same.2.2, same'⟩

end Store

open Store in
/-- In the type of the second package the simple name of the first package's type stands for it. -/
theorem neighbours_are_looked_up_outward : ∃ slot, neighbours.slot? ⟨3⟩ = some slot ∧ slot.kind.isType ∧
    ∃ around package, neighbours.Within ⟨3⟩ around package ∧
      (neighbours.firstWithin? (searched package around) "Y").or (neighbours.global? package "Y") = some ⟨1⟩ := by
  obtain ⟨slot, _, found, _, kind, _, named, _⟩ := neighbours_slots
  have type : slot.kind.isType := by rw [kind]; rfl
  obtain ⟨_, around, package, within, looked⟩ := names_are_looked_up_outward reachable_neighbours found type
  have stands := (looked { package := "a.b", owner := "a.b.X" } (by decide +kernel) named.symm "Y").1
  exact ⟨slot, found, type, around, package, within, stands.symm.trans (by decide +kernel)⟩

open Store in
/-- A type of a package whose name begins the name of the own package is found by its simple name. -/
theorem neighbour_is_found : ¬ ∀ (s : Store) (x : ElementId) (slot package : Slot) (around : List Slot) (n : String),
    s.Reachable → s.slot? x = some slot → s.Within x around package →
      (s.scopeOf x slot).typeElement? s n = s.documented? around package n := by
  intro claimed
  obtain ⟨slot, package, found, around, kind, place, named, kind', named'⟩ := neighbours_slots
  have within : neighbours.Within ⟨3⟩ [slot] package := .outermost found (by rw [kind]; rfl) place around kind'
  have same := claimed neighbours ⟨3⟩ slot package [slot] "Y" reachable_neighbours found within
  rw [scopeOf, named, documented?, global?, List.map_singleton, named, named'] at same
  exact absurd same (by decide +kernel)

end sample

end Nominal
