import Mathlib.Tactic.IntervalCases
import Nominal.Platform
import Nominal.Proofs.Recipe.Describing
import Nominal.Proofs.Recipe.Rebuilding
import Nominal.Proofs.Types.Viewing
/-!
Everything that may be asked of a store from outside, and the stores that one comes to by asking. As long as a
request only names what is in the store, no request leaves an element half done or a handle that leads nowhere.
-/

namespace Nominal

/-- A request to a store: to enter something, to complete an element, to make a type, to answer a question
about types or members, or to describe or rebuild a construct. -/
inductive Request where
  | enterModule (name : String)
  | enterPackage (module : Option ElementId) (name : String)
  | enterType (package : ElementId) (d : TypeDecl)
  | enterDeclarations (p : PackageDecl)
  | enterLocal (owner : ElementId) (kind : ElementKind) (name : String) (type : TypeExpr)
  | internName (name : String)
  | complete (e : ElementId)
  | inspect (t : TypeId)
  | objectType
  | arrayType (component : TypeId)
  | declaredType (enclosing : Option TypeId) (e : ElementId) (arguments : List TypeId)
  | wildcardType (upper lower : Option TypeId)
  | typeVariable (e : ElementId)
  | intersectionType (bounds : List TypeId)
  | unionType (alternatives : List TypeId)
  | erase (t : TypeId)
  | substitute (i : Instantiation) (t : TypeId)
  | directSupertypes (t : TypeId)
  | asSuper (t : TypeId) (target : ElementId)
  | isSubtype (a b : TypeId)
  | asMemberOf (containing : TypeId) (e : ElementId)
  | executable (enclosing : ElementId) (kind : ElementKind) (name : String) (parameterTypes : List TypeId)
  | memberVariable (enclosing : ElementId) (name : String)
  | typeParameter (generic : ElementId) (name : String)
  | recordComponent (e : ElementId) (name : String)
  | describeElement (own : Recipe) (e : ElementId)
  | describeType (own : Recipe) (t : TypeId)
  | rebuild (own : Option Recipe) (r : Recipe)

namespace Request

/-- What a request does to the store; its answer is of no interest here. -/
def run : Request → StoreM Unit
  | enterModule name => discard (StoreM.enterModule name)
  | enterPackage module name => discard (StoreM.enterPackage module name)
  | enterType package d => discard (StoreM.enterType package d).run
  | enterDeclarations p => discard (StoreM.enterDeclarations p)
  | enterLocal owner kind name type => discard (StoreM.enterLocal owner kind name type).run
  | internName name => discard (StoreM.internName name)
  | complete e => discard (StoreM.complete e)
  | inspect t => discard (StoreM.inspect t)
  | objectType => discard StoreM.objectType
  | arrayType c => discard (StoreM.arrayType c).run
  | declaredType enclosing e arguments => discard (StoreM.declaredType enclosing e arguments).run
  | wildcardType upper lower => discard (StoreM.wildcardType upper lower).run
  | typeVariable e => discard (StoreM.typeVariable e).run
  | intersectionType bounds => discard (StoreM.newType (.intersection bounds))
  | unionType alternatives => discard (StoreM.newType (.union alternatives))
  | erase t => discard (StoreM.erase t)
  | substitute i t => discard (StoreM.substitute i t)
  | directSupertypes t => discard (StoreM.directSupertypes t)
  | asSuper t target => discard (StoreM.asSuper t target)
  | isSubtype a b => discard (StoreM.isSubtype a b)
  | asMemberOf t e => discard (StoreM.asMemberOf t e).run
  | executable enclosing kind name ts => discard (StoreM.executable? enclosing kind name ts)
  | memberVariable enclosing name => discard (StoreM.memberVariable? enclosing name)
  | typeParameter generic name => discard (StoreM.typeParameter? generic name)
  | recordComponent e name => discard (StoreM.recordComponent? e name)
  | describeElement own e => discard (Describing.element own e).run
  | describeType own t => discard (Describing.type own t).run
  | rebuild own r => discard (Rebuilding.rebuild own r).run

def elements : Request → List ElementId
  | enterPackage module _ => module.toList
  | enterType e _ | enterLocal e .. | complete e | declaredType _ e _ | typeVariable e | asSuper _ e
  | asMemberOf _ e | executable e .. | memberVariable e _ | typeParameter e _ | recordComponent e _
  | describeElement _ e => [e]
  | substitute i _ => i.parameters
  | _ => []

def types : Request → List TypeId
  | inspect t | arrayType t | erase t | directSupertypes t | asSuper t _ | asMemberOf t _
  | describeType _ t => [t]
  | declaredType enclosing _ ts => enclosing.toList ++ ts
  | wildcardType upper lower => upper.toList ++ lower.toList
  | intersectionType ts | unionType ts | executable _ _ _ ts => ts
  | substitute i t => t :: i.types
  | isSubtype a b => [a, b]
  | _ => []

/-- Everything that a request names is in the store. -/
structure InRange (r : Request) (s : Store) : Prop where
  elements : ∀ e ∈ r.elements, s.HasElement e
  types : ∀ t ∈ r.types, s.HasType t

end Request

namespace Store

/-- Requests are made one after the other, each of what is in the store by then. -/
inductive LeadsTo (s : Store) : Store → Prop
  | rest : LeadsTo s s
  | ask {s' : Store} (r : Request) : LeadsTo s s' → r.InRange s' → LeadsTo s (r.run s').2

/-- The stores that one comes to from the beginning. -/
def Reachable (s : Store) : Prop := empty.LeadsTo s

/-- The stores that one comes to from the platform. -/
def GrownFromPlatform (s : Store) : Prop := withPlatform.LeadsTo s

theorem LeadsTo.trans {a b c : Store} (first : a.LeadsTo b) (second : b.LeadsTo c) : a.LeadsTo c := by
  induction second with
  | rest => exact first
  | ask r _ inRange ih => exact .ask r ih inRange

theorem leadsTo_enterDeclarations (ps : List PackageDecl) (s : Store) :
    s.LeadsTo ((ps.forM fun p => discard (StoreM.enterDeclarations p)) s).2 := by
  induction ps generalizing s with
  | nil => exact .rest
  | cons p ps ih =>
    exact (LeadsTo.ask (.enterDeclarations p) .rest ⟨nofun, nofun⟩).trans (ih _)

theorem reachable_withPlatform : Reachable withPlatform := leadsTo_enterDeclarations Platform.packages empty

theorem GrownFromPlatform.reachable {s : Store} (grown : s.GrownFromPlatform) : s.Reachable :=
  reachable_withPlatform.trans grown

section initial

theorem initial_fits {i : Nat} {shape : TypeShape} (there : TypeShape.initial[i]? = some shape) :
    empty.ShapeFits ⟨i⟩ shape := by
  have bound : i < 13 := (List.getElem?_eq_some_iff.mp there).1
  interval_cases i <;> cases there <;>
    exact
      { older := nofun
        primitive := fun p same => by cases same <;> rfl
        noType := fun n same => by cases same <;> rfl
        null := fun same => by cases same <;> rfl
        declared := nofun
        typeVariable := nofun }

theorem sound_empty : empty.Sound where
  initial i shape there := by rw [← there]; exact List.getElem?_toArray
  shapes t shape found := by
    have there : TypeShape.initial[t.index]? = some shape := by rw [← found]; exact List.getElem?_toArray.symm
    exact initial_fits there
  slots e slot found := by simp [slot?, empty] at found
  modules name e := by simp [slot?, empty, NameIndex.find?]
  packages name e := by simp [slot?, empty, NameIndex.find?]
  typeElements name e := by simp [slot?, empty, NameIndex.find?]
  object t usage := by cases usage
  settled e isOpen := by
    obtain ⟨slot, found, _⟩ := isOpen
    simp [slot?, empty] at found

end initial

end Store

namespace Request

open Store StoreM

variable {s : Store}

def asks : Request → Bool
  | enterModule _ | enterPackage .. | enterType .. | enterDeclarations _ | enterLocal .. => false
  | _ => true

theorem advances (h : s.Sound) (r : Request) (inRange : r.InRange s) (asks : r.asks) : s.Advances (r.run s).2 := by
  obtain ⟨elements, types⟩ := inRange
  cases r with
  | enterModule | enterPackage | enterType | enterDeclarations | enterLocal => cases asks
  | internName name => exact (h.ensures (internName_ensures h.toConsistent name)).1
  | complete e => exact (h.ensures (complete_ensures h.toConsistent e)).1
  | inspect t => exact (inspect_ensures h t).1
  | objectType => exact (objectType_tree h).1
  | arrayType c => exact (arrayType_offers h (types c (by simp [Request.types]))).1
  | declaredType enclosing e arguments =>
    exact (declaredType_offers h (fun t mem => types t (by simp_all [Request.types]))
      fun t mem => types t (by simp [Request.types, mem])).1
  | wildcardType upper lower =>
    exact (wildcardType_offers h (fun t mem => types t (by simp_all [Request.types]))
      fun t mem => types t (by simp_all [Request.types])).1
  | typeVariable e => exact (typeVariable_offers h (elements e (by simp [Request.elements]))).1
  | intersectionType bounds =>
    have composes : s.Composes (.intersection bounds) := ⟨types, nofun, by simp⟩
    exact (newType_tree h composes).1
  | unionType alternatives =>
    have composes : s.Composes (.union alternatives) := ⟨types, nofun, by simp⟩
    exact (newType_tree h composes).1
  | erase t => exact (erase_ensures h (types t (by simp [Request.types]))).1
  | substitute i t =>
    exact (substitute_ensures h (fun u mem => types u (by simp [Request.types, mem]))
      (types t (by simp [Request.types]))).1
  | directSupertypes t => exact (directSupertypes_ensures h t).1
  | asSuper t target => exact (asSuper_ensures h (types t (by simp [Request.types])) target).1
  | isSubtype a b =>
    exact (isSubtype_ensures h (types a (by simp [Request.types])) (types b (by simp [Request.types]))).1
  | asMemberOf t e => exact (asMemberOf_ensures h (types t (by simp [Request.types])) e).1
  | executable enclosing kind name ts =>
    exact (executable?_ensures h (elements enclosing (by simp [Request.elements])) name types).1
  | memberVariable enclosing name =>
    exact (memberVariable?_ensures h (elements enclosing (by simp [Request.elements])) name).1
  | typeParameter generic name =>
    exact (typeParameter?_ensures h (elements generic (by simp [Request.elements])) name).1
  | recordComponent e name =>
    exact (recordComponent?_ensures h (elements e (by simp [Request.elements])) name).1
  | describeElement own e =>
    exact (Describing.element_finds h.stays (elements e (by simp [Request.elements]))).1
  | describeType own t => exact (Describing.type_finds h.stays (types t (by simp [Request.types]))).1
  | rebuild own r => exact (Rebuilding.rebuild_follows own r s h).1

theorem addresses (h : s.Sound) (r : Request) (inRange : r.InRange s) : s.Addresses (r.run s).2 := by
  cases r with
  | enterModule name => exact (enterModule_ensures h name).1
  | enterPackage module name =>
    have there : ∀ m ∈ module, s.HasElement m := fun m mem => inRange.elements m (by simpa [Request.elements] using mem)
    exact (enterPackage_ensures h there name).1
  | enterType package d => exact (enterType_ensures h package d).1
  | enterDeclarations p => exact (enterDeclarations_ensures h p).1
  | enterLocal owner kind name type => exact (enterLocal_ensures h owner kind name type).1
  | _ => exact (advances h _ inRange rfl).addresses

end Request

namespace Store

variable {s s' : Store}

theorem LeadsTo.addresses (leads : s.LeadsTo s') (h : s.Sound) : s.Addresses s' := by
  induction leads with
  | rest => exact h.rests
  | ask r _ inRange ih => exact Movement.trans ih (r.addresses ih.sound inRange)

theorem LeadsTo.houses (leads : s.LeadsTo s') (h : s.Sound) : s.Houses s' := (leads.addresses h).toHouses

theorem LeadsTo.grown (leads : s.LeadsTo s') (h : s.Sound) : s.Grown s' := (leads.houses h).toGrown

theorem Reachable.sound (reachable : s.Reachable) : s.Sound := (reachable.grown sound_empty).sound

theorem Reachable.addressed (reachable : s.Reachable) : s.Addressed :=
  (LeadsTo.addresses reachable sound_empty).addressed fun e slot found => by simp [slot?, empty] at found

def asked (s : Store) (rs : List Request) : Store := rs.foldl (fun s r => (r.run s).2) s

theorem asked_moves {rs : List Request} (h : s.Sound) (asks : ∀ r ∈ rs, r.asks ∧ r.InRange s) :
    s.LeadsTo (s.asked rs) ∧ s.Advances (s.asked rs) := by
  induction rs generalizing s with
  | nil => exact ⟨.rest, h.stays⟩
  | cons r rs ih =>
    obtain ⟨⟨asks₁, inRange⟩, rest⟩ := List.forall_mem_cons.mp asks
    have move := r.advances h inRange asks₁
    obtain ⟨leads, later⟩ := ih move.sound fun r mem => ⟨(rest r mem).1, fun e known =>
      move.grows.has_element ((rest r mem).2.elements e known), fun t known =>
      move.grows.has_type ((rest r mem).2.types t known)⟩
    exact ⟨(LeadsTo.ask r .rest inRange).trans leads, Movement.trans move later⟩

theorem Reachable.request (reachable : s.Reachable) (r : Request) (elements : r.elements.all (·.index < s.elements.size))
    (types : r.types.all (·.index < s.types.size)) : (r.run s).2.Reachable :=
  LeadsTo.ask r reachable
    ⟨fun e mem => (of_decide_eq_true (List.all_eq_true.mp elements e mem) :),
      fun t mem => (of_decide_eq_true (List.all_eq_true.mp types t mem) :)⟩

theorem Reachable.typeVariable {e : ElementId} (reachable : s.Reachable) (there : s.HasElement e) :
    ((StoreM.typeVariable e).run s).2.Reachable :=
  .ask (.typeVariable e) reachable ⟨by simpa [Request.elements] using there, nofun⟩

theorem Reachable.declaredType {e : ElementId} {ts : List TypeId} (reachable : s.Reachable)
    (there : s.HasElement e) (known : ∀ t ∈ ts, s.HasType t) :
    ((StoreM.declaredType none e ts).run s).2.Reachable :=
  .ask (.declaredType none e ts) reachable
    ⟨by simpa [Request.elements] using there, by simpa [Request.types] using known⟩

section sample

theorem leaves {α : Type} {done : α × Store} {a : α} (result : done.1 = a) : done = (a, done.2) :=
  Prod.ext result rfl

def sampleProgram : PackageDecl :=
  { package := commonPackage
    types :=
      [.mk { kind := .classType, name := "Object" } [],
        .mk { kind := .classType, name := "Box", typeParameters := [{ name := "T" }]
              members :=
                [.field "content" (.var "T") [],
                  .method { name := "put", returnType := .void
                            parameters := [("amount", .primitive .int)] }] } []] }

-- The samples are only ever evaluated as a whole.
@[irreducible] def sample : Store := (Request.run (.enterDeclarations sampleProgram) .empty).2

@[irreducible] def completeSample : Store := (Request.run (.complete ⟨2⟩) sample).2

@[irreducible] def withVariable : Store := ((StoreM.typeVariable ⟨3⟩).run completeSample).2

@[irreducible] def withUsage : Store := ((StoreM.declaredType none ⟨2⟩ [⟨13⟩]).run withVariable).2

theorem sample_has_element {i : Nat} (small : i ≤ 2) : sample.HasElement ⟨i⟩ :=
  Nat.lt_of_le_of_lt small (show 2 < sample.elements.size by decide +kernel)

theorem completeSample_has_element {i : Nat} (small : i ≤ 6) : completeSample.HasElement ⟨i⟩ :=
  Nat.lt_of_le_of_lt small (show 6 < completeSample.elements.size by decide +kernel)

theorem reachable_sample : sample.Reachable := by
  unfold sample
  exact .ask (.enterDeclarations sampleProgram) .rest ⟨nofun, nofun⟩

theorem reachable_completeSample : completeSample.Reachable := by
  unfold completeSample
  exact .ask (.complete ⟨2⟩) reachable_sample
    ⟨by simpa [Request.elements] using sample_has_element (Nat.le_refl 2), nofun⟩

theorem reachable_withVariable : withVariable.Reachable := by
  unfold withVariable
  exact reachable_completeSample.typeVariable (completeSample_has_element (by decide))

theorem reachable_withUsage : withUsage.Reachable := by
  unfold withUsage
  refine reachable_withVariable.declaredType ?_ fun t mem => ?_
  · show 2 < withVariable.elements.size
    decide +kernel
  · cases List.mem_singleton.mp mem
    show 13 < withVariable.types.size
    decide +kernel

end sample

end Store

end Nominal
