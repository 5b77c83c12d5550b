import Nominal.Proofs.Store.Consistent
/-!
What a declaration names as superclass and interfaces. Names are those of what was entered, so this can be told
before anything is completed, and completion does not change it.
-/

namespace Nominal

def Scope.element? (sc : Scope) (s : Store) : TypeExpr → Option ElementId
  | .named name args => (sc.typeElement? s name).filter fun e => args.isEmpty || args.length == s.arity e
  | _ => none

def TypeShape.head? : TypeShape → Option ElementId
  | declared _ e _ => some e
  | _ => none

def Scope.place (sc : Scope) : Scope := { package := sc.package, owner := sc.owner }

namespace TypeHeader

variable (h : TypeHeader) (sc : Scope) (s : Store)

def superclassElement? : Option ElementId :=
  match h.kind, h.superclass with
  | .enumType, _ => s.typeElement? Completion.enumName
  | .recordType, _ => s.typeElement? Completion.recordName
  | .classType, some t => sc.element? s t
  | .classType, none => if sc.owner = objectName then none else s.objectElement?
  | _, _ => none

def interfaceElements : List (Option ElementId) :=
  let named := h.interfaces.map (sc.element? s)
  match h.superclass with
  | some t => if h.kind.isInterface then sc.element? s t :: named else named
  | none => named

def heads : List (Option ElementId) := h.superclassElement? sc s :: h.interfaceElements sc s

end TypeHeader

namespace Store

def head? (s : Store) (t : TypeId) : Option ElementId := (s.shape? t).bind TypeShape.head?

def heads (s : Store) (r : ElementRecord) : List (Option ElementId) := (r.superclass :: r.interfaces).map s.head?

inductive InPackage (s : Store) : ElementId → String → Prop
  | itself {e : ElementId} {slot : Slot} : s.slot? e = some slot → slot.kind = .package → InPackage s e slot.qualifiedName
  | inside {e o : ElementId} {slot : Slot} {name : String} : s.slot? e = some slot → slot.kind ≠ .package →
      slot.enclosing = some o → InPackage s o name → InPackage s e name

def Bears (s : Store) (e : ElementId) (slot : Slot) (h : TypeHeader) (r : ElementRecord) : Prop :=
  ∃ package, s.InPackage e package ∧ s.heads r = h.heads { package, owner := slot.qualifiedName } s

variable {s s' : Store} {e : ElementId} {t : TypeId} {sc sc' : Scope}

theorem InPackage.unique {name name' : String} (first : s.InPackage e name) (second : s.InPackage e name') :
    name = name' := by
  induction first with
  | itself found package =>
    cases second with
    | itself found' _ => cases found.symm.trans found'; rfl
    | inside found' other _ _ => cases found.symm.trans found'; exact absurd package other
  | inside found other enclosing _ ih =>
    cases second with
    | itself found' package => cases found.symm.trans found'; exact absurd package other
    | inside found' _ enclosing' rest =>
      cases found.symm.trans found'
      cases enclosing.symm.trans enclosing'
      exact ih rest

theorem Consistent.inPackageN (h : s.Consistent) {fuel : Nat} (deep : e.index < fuel) {k : ElementKind}
    (known : s.kind? e = some k) (listed : k = .package ∨ k.isType) : s.InPackage e (s.packageNameN fuel (some e)) := by
  induction fuel generalizing e k with
  | zero => cases deep
  | succ fuel ih =>
    obtain ⟨slot, found, rfl⟩ := kind?_eq_some_iff.mp known
    rw [packageNameN, found]
    dsimp only
    split <;> rename_i package
    · exact .itself found package
    · have isType := listed.resolve_left package
      obtain ⟨o, k, enclosing, older, kind, admits⟩ := (h.slots e slot found).placed (ElementKind.isType_not_container isType)
      have outer : k = .package ∨ k.isType := by
        revert admits isType
        cases slot.kind <;> cases k <;> decide
      rw [enclosing]
      exact .inside found package enclosing (ih (by omega) kind outer)

theorem Consistent.inPackage (h : s.Consistent) (type : s.IsType e) : s.InPackage e (s.packageName e) := by
  obtain ⟨k, known, isType⟩ := type
  exact h.inPackageN (Nat.lt_succ_of_lt (IsType.there ⟨k, known, isType⟩)) known (.inr isType)

theorem Consistent.typeElement_isType (h : s.Consistent) {name : String} (named : s.typeElement? name = some e) :
    s.IsType e := by
  obtain ⟨slot, found, isType, _⟩ := (h.typeElements name e).mp named
  exact ⟨slot.kind, kind?_eq_some_iff.mpr ⟨slot, found, rfl⟩, isType⟩

theorem Consistent.supertypes_known (h : s.Consistent) {r : ElementRecord} (complete : s.record? e = some r) :
    ∀ t ∈ r.superclass :: r.interfaces, s.HasType t := by
  obtain ⟨slot, found, state⟩ := record?_eq_some_iff.mp complete
  have fits := (h.slots e slot found).state
  simp only [StateFits, state] at fits
  exact List.forall_mem_cons.mpr ⟨fits.superclass, fits.interfaces⟩

theorem element?_congr (listed : ∀ name e, s.typeElement? name = some e → s.HasElement e)
    (indexes : s'.typeElements = s.typeElements) (arity : ∀ e, s.HasElement e → s'.arity e = s.arity e)
    (place : sc'.place = sc.place) : sc'.element? s' = sc.element? s := by
  have package : sc'.package = sc.package := congrArg (·.package) place
  have owner : sc'.owner = sc.owner := congrArg (·.owner) place
  funext t
  cases t with
  | named name args =>
    have same : sc'.typeElement? s' name = sc.typeElement? s name := by
      unfold Scope.typeElement? Scope.candidates typeElement?
      rw [indexes, package, owner]
    rw [Scope.element?, Scope.element?, same]
    cases named : sc.typeElement? s name with
    | none => rfl
    | some e =>
      obtain ⟨candidate, _, found⟩ := List.exists_of_findSome?_eq_some named
      rw [Option.filter_some, Option.filter_some, arity e (listed candidate e found)]
  | _ => rfl

theorem Consistent.element?_congr (h : s.Consistent) (indexes : s'.typeElements = s.typeElements)
    (arity : ∀ e, s.HasElement e → s'.arity e = s.arity e) (place : sc'.place = sc.place) :
    sc'.element? s' = sc.element? s :=
  Store.element?_congr (fun _ _ named => (h.typeElement_isType named).there) indexes arity place

theorem Consistent.heads_congr (h : s.Consistent) (indexes : s'.typeElements = s.typeElements)
    (arity : ∀ e, s.HasElement e → s'.arity e = s.arity e) (place : sc'.place = sc.place) (header : TypeHeader) :
    header.heads sc' s' = header.heads sc s := by
  have owner : sc'.owner = sc.owner := congrArg (·.owner) place
  have named : s'.typeElement? = s.typeElement? := by
    unfold typeElement?
    rw [indexes]
  unfold TypeHeader.heads TypeHeader.superclassElement? TypeHeader.interfaceElements objectElement?
  rw [h.element?_congr indexes arity place, named, owner]

end Store

end Nominal
