import Nominal.Proofs.Store.Exhausting
import Nominal.Types.Factory
/-!
Types of fitting kinds. A written type is well kinded if the factories would accept its parts, as far as their
kinds can be told from what is written. The resolver does not look at kinds; completing what is declared
with nothing but well-kinded types adds only types that the factories would have made.
-/

namespace Nominal

open StoreM (isComponentKind isArgumentKind isBoundKind)

section written

namespace TypeExpr

def kind : TypeExpr → TypeKind
  | primitive k => if k.isPrimitive then k else .error
  | void => .void
  | named .. => .declared
  | var _ => .typeVariable
  | array _ => .array
  | wildcard .. => .wildcard

mutual

def wellKinded : TypeExpr → Bool
  | named _ args => argumentsFit args
  | array c => c.wellKinded && isComponentKind c.kind
  | wildcard upper lower => (upper.isNone || lower.isNone) && boundFits upper && boundFits lower
  | primitive _ | void | var _ => true

def argumentsFit : List TypeExpr → Bool
  | [] => true
  | t :: rest => t.wellKinded && isArgumentKind t.kind && argumentsFit rest

def boundFits : Option TypeExpr → Bool
  | none => true
  | some b => b.wellKinded && isBoundKind b.kind

end

end TypeExpr

def TypeParameterDecl.wellKinded (p : TypeParameterDecl) : Bool :=
  p.bounds.all fun b => b.wellKinded && isBoundKind b.kind

mutual

def ValueExpr.wellKinded : ValueExpr → Bool
  | .bool _ | .int _ | .str _ => true
  | .type t | .enumConstant t _ => t.wellKinded
  | .array values => ValueExpr.allWellKinded values

def ValueExpr.allWellKinded : List ValueExpr → Bool
  | [] => true
  | v :: rest => v.wellKinded && ValueExpr.allWellKinded rest

end

def AnnotationDecl.wellKinded (a : AnnotationDecl) : Bool :=
  a.type.wellKinded && a.values.all (·.2.wellKinded)

def ExecutableDecl.wellKinded (d : ExecutableDecl) : Bool :=
  d.typeParameters.all (·.wellKinded) && d.parameters.all (·.2.wellKinded) && d.returnType.wellKinded
    && d.thrown.all (·.wellKinded) && d.annotations.all (·.wellKinded)

def MemberDecl.wellKinded : MemberDecl → Bool
  | field _ t _ | recordComponent _ t => t.wellKinded
  | enumConstant _ => true
  | method d => d.wellKinded
  | constructor d => { d with returnType := .void }.wellKinded

def TypeHeader.wellKinded (h : TypeHeader) : Bool :=
  h.typeParameters.all (·.wellKinded) && h.superclass.all (·.wellKinded) && h.interfaces.all (·.wellKinded)
    && h.members.all (·.wellKinded) && h.annotations.all (·.wellKinded)

mutual

def TypeDecl.wellKinded : TypeDecl → Bool
  | .mk h nested => h.wellKinded && TypeDecl.allWellKinded nested

def TypeDecl.allWellKinded : List TypeDecl → Bool
  | [] => true
  | d :: rest => d.wellKinded && TypeDecl.allWellKinded rest

end

end written

namespace Store

def Is (s : Store) (p : TypeKind → Bool) (t : TypeId) : Prop := ∃ shape, s.shape? t = some shape ∧ p shape.kind

def isErasable (k : TypeKind) : Bool := isComponentKind k || k == .wildcard

def Admits (s : Store) : TypeShape → Prop
  | .array c => s.Is isComponentKind c
  | .declared _ e args =>
    s.IsType e ∧ (args = [] ∨ args.length = s.arity e) ∧ ∀ a ∈ args, s.Is isArgumentKind a
  | .wildcard upper lower =>
    (upper = none ∨ lower = none) ∧ (∀ b ∈ upper, s.Is isBoundKind b) ∧ ∀ b ∈ lower, s.Is isBoundKind b
  | .typeVariable _ upper => upper = .none ∨ s.Is isBoundKind upper
  | .union ts | .intersection ts => ∀ t ∈ ts, s.Is isErasable t
  | _ => True

def KnownParameter (s : Store) (e : ElementId) : Prop := s.IsTypeParameter e ∧ s.isComplete e

structure AdmitsRecord (s : Store) (k : ElementKind) (r : ElementRecord) : Prop where
  bounds : .none ∉ r.bounds
  parameters : ∀ p ∈ r.typeParameters, s.KnownParameter p
  variable_ : k = .typeParameter → s.Is (· == .typeVariable) r.asType
  place : k.isContainer → r.asType = .module ∨ r.asType = .package

def AdmitsSlot (s : Store) (slot : Slot) : Prop :=
  match slot.state with
  | .pending .container => slot.kind ≠ .typeParameter
  | .pending (.type h) => h.Announces slot ∧ h.wellKinded
  | .completing => True
  | .complete r => s.AdmitsRecord slot.kind r

/-- Every type is well kinded, and so is every declaration that is still to be completed. There is a top type,
and the type above all enumerations takes one argument. -/
structure Kinded (s : Store) : Prop where
  initial : ∀ i shape, TypeShape.initial[i]? = some shape → s.Is (· == shape.kind) ⟨i⟩
  shapes : ∀ t shape, s.shape? t = some shape → s.Admits shape
  slots : ∀ e slot, s.slot? e = some slot → s.AdmitsSlot slot
  typeElements : ∀ name e, s.typeElement? name = some e → s.IsType e
  object : ∃ e, s.objectElement? = some e
  usage : ∀ t, s.objectUsage = some t → s.Is (· == .declared) t
  enums : ∃ e, s.typeElement? Completion.enumName = some e ∧ s.arity e = 1

/-- What was said of elements and types still holds. -/
structure Carries (s s' : Store) : Prop where
  headings : s.SameHeadings s'
  kinds : ∀ p t, s.Is p t → s'.Is p t
  parameters : ∀ e, s.KnownParameter e → s'.KnownParameter e

/-- A course of events in which every type stays well kinded. -/
structure KeepsKinds (s s' : Store) : Prop where
  start : s.Kinded
  kinded : s'.Kinded
  carries : s.Carries s'

section carrying

variable {s s' s'' : Store} {t : TypeId} {e : ElementId} {shape : TypeShape} {p q : TypeKind → Bool}

theorem Is.imp (is : s.Is p t) (weaker : ∀ k, p k → q k) : s.Is q t := by
  obtain ⟨shape, found, kind⟩ := is
  exact ⟨shape, found, weaker _ kind⟩

theorem Carries.refl (s : Store) : s.Carries s := ⟨fun _ slot found => ⟨slot, found, rfl⟩, fun _ _ => id, fun _ => id⟩

theorem Carries.trans (first : s.Carries s') (second : s'.Carries s'') : s.Carries s'' where
  headings := first.headings.trans second.headings
  kinds p t := second.kinds p t ∘ first.kinds p t
  parameters e := second.parameters e ∘ first.parameters e

instance : Movement KeepsKinds where
  trans first second := ⟨first.start, second.kinded, first.carries.trans second.carries⟩
  stay h := ⟨h.kinded, h.kinded, .refl _⟩

theorem Kinded.stays (k : s.Kinded) : s.KeepsKinds s := ⟨k, k, .refl s⟩

theorem Carries.kind (c : s.Carries s') {k : ElementKind} (kind : s.kind? e = some k) : s'.kind? e = some k := by
  obtain ⟨slot, found, rfl⟩ := kind?_eq_some_iff.mp kind
  obtain ⟨slot', found', same⟩ := c.headings e slot found
  exact kind?_eq_some_iff.mpr ⟨slot', found', Slot.kind_of_heading same⟩

theorem Carries.isType (c : s.Carries s') (type : s.IsType e) : s'.IsType e := by
  obtain ⟨k, kind, is⟩ := type
  exact ⟨k, c.kind kind, is⟩

theorem Carries.arity (c : s.Carries s') (type : s.IsType e) : s'.arity e = s.arity e := by
  obtain ⟨_, kind, _⟩ := type
  obtain ⟨slot, found, _⟩ := kind?_eq_some_iff.mp kind
  obtain ⟨slot', found', same⟩ := c.headings e slot found
  simp only [Store.arity, found, found', Option.map_some, Option.getD_some]
  exact (congrArg Slot.arity same :)

theorem Admits.carry (admits : s.Admits shape) (c : s.Carries s') : s'.Admits shape := by
  cases shape with
  | array => exact c.kinds _ _ admits
  | declared o e args =>
    obtain ⟨type, count, kinds⟩ := admits
    exact ⟨c.isType type, by rwa [c.arity type], fun a mem => c.kinds _ a (kinds a mem)⟩
  | wildcard =>
    obtain ⟨one, above, below⟩ := admits
    exact ⟨one, fun b mem => c.kinds _ b (above b mem), fun b mem => c.kinds _ b (below b mem)⟩
  | typeVariable => exact Or.imp_right (c.kinds _ _) admits
  | union | intersection => exact fun t mem => c.kinds _ t (admits t mem)
  | _ => trivial

theorem AdmitsRecord.carry {k : ElementKind} {r : ElementRecord} (admits : s.AdmitsRecord k r) (c : s.Carries s') :
    s'.AdmitsRecord k r where
  bounds := admits.bounds
  parameters p mem := c.parameters p (admits.parameters p mem)
  variable_ kind := c.kinds _ _ (admits.variable_ kind)
  place := admits.place

theorem AdmitsSlot.carry {slot : Slot} (admits : s.AdmitsSlot slot) (c : s.Carries s') : s'.AdmitsSlot slot := by
  unfold AdmitsSlot at admits ⊢
  split at admits
  · exact admits
  · exact admits
  · trivial
  · exact admits.carry c

theorem isComplete_iff : s.isComplete e ↔ ∃ slot r, s.slot? e = some slot ∧ slot.state = .complete r := by
  rw [isComplete, Option.isSome_iff_exists]
  simp only [record?_eq_some_iff]
  exact exists_comm

theorem knownParameter_iff : s.KnownParameter e ↔
    ∃ slot r, s.slot? e = some slot ∧ slot.kind = .typeParameter ∧ slot.state = .complete r := by
  rw [KnownParameter, IsTypeParameter, kind?_eq_some_iff, isComplete_iff]
  constructor
  · rintro ⟨⟨slot, found, kind⟩, slot', r, found', state⟩
    cases found.symm.trans found'
    exact ⟨slot, r, found, kind, state⟩
  · rintro ⟨slot, r, found, kind, state⟩
    exact ⟨⟨slot, found, kind⟩, slot, r, found, state⟩

theorem Kinded.record (k : s.Kinded) {kind : ElementKind} {r : ElementRecord} (known : s.kind? e = some kind)
    (complete : s.record? e = some r) : s.AdmitsRecord kind r := by
  obtain ⟨slot, found, state⟩ := record?_eq_some_iff.mp complete
  obtain ⟨slot', found', rfl⟩ := kind?_eq_some_iff.mp known
  cases found.symm.trans found'
  simpa only [AdmitsSlot, state] using k.slots e slot found

theorem Kinded.retouch (k : s.Kinded) (elements : s'.elements = s.elements) (types : s'.types = s.types)
    (typeElements : s'.typeElements = s.typeElements)
    (usage : ∀ t, s'.objectUsage = some t → s.Is (· == .declared) t) : s.KeepsKinds s' := by
  have slot (e : ElementId) : s'.slot? e = s.slot? e := by rw [slot?, elements, slot?]
  have shape (t : TypeId) : s'.shape? t = s.shape? t := by rw [shape?, types, shape?]
  have named (name : String) : s'.typeElement? name = s.typeElement? name := by
    rw [typeElement?, typeElements, typeElement?]
  have c : s.Carries s' :=
    { headings := fun e slot' found => ⟨slot', by rw [slot, found], rfl⟩
      kinds := by
        rintro p t ⟨shape', found, kind⟩
        exact ⟨shape', by rw [shape, found], kind⟩
      parameters := by
        rintro e ⟨kind, complete⟩
        exact ⟨by rwa [IsTypeParameter, kind?, slot], by rwa [isComplete, record?, slot]⟩ }
  refine ⟨k, ⟨fun i shape place => c.kinds _ _ (k.initial i shape place), fun t shape' found => ?_,
    fun e slot' found => ?_, fun name e found => ?_, ?_, ?_, ?_⟩, c⟩
  · exact (k.shapes t shape' (by rwa [shape] at found)).carry c
  · exact (k.slots e slot' (by rwa [slot] at found)).carry c
  · exact c.isType (k.typeElements name e (by rwa [named] at found))
  · rw [objectElement?, named]
    exact k.object
  · exact fun t now => c.kinds _ t (usage t now)
  · obtain ⟨e, found, one⟩ := k.enums
    exact ⟨e, by rw [named, found], by rw [c.arity (k.typeElements _ e found), one]⟩

end carrying

section steps

variable {s : Store} {t : TypeId} {e : ElementId} {slot : Slot} {shape : TypeShape}

theorem Kinded.move {s' : Store} (k : s.Kinded) (c : s.Carries s') (index : s'.typeElements = s.typeElements)
    (usage : s'.objectUsage = s.objectUsage)
    (shapes : ∀ t shape, s'.shape? t = some shape → s.shape? t = some shape ∨ s'.Admits shape)
    (slots : ∀ e slot, s'.slot? e = some slot → s.slot? e = some slot ∨ s'.AdmitsSlot slot) : s.KeepsKinds s' := by
  have named (name : String) : s'.typeElement? name = s.typeElement? name := by
    rw [typeElement?, index, typeElement?]
  refine ⟨k, ⟨fun i shape place => c.kinds _ _ (k.initial i shape place), fun t shape found => ?_,
    fun e slot found => ?_, fun name e found => ?_, ?_, fun t now => ?_, ?_⟩, c⟩
  · exact (shapes t shape found).elim (fun old => (k.shapes t shape old).carry c) id
  · exact (slots e slot found).elim (fun old => (k.slots e slot old).carry c) id
  · exact c.isType (k.typeElements name e (by rwa [named] at found))
  · rw [objectElement?, named]
    exact k.object
  · exact c.kinds _ t (k.usage t (by rwa [usage] at now))
  · obtain ⟨e, found, one⟩ := k.enums
    exact ⟨e, by rw [named, found], by rw [c.arity (k.typeElements _ e found), one]⟩

theorem Kinded.pushType (k : s.Kinded) (admits : s.Admits shape) : s.KeepsKinds (s.pushType shape) := by
  have c : s.Carries (s.pushType shape) :=
    { headings := fun _ slot found => ⟨slot, found, rfl⟩
      kinds := fun p t ⟨old, found, kind⟩ => by
        have there : t.index < s.types.size := has_type_iff.mpr ⟨old, found⟩
        exact ⟨old, by rw [shape?_push, if_neg (Nat.ne_of_lt there), found], kind⟩
      parameters := fun _ => id }
  refine k.move c rfl rfl (fun t shape' found => ?_) fun _ _ => .inl
  rw [shape?_push] at found
  split at found
  · cases found
    exact .inr (admits.carry c)
  · exact .inl found

theorem Kinded.pushSlot (k : s.Kinded) (admits : s.AdmitsSlot slot) : s.KeepsKinds (s.pushSlot slot) := by
  have old {e : ElementId} {slot' : Slot} (found : s.slot? e = some slot') :
      (s.pushSlot slot).slot? e = some slot' := by
    have there : e.index < s.elements.size := has_element_iff.mpr ⟨slot', found⟩
    rw [slot?_push, if_neg (Nat.ne_of_lt there), found]
  have c : s.Carries (s.pushSlot slot) :=
    { headings := fun _ slot' found => ⟨slot', old found, rfl⟩
      kinds := fun _ _ => id
      parameters := fun e known => by
        obtain ⟨slot', r, found, fits⟩ := knownParameter_iff.mp known
        exact knownParameter_iff.mpr ⟨slot', r, old found, fits⟩ }
  refine k.move c rfl rfl (fun _ _ => .inl) fun e slot' found => ?_
  rw [slot?_push] at found
  split at found
  · cases found
    exact .inr (admits.carry c)
  · exact .inl found

theorem Kinded.setState (k : s.Kinded) {state : SlotState}
    (admits : ∀ slot, s.slot? e = some slot → s.AdmitsSlot { slot with state })
    (closed : s.KnownParameter e → ∃ r, state = .complete r) : s.KeepsKinds (s.setState e state) := by
  have now (e' : ElementId) : (s.setState e state).slot? e' =
      if e' = e then (s.slot? e').map ({ · with state }) else s.slot? e' :=
    slot?_update (f := ({ · with state }))
  have c : s.Carries (s.setState e state) :=
    { headings := fun e' slot found => by
        rw [now, found]
        split
        · exact ⟨_, rfl, rfl⟩
        · exact ⟨slot, rfl, rfl⟩
      kinds := fun _ _ => id
      parameters := fun e' known => by
        obtain ⟨slot, r, found, kind, done⟩ := knownParameter_iff.mp known
        rw [knownParameter_iff]
        simp only [now, found]
        split <;> rename_i here
        · obtain ⟨r', rfl⟩ := closed (here ▸ known)
          exact ⟨_, r', rfl, kind, rfl⟩
        · exact ⟨slot, r, rfl, kind, done⟩ }
  refine k.move c rfl rfl (fun _ _ => .inl) fun e' slot found => ?_
  rw [now] at found
  split at found <;> rename_i here
  · subst here
    obtain ⟨slot', old, rfl⟩ := Option.map_eq_some_iff.mp found
    exact .inr ((admits slot' old).carry c)
  · exact .inl found

theorem Kinded.updateShape (k : s.Kinded) (variable_ : s.Is (· == .typeVariable) t) {upper : TypeId}
    (bound : s.Is isBoundKind upper) : s.KeepsKinds (s.updateShape t (.typeVariable e upper)) := by
  obtain ⟨shape, was, kind⟩ := variable_
  have there : s.HasType t := has_type_iff.mpr ⟨shape, was⟩
  have c : s.Carries (s.updateShape t (.typeVariable e upper)) :=
    { headings := fun _ slot found => ⟨slot, found, rfl⟩
      kinds := fun p u ⟨shape', found, fits⟩ => by
        rw [Is, shape?_update there]
        split <;> rename_i here
        · subst here
          cases was.symm.trans found
          rw [eq_of_beq kind] at fits
          exact ⟨_, rfl, fits⟩
        · exact ⟨shape', found, fits⟩
      parameters := fun _ => id }
  refine k.move c rfl rfl (fun u shape' found => ?_) fun _ _ => .inl
  rw [shape?_update there] at found
  split at found
  · cases found
    exact .inr (.inr (c.kinds _ _ bound))
  · exact .inl found

end steps

end Store

namespace StoreM

open Store

variable {s : Store}

theorem newType_kinds {shape : TypeShape} (k : s.Kinded) (admits : s.Admits shape) :
    Ensures KeepsKinds s (newType shape) fun t s' => s'.shape? t = some shape :=
  ⟨k.pushType admits, (shape?_push shape).trans (if_pos rfl)⟩

theorem objectType_kinds (k : s.Kinded) : Ensures KeepsKinds s objectType fun t s' => s'.Is (· == .declared) t := by
  refine .get ?_
  cases usage : s.objectUsage with
  | some t => exact .pure k.stays (k.usage t usage)
  | none =>
    obtain ⟨e, named⟩ := k.object
    rw [named]
    dsimp only
    have admits : s.Admits (.declared .none e []) := ⟨k.typeElements _ e named, .inl rfl, by simp⟩
    refine (newType_kinds k admits).bind fun t s' move shape => ?_
    have is : s'.Is (· == .declared) t := ⟨_, shape, rfl⟩
    have remember : s'.KeepsKinds { s' with objectUsage := some t } := by
      refine move.kinded.retouch rfl rfl rfl ?_
      rintro _ ⟨⟩
      exact is
    exact ⟨remember, is⟩

end StoreM

def Scope.Variables (sc : Scope) (s : Store) : Prop := ∀ v ∈ sc.visible, s.Is (· == .typeVariable) v.2

theorem Scope.Variables.carry {sc : Scope} {s s' : Store} (sight : sc.Variables s) (c : s.Carries s') :
    sc.Variables s' := fun v mem => c.kinds _ _ (sight v mem)

namespace ResolveM

open Store StoreM

variable {s : Store} {sc : Scope}

def Resolves (t : TypeExpr) (id : TypeId) (s : Store) : Prop := s.Is (fun k => k == t.kind || k == .error) id

theorem Resolves.carry {s' : Store} {t : TypeExpr} {id : TypeId} (resolves : Resolves t id s) (c : s.Carries s') :
    Resolves t id s' := c.kinds _ _ resolves

theorem Resolves.fits {p : TypeKind → Bool} {t : TypeExpr} {id : TypeId} (resolves : Resolves t id s)
    (written : p t.kind) (error : p .error) : s.Is p id := by
  refine resolves.imp fun k same => ?_
  rcases Bool.or_eq_true _ _ ▸ same with same | same <;> rw [eq_of_beq same] <;> assumption

theorem newType_kinds {shape : TypeShape} (k : s.Kinded) (sight : sc.Variables s) (admits : s.Admits shape) :
    Ensures KeepsKinds s (newType shape sc) fun r s' => s'.shape? r.1 = some shape ∧ r.2.Variables s' := by
  have made : Ensures KeepsKinds s (StoreM.newType shape) _ := StoreM.newType_kinds k admits
  exact ⟨made.1, made.2, sight.carry made.1.carries⟩

theorem unresolvedType_kinds (k : s.Kinded) (sight : sc.Variables s) (name : String) (t : TypeExpr) :
    Ensures KeepsKinds s (unresolvedType name sc) fun r s' => Resolves t r.1 s' ∧ r.2.Variables s' := by
  let sc₁ : Scope := { sc with unresolved := sc.unresolved + 1 }
  have made : Ensures KeepsKinds s (newType (.error name) sc₁) _ := newType_kinds k sight trivial
  exact made.imp fun r s' _ ⟨shape, sight⟩ => ⟨⟨_, shape, by simp [TypeShape.kind]⟩, sight⟩

theorem written_of_resolved {ts : List TypeExpr} {ids : List TypeId} (all : List.Forall₂ (Resolves · · s) ts ids)
    {id : TypeId} (mem : id ∈ ids) : ∃ t ∈ ts, Resolves t id s := by
  induction all with
  | nil => cases mem
  | cons first _ ih =>
    rcases List.mem_cons.mp mem with rfl | mem
    · exact ⟨_, by simp, first⟩
    · obtain ⟨t, written, resolves⟩ := ih mem
      exact ⟨t, by simp [written], resolves⟩

theorem argumentsFit_wellKinded {ts : List TypeExpr} (fits : TypeExpr.argumentsFit ts) : ∀ t ∈ ts, t.wellKinded := by
  induction ts with
  | nil => simp
  | cons t ts ih => simp_all [TypeExpr.argumentsFit]

theorem argumentsFit_kind {ts : List TypeExpr} (fits : TypeExpr.argumentsFit ts) :
    ∀ t ∈ ts, isArgumentKind t.kind := by
  induction ts with
  | nil => simp
  | cons t ts ih => simp_all [TypeExpr.argumentsFit]

mutual

theorem resolve_kinds {s : Store} {sc : Scope} (k : s.Kinded) (sight : sc.Variables s) :
    (t : TypeExpr) → t.wellKinded → Ensures KeepsKinds s (resolve t sc) fun r s' =>
      Resolves t r.1 s' ∧ r.2.Variables s'
  | .primitive kind, _ => by
    rw [resolve]
    cases primitive : kind.primitive? with
    | none => exact unresolvedType_kinds k sight _ _
    | some p =>
      have place : s.Is (· == p.kind) (.primitive p) := k.initial _ (.primitive p) (by cases p <;> rfl)
      have same : p.kind = kind := by
        have found := List.find?_some (show Primitive.all.find? (·.kind == kind) = some p from primitive)
        exact eq_of_beq found
      have written : (TypeExpr.primitive kind).kind = p.kind := by
        rw [TypeExpr.kind, TypeKind.isPrimitive, primitive, same]
        rfl
      exact .pure k.stays ⟨place.imp fun k' is => by rw [eq_of_beq is, written]; simp, sight⟩
  | .void, _ => by
    have place : s.Is (· == .void) .void := k.initial 1 (.noType .void) rfl
    exact .pure k.stays ⟨place.imp fun k' is => by rw [eq_of_beq is]; rfl, sight⟩
  | .var name, _ => by
    rw [resolve]
    refine .scope ?_
    cases found : sc.boundVariable? name with
    | none => exact unresolvedType_kinds k sight _ _
    | some t =>
      obtain ⟨v, at_, rfl⟩ := Option.map_eq_some_iff.mp found
      have is := sight v (List.mem_of_find?_eq_some at_)
      exact .pure k.stays ⟨is.imp fun k' is => by rw [eq_of_beq is]; rfl, sight⟩
  | .named name args, fits => by
    rw [TypeExpr.wellKinded] at fits
    rw [resolve]
    refine .store (.scope ?_)
    cases found : sc.typeElement? s name with
    | none => exact unresolvedType_kinds k sight _ _
    | some e =>
      dsimp only
      split <;> rename_i count
      · exact unresolvedType_kinds k sight _ _
      · obtain ⟨candidate, _, named⟩ := List.exists_of_findSome?_eq_some found
        have type := k.typeElements candidate e named
        refine (resolveAll_kinds k sight args (argumentsFit_wellKinded fits)).resolve_bind
          fun ids sc₁ s₁ move ⟨parts, sight₁⟩ => ?_
        have admits : s₁.Admits (.declared .none e ids) := by
          refine ⟨move.carries.isType type, ?_, fun a mem => ?_⟩
          · rw [move.carries.arity type, ← parts.length_eq]
            by_cases raw : args = []
            · subst raw
              cases parts
              exact .inl rfl
            · exact .inr (by simpa [raw] using count)
          · obtain ⟨t, written, resolves⟩ := written_of_resolved parts mem
            exact resolves.fits (argumentsFit_kind fits t written) rfl
        exact (newType_kinds move.kinded sight₁ admits).imp fun r s₂ _ ⟨shape, sight₂⟩ =>
          ⟨⟨_, shape, rfl⟩, sight₂⟩
  | .array c, fits => by
    rw [TypeExpr.wellKinded, Bool.and_eq_true] at fits
    rw [resolve]
    refine (resolve_kinds k sight c fits.1).resolve_bind fun id sc₁ s₁ move ⟨resolves, sight₁⟩ => ?_
    have admits : s₁.Admits (.array id) := resolves.fits fits.2 rfl
    exact (newType_kinds move.kinded sight₁ admits).imp fun r s₂ _ ⟨shape, sight₂⟩ => ⟨⟨_, shape, rfl⟩, sight₂⟩
  | .wildcard upper lower, fits => by
    simp only [TypeExpr.wellKinded, Bool.and_eq_true, Bool.or_eq_true, Option.isNone_iff_eq_none] at fits
    obtain ⟨⟨one, above⟩, below⟩ := fits
    rw [resolve]
    refine (resolve?_kinds k sight upper above).resolve_bind fun u sc₁ s₁ move₁ ⟨noUpper, bound₁, sight₁⟩ => ?_
    refine (resolve?_kinds move₁.kinded sight₁ lower below).resolve_bind
      fun l sc₂ s₂ move₂ ⟨noLower, bound₂, sight₂⟩ => ?_
    have admits : s₂.Admits (.wildcard u l) :=
      ⟨one.imp noUpper.mpr noLower.mpr, fun b mem => move₂.carries.kinds _ b (bound₁ b mem), bound₂⟩
    exact (newType_kinds move₂.kinded sight₂ admits).imp fun r s₃ _ ⟨shape, sight₃⟩ => ⟨⟨_, shape, rfl⟩, sight₃⟩

theorem resolveAll_kinds {s : Store} {sc : Scope} (k : s.Kinded) (sight : sc.Variables s) :
    (ts : List TypeExpr) → (∀ t ∈ ts, t.wellKinded) → Ensures KeepsKinds s (resolveAll ts sc) fun r s' =>
      List.Forall₂ (Resolves · · s') ts r.1 ∧ r.2.Variables s'
  | [], _ => .pure k.stays ⟨.nil, sight⟩
  | t :: rest, fits => by
    rw [resolveAll]
    refine (resolve_kinds k sight t (fits t (by simp))).resolve_bind fun id sc₁ s₁ move₁ ⟨first, sight₁⟩ => ?_
    refine (resolveAll_kinds move₁.kinded sight₁ rest fun t mem => fits t (by simp [mem])).resolve_bind
      fun ids sc₂ s₂ move₂ ⟨others, sight₂⟩ => ?_
    exact .pure move₂.kinded.stays ⟨.cons (first.carry move₂.carries) others, sight₂⟩

theorem resolve?_kinds {s : Store} {sc : Scope} (k : s.Kinded) (sight : sc.Variables s) :
    (t? : Option TypeExpr) → TypeExpr.boundFits t? → Ensures KeepsKinds s (resolve? t? sc) fun r s' =>
      (r.1 = none ↔ t? = none) ∧ (∀ b ∈ r.1, s'.Is isBoundKind b) ∧ r.2.Variables s'
  | none, _ => .pure k.stays ⟨by simp, by simp, sight⟩
  | some t, fits => by
    rw [TypeExpr.boundFits, Bool.and_eq_true] at fits
    rw [resolve?, ← bind_pure_comp]
    refine (resolve_kinds k sight t fits.1).resolve_bind fun id sc' s' move ⟨resolves, sight'⟩ => ?_
    refine .pure move.kinded.stays ⟨by simp, ?_, sight'⟩
    rintro _ ⟨⟩
    exact resolves.fits fits.2 rfl

end

end ResolveM

end Nominal
