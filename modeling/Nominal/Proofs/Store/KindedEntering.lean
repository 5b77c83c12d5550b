import Nominal.Proofs.Store.Entering
import Nominal.Proofs.Store.KindedCompletion
/-!
Entering declarations with nothing but well-kinded types keeps the types of a store well kinded, and those of the
platform are well kinded from the beginning.
-/

namespace Nominal

open Store

namespace Store

variable {s s' : Store} {e : ElementId}

section steps

theorem Kinded.addChild (k : s.Kinded) (parent child : ElementId) : s.KeepsKinds (s.addChild parent child) := by
  have now (e : ElementId) : (s.addChild parent child).slot? e =
      if e = parent then (s.slot? e).map (Slot.addChild child) else s.slot? e := slot?_update
  have state (slot : Slot) : (Slot.addChild child slot).state = slot.state ∨
      slot.kind.isContainer ∧ (Slot.addChild child slot).state = .pending .container := by
    obtain ⟨state, equal, which⟩ := addChild_eq child slot
    rw [equal]
    exact which.imp id fun ⟨_, container, same⟩ => ⟨container, same⟩
  have c : s.Carries (s.addChild parent child) :=
    { headings := fun e slot found => by
        rw [now, found]
        split
        · exact ⟨_, rfl, rfl⟩
        · exact ⟨slot, rfl, rfl⟩
      kinds := fun _ _ => id
      parameters := fun e known => by
        obtain ⟨slot, r, found, kind, done⟩ := knownParameter_iff.mp known
        rw [knownParameter_iff]
        simp only [now, found]
        split
        · refine ⟨_, r, rfl, kind, ?_⟩
          refine ((state slot).resolve_right fun ⟨container, _⟩ => ?_).trans done
          rw [kind] at container
          cases container
        · exact ⟨slot, r, rfl, kind, done⟩ }
  refine k.move c rfl rfl (fun _ _ => .inl) fun e slot found => ?_
  rw [now] at found
  split at found
  · obtain ⟨old, there, rfl⟩ := Option.map_eq_some_iff.mp found
    refine .inr (AdmitsSlot.carry ?_ c)
    have admits := k.slots e old there
    have kind : (Slot.addChild child old).kind = old.kind := rfl
    rcases state old with same | ⟨container, same⟩
    · unfold AdmitsSlot at admits ⊢
      rw [same, kind]
      split <;> rename_i state <;> rw [state] at admits
      · exact admits
      · exact ⟨⟨admits.1.isType, admits.1.kind, admits.1.name, admits.1.arity⟩, admits.2⟩
      · trivial
      · exact admits
    · rw [AdmitsSlot, same, kind]
      rintro plain
      rw [plain] at container
      cases container
  · exact .inl found

theorem Kinded.index (k : s.Kinded) (type : s.IsType e) (name : String) :
    s.KeepsKinds { s with typeElements := s.typeElements ++ [(name, e)] } := by
  have longer {name' : String} {e' : ElementId} (found : s.typeElement? name' = some e') :
      NameIndex.find? (s.typeElements ++ [(name, e)]) name' = some e' :=
    find?_of_longer (List.prefix_append _ _) found
  have c : s.Carries { s with typeElements := s.typeElements ++ [(name, e)] } :=
    ⟨fun _ slot found => ⟨slot, found, rfl⟩, fun _ _ => id, fun _ => id⟩
  refine ⟨k, ⟨k.initial, fun t shape found => (k.shapes t shape found).carry c,
    fun e slot found => (k.slots e slot found).carry c, fun name' e' found => ?_, ?_, k.usage, ?_⟩, c⟩
  · change NameIndex.find? _ _ = _ at found
    rw [NameIndex.find?, List.find?_append, Option.map_or, Option.or_eq_some_iff] at found
    rcases found with old | ⟨_, new⟩
    · exact k.typeElements name' e' old
    · obtain ⟨entry, last, rfl⟩ := Option.map_eq_some_iff.mp new
      cases List.mem_singleton.mp (List.mem_of_find?_eq_some last)
      exact type
  · obtain ⟨top, found⟩ := k.object
    exact ⟨top, longer found⟩
  · obtain ⟨enum, found, one⟩ := k.enums
    exact ⟨enum, longer found, one⟩

end steps

end Store

namespace StoreM

variable {s : Store}

section declarations

theorem newContainer_kinds (k : s.Kinded) {slot : Slot} (state : slot.state = .pending .container)
    (container : slot.kind.isContainer) : Ensures KeepsKinds s (newSlot slot) fun _ _ => True := by
  refine ⟨k.pushSlot ?_, trivial⟩
  rw [AdmitsSlot, state]
  rintro plain
  rw [plain] at container
  cases container

theorem enterModule_kinds (k : s.Kinded) (name : String) : s.KeepsKinds (enterModule name s).2 := by
  suffices Ensures KeepsKinds s (enterModule name) fun _ _ => True from this.1
  refine .get ?_
  split
  · exact .pure k.stays trivial
  · refine (newContainer_kinds k rfl rfl).bind fun id s' move _ => ?_
    exact ⟨move.kinded.retouch rfl rfl rfl move.kinded.usage, trivial⟩

theorem enterPackage_kinds (k : s.Kinded) (module : Option ElementId) (name : String) :
    s.KeepsKinds (enterPackage module name s).2 := by
  suffices Ensures KeepsKinds s (enterPackage module name) fun _ _ => True from this.1
  refine .get ?_
  split
  · exact .pure k.stays trivial
  · refine (newContainer_kinds k rfl rfl).bind fun id s' move _ => ?_
    have listed : s'.KeepsKinds { s' with packages := s'.packages ++ [(name, id)] } :=
      move.kinded.retouch rfl rfl rfl move.kinded.usage
    cases module with
    | none => exact ⟨listed, trivial⟩
    | some m => exact ⟨Movement.trans listed (listed.kinded.addChild m id), trivial⟩

theorem newTypeElement_kinds (k : s.Kinded) (enclosing : ElementId) (name : String) {h : TypeHeader}
    (isType : h.kind.isType) (fits : h.wellKinded) : s.KeepsKinds (newTypeElement enclosing name h s).2 := by
  let slot : Slot :=
    { kind := h.kind, simpleName := h.name, qualifiedName := name, enclosing := some enclosing
      arity := h.typeParameters.length, state := .pending (.type h) }
  have entered : s.KeepsKinds (s.pushSlot slot) := k.pushSlot ⟨⟨isType, rfl, rfl, rfl⟩, fits⟩
  have type : (s.pushSlot slot).IsType ⟨s.elements.size⟩ :=
    ⟨h.kind, kind?_eq_some_iff.mpr ⟨slot, (slot?_push slot).trans (if_pos rfl), rfl⟩, isType⟩
  have listed := entered.kinded.index type name
  exact Movement.trans entered (Movement.trans listed (listed.kinded.addChild enclosing _))

mutual

theorem enterTypeIn_kinds {s : Store} (k : s.Kinded) (enclosing : ElementId) (scope : String) :
    (d : TypeDecl) → d.wellKinded → Ensures KeepsKinds s (enterTypeIn enclosing scope d).run fun _ _ => True
  | .mk h nested, fits => by
    rw [TypeDecl.wellKinded, Bool.and_eq_true] at fits
    rw [enterTypeIn]
    refine .except_guard k.stays (fun _ => trivial) fun isType => ?_
    refine .except_get (.except_guard k.stays (fun _ => trivial) fun _ => ?_)
    have new : Ensures KeepsKinds s (newTypeElement enclosing (qualify scope h.name) h) fun _ _ => True :=
      ⟨newTypeElement_kinds k enclosing _ (by simpa using isType) fits.1, trivial⟩
    refine new.except_step fun id s' move _ => ?_
    refine (enterTypesIn_kinds move.kinded id (qualify scope h.name) nested fits.2).except_bind (fun _ _ _ _ => trivial)
      fun _ s'' move' _ => ?_
    exact .pure move'.kinded.stays trivial

theorem enterTypesIn_kinds {s : Store} (k : s.Kinded) (enclosing : ElementId) (scope : String) :
    (ds : List TypeDecl) → TypeDecl.allWellKinded ds →
      Ensures KeepsKinds s (enterTypesIn enclosing scope ds).run fun _ _ => True
  | [], _ => .pure k.stays trivial
  | d :: rest, fits => by
    rw [TypeDecl.allWellKinded, Bool.and_eq_true] at fits
    rw [enterTypesIn]
    refine (enterTypeIn_kinds k enclosing scope d fits.1).except_bind (fun _ _ _ => id) fun _ s' move _ => ?_
    exact enterTypesIn_kinds move.kinded enclosing scope rest fits.2

end

theorem enterType_kinds (k : s.Kinded) (package : ElementId) {d : TypeDecl} (fits : d.wellKinded) :
    s.KeepsKinds (enterType package d s).2 := by
  suffices Ensures KeepsKinds s (enterType package d).run fun _ _ => True from this.1
  refine .except_get ?_
  cases s.slot? package with
  | none => exact .pure k.stays trivial
  | some slot => exact .except_guard k.stays (fun _ => trivial) fun _ => enterTypeIn_kinds k package _ d fits

theorem enterTypes_kinds (package : ElementId) {ds : List TypeDecl} (fits : TypeDecl.allWellKinded ds)
    (k : s.Kinded) : s.KeepsKinds (enterTypes package ds s).2 := by
  induction ds generalizing s with
  | nil => exact k.stays
  | cons d ds ih =>
    rw [TypeDecl.allWellKinded, Bool.and_eq_true] at fits
    have first := enterType_kinds k package fits.1
    exact Movement.trans first (ih fits.2 first.kinded)

theorem enterDeclarations_kinds (k : s.Kinded) {p : PackageDecl} (fits : TypeDecl.allWellKinded p.types) :
    s.KeepsKinds (enterDeclarations p s).2 := by
  have modules : s.KeepsKinds (p.module.mapM enterModule s).2 := by
    cases p.module with
    | none => exact k.stays
    | some name => exact enterModule_kinds k name
  have package := enterPackage_kinds modules.kinded (p.module.mapM enterModule s).1 p.package
  exact Movement.trans modules (Movement.trans package (enterTypes_kinds _ fits package.kinded))

end declarations

section locals

open Completion

structure AsksKinds (s s' : Store) : Prop where
  advances : s.Advances s'
  keeps : s.KeepsKinds s'

instance : Movement AsksKinds where
  trans first second := ⟨Movement.trans first.advances second.advances, Movement.trans first.keeps second.keeps⟩
  stay h := ⟨Movement.stay h.advances, Movement.stay h.keeps⟩

theorem complete_asks (h : s.Sound) (k : s.Kinded) (e : ElementId) : AsksKinds s (complete e s).2 :=
  ⟨(h.ensures (complete_ensures h.toConsistent e)).1, complete_kinds h.toConsistent.orderly k e⟩

theorem answers_asking : AnswersAlong AsksKinds complete := by
  intro s e stays
  have h := stays.advances.sound
  refine ⟨complete_asks h stays.keeps.kinded e, ?_⟩
  have is : IsRecordOf (complete e s).2 e (complete e s).1 := (complete_ensures h.toConsistent e).2
  cases found : (complete e s).2.slot? e with
  | none =>
    rw [IsRecordOf, found] at is
    exact .inr ⟨by simp [isComplete_iff, found], by rw [is]; rfl⟩
  | some slot =>
    rw [IsRecordOf, found] at is
    refine .inl (is.resolve_right fun completing => ?_)
    exact (complete_asks h stays.keeps.kinded e).advances.sound.settled e ⟨slot, found, completing.1⟩

theorem scopeWithin_kinds (h : s.Sound) (k : s.Kinded) (e : ElementId) :
    Ensures AsksKinds s (scopeWithin e) fun sc s' => sc.Variables s' := by
  refine .get ?_
  refine (visibleVariables_kinds AsksKinds.keeps answers_asking (some e) ⟨h.stays, k.stays⟩).bind
    fun visible s' move known => ?_
  exact .pure (Movement.stay move) known

theorem enterLocal_kinds (h : s.Sound) (k : s.Kinded) (owner : ElementId) (kind : ElementKind) (name : String)
    {type : TypeExpr} (fits : type.wellKinded) : s.KeepsKinds (enterLocal owner kind name type s).2 := by
  suffices Ensures KeepsKinds s (enterLocal owner kind name type).run fun _ _ => True from this.1
  unfold enterLocal
  refine .except_guard k.stays (fun _ => trivial) fun isLocal => ?_
  have completed := complete_asks h k owner
  have completed' : Ensures KeepsKinds s (complete owner) fun _ s' => s'.Sound := ⟨completed.keeps, completed.advances.sound⟩
  refine completed'.except_step fun r s₁ move₁ h₁ => ?_
  refine .except_guard move₁.kinded.stays (fun _ => trivial) fun _ => ?_
  have within := scopeWithin_kinds h₁ move₁.kinded owner
  have within' : Ensures KeepsKinds s₁ (scopeWithin owner) fun sc s' => sc.Variables s' := ⟨within.1.keeps, within.2⟩
  refine within'.except_step fun sc s₂ move₂ sight => ?_
  refine (ResolveM.resolve_kinds move₂.kinded sight type fits).except_step fun ⟨t, sc'⟩ s₃ move₃ _ => ?_
  let record (id : ElementId) : ElementRecord :=
    { id, kind, simpleName := name, enclosing := some owner, asType := t, nesting := .body
      erroneous := 0 < sc'.unresolved }
  obtain ⟨variable_, container⟩ : kind ≠ .typeParameter ∧ ¬ kind.isContainer := by
    revert isLocal
    cases kind <;> decide
  have added : Ensures KeepsKinds s₃ (newComplete record) fun _ _ => True := by
    refine ⟨move₃.kinded.pushSlot (?_ : s₃.AdmitsRecord kind _), trivial⟩
    exact ⟨nofun, nofun, fun same => absurd same variable_, fun same => absurd same container⟩
  refine added.except_step fun id s₄ move₄ _ => ?_
  exact ⟨move₄.kinded.addChild owner id, trivial⟩

end locals

end StoreM

section platform

instance (h : TypeHeader) (slot : Slot) : Decidable (h.Announces slot) :=
  decidable_of_iff
    (h.kind.isType ∧ h.kind = slot.kind ∧ h.name = slot.simpleName ∧ h.typeParameters.length = slot.arity)
    ⟨fun ⟨isType, kind, name, arity⟩ => ⟨isType, kind, name, arity⟩,
      fun announces => ⟨announces.isType, announces.kind, announces.name, announces.arity⟩⟩

def Slot.awaits (slot : Slot) : Bool :=
  match slot.state with
  | .pending .container => slot.kind ≠ .typeParameter
  | .pending (.type h) => h.Announces slot ∧ h.wellKinded
  | _ => false

theorem Slot.admits_of_awaits {s : Store} {slot : Slot} (awaits : slot.awaits) : s.AdmitsSlot slot := by
  unfold Slot.awaits at awaits
  unfold AdmitsSlot
  split at awaits
  · rename_i state
    rw [state]
    exact of_decide_eq_true awaits
  · rename_i state
    rw [state]
    exact of_decide_eq_true awaits
  · cases awaits

namespace Store

theorem kinded_of_awaiting {s : Store} (fresh : s.types = TypeShape.initial.toArray ∧
      (∀ slot ∈ s.elements.toList, slot.awaits) ∧ s.objectUsage = none ∧
      (∀ entry ∈ s.typeElements, (s.kind? entry.2).any (·.isType)) ∧ s.objectElement?.isSome ∧
      (s.typeElement? Completion.enumName).any (s.arity · == 1)) : s.Kinded := by
  obtain ⟨types, slots, usage, named, object, enums⟩ := fresh
  have shape (t : TypeId) : s.shape? t = TypeShape.initial[t.index]? := by
    rw [shape?, types, List.getElem?_toArray]
  refine
    { initial := fun i shape' place => ⟨shape', (shape ⟨i⟩).trans place, by simp⟩
      shapes := fun t shape' found => ?_
      slots := fun e slot found => Slot.admits_of_awaits (slots slot ?_)
      typeElements := fun name e found => ?_
      object := Option.isSome_iff_exists.mp object
      usage := fun t now => ?_
      enums := by simpa using (Option.any_eq_true _ _).mp enums }
  · rw [shape] at found
    have plain : ∀ shape ∈ TypeShape.initial, shape.parts = [] ∧ shape.element? = none ∧ shape.kind ≠ .wildcard := by
      decide
    obtain ⟨bare, unnamed, _⟩ := plain shape' (List.mem_of_getElem? found)
    cases shape' <;> simp_all [TypeShape.parts, TypeShape.element?, TypeShape.kind, Admits]
  · exact Array.mem_toList_iff.mpr (Array.mem_of_getElem? found)
  · obtain ⟨entry, first, rfl⟩ := Option.map_eq_some_iff.mp found
    exact (Option.any_eq_true _ _).mp (named entry (List.mem_of_find?_eq_some first))
  · rw [usage] at now
    cases now

theorem kinded_withPlatform : withPlatform.Kinded := kinded_of_awaiting (by decide +kernel)

end Store

end platform

end Nominal
