import Nominal.Proofs.Store.Keeper
import Nominal.Types.Factory
import Nominal.Types.Membership
/-!
Asking about types, making types from types and looking for members takes nothing back.
-/

namespace Nominal

open Store

/-- Asking about types and making types from types goes this way, as far as it does not happen in steps that go
this way themselves. -/
class Asking (R : Store → Store → Prop) : Prop extends Attentive R where
  objectType : ∀ s, R s (StoreM.objectType s).2
  erase : ∀ t s, R s (StoreM.erase t s).2
  directSupertypes : ∀ t s, R s (StoreM.directSupertypes t s).2
  arrayType : ∀ c s, R s ((StoreM.arrayType c).run s).2
  declaredType : ∀ enclosing e args s, R s ((StoreM.declaredType enclosing e args).run s).2
  wildcardType : ∀ upper lower s, R s ((StoreM.wildcardType upper lower).run s).2

namespace StoreM

section derivation

variable {R : Store → Store → Prop} [Inquiring R]

theorem keeping_eraseN (depth : Nat) (t : TypeId) : Keeping R (eraseN depth t) := by
  induction depth generalizing t with
  | zero => exact keeping_objectType
  | succ depth ih =>
    refine Keeper.bind keeping_get fun s => ?_
    split <;> grind

theorem keeping_substituteN (i : Instantiation) (fuel : Nat) (t : TypeId) : Keeping R (substituteN i fuel t) := by
  induction fuel generalizing t with
  | zero => exact Keeper.pure t
  | succ fuel ih =>
    refine Keeper.bind keeping_get fun s => ?_
    split <;> grind

@[grind ←]
theorem keeping_substitute (i : Instantiation) (t : TypeId) : Keeping R (substitute i t) := by
  grind [substitute, keeping_substituteN]

theorem keeping_declaredSupertypes (r : ElementRecord) : Keeping R (declaredSupertypes r) := by
  grind [declaredSupertypes]

instance : Asking R where
  objectType := keeping_objectType
  erase t := keeping_eraseN boundDepth t
  directSupertypes t := by
    have erases (t : TypeId) : Keeping R (erase t) := keeping_eraseN boundDepth t
    exact (by grind [directSupertypes, keeping_declaredSupertypes] : Keeping R (directSupertypes t))
  arrayType c := (by grind [arrayType] : Keeping R (arrayType c))
  declaredType enclosing e args := (by grind [declaredType] : Keeping R (declaredType enclosing e args))
  wildcardType upper lower := (by grind [wildcardType] : Keeping R (wildcardType upper lower))

end derivation

section asking

variable {R : Store → Store → Prop} [Asking R]

@[grind ←]
theorem keeping_topType : Keeping R objectType := Asking.objectType

@[grind ←]
theorem keeping_erase (t : TypeId) : Keeping R (erase t) := Asking.erase t

section supertypes

@[grind ←]
theorem keeping_directSupertypes (t : TypeId) : Keeping R (directSupertypes t) := Asking.directSupertypes t

@[grind ←]
theorem keeping_visit (target : ElementId) (f : Frontier) (t : TypeId) : Keeping R (visit target f t) := by
  grind [visit]

theorem keeping_visitAll (target : ElementId) (f : Frontier) (ts : List TypeId) :
    Keeping R (visitAll target f ts) := by
  induction ts generalizing f with
  | nil => exact Keeper.pure _
  | cons t rest ih => grind [visitAll]

theorem keeping_searchStep {target : ElementId} {again : Frontier → Searching (Option TypeId)}
    (rest : ∀ f, Keeping R (again f)) (f : Frontier) : Keeping R (searchStep target again f) := by
  unfold searchStep
  split
  · exact Keeper.pure _
  · refine Keeper.bind (keeping_partial_lift (keeping_visitAll target _ _)) fun r => ?_
    split
    · exact Keeper.pure _
    · exact rest _

theorem keeping_idleN {target : ElementId} {renew : Frontier → Searching (Option TypeId)}
    (rest : ∀ f, Keeping R (renew f)) (idle : Nat) (f : Frontier) : Keeping R (idleN target renew idle f) := by
  induction idle generalizing f with
  | zero => exact keeping_failure
  | succ idle ih => exact keeping_searchStep (fun f' => by split <;> grind) f

theorem keeping_searchN (target : ElementId) (fuel : Nat) (f : Frontier) : Keeping R (searchN target fuel f) := by
  induction fuel generalizing f with
  | zero => exact keeping_failure
  | succ fuel ih => exact Keeper.bind keeping_partial_get fun s => keeping_idleN ih _ f

@[grind ←]
theorem keeping_asSuper? (t : TypeId) (target : ElementId) : Keeping R (asSuper? t target) :=
  Keeper.bind keeping_partial_get fun _ => keeping_searchN target _ _

@[grind ←]
theorem keeping_asSuper (t : TypeId) (target : ElementId) : Keeping R (asSuper t target) :=
  Keeper.bind (keeping_partial_run (keeping_asSuper? t target)) fun _ => Keeper.pure _

end supertypes

theorem keeping_findM {α : Type} {p : α → StoreM Bool} (asks : ∀ a, Keeping R (p a)) (as : List α) :
    Keeping R (findM p as) := by
  induction as with
  | nil => exact Keeper.pure none
  | cons a rest ih => grind [findM]

section subtyping

variable {ask : TypeId → TypeId → Searching Bool}

theorem keeping_contains (asks : ∀ a b, Keeping R (ask a b)) (t s : TypeId) : Keeping R (contains ask t s) := by
  refine Keeper.bind keeping_partial_get fun st => ?_
  split
  · split <;> grind
  · split <;> grind
  · exact Keeper.pure true
  · exact Keeper.pure _

theorem keeping_argumentsFit (asks : ∀ a b, Keeping R (ask a b)) (actual wanted : List TypeId) :
    Keeping R (argumentsFit ask actual wanted) := by
  grind [argumentsFit, keeping_allM, keeping_contains]

theorem keeping_isSubtypeN (depth : Nat) (a b : TypeId) : Keeping R (isSubtypeN depth a b) := by
  induction depth generalizing a b with
  | zero => exact Keeper.pure false
  | succ depth ih =>
    refine Keeper.bind keeping_partial_get fun s => ?_
    split
    · exact Keeper.pure true
    · split <;> grind [keeping_allM, keeping_anyM, keeping_argumentsFit]

theorem keeping_isSubtype (a b : TypeId) : Keeping R (isSubtype a b) :=
  Keeper.bind (keeping_partial_run (keeping_isSubtypeN boundDepth a b)) fun _ => Keeper.pure _

end subtyping

section members

theorem keeping_erasesTo (e : ElementId) (wanted : TypeId) : Keeping R (erasesTo e wanted) := by
  grind [erasesTo]

theorem keeping_fitsSignature (kind : ElementKind) (name : String) (wanted : List TypeId) (e : ElementId) :
    Keeping R (fitsSignature kind name wanted e) := by
  grind [fitsSignature, keeping_allM, keeping_erasesTo]

@[grind ←]
theorem keeping_executable? (enclosing : ElementId) (kind : ElementKind) (name : String) (ts : List TypeId) :
    Keeping R (executable? enclosing kind name ts) := by
  grind [executable?, keeping_findM, keeping_fitsSignature]

@[grind ←]
theorem keeping_memberVariable? (enclosing : ElementId) (name : String) :
    Keeping R (memberVariable? enclosing name) := by
  have named (e : ElementId) : Keeping R (isVariableNamed name e) := by grind [isVariableNamed]
  grind [memberVariable?, keeping_findM]

theorem keeping_isNamed (name : String) (e : ElementId) : Keeping R (isNamed name e) := by
  grind [isNamed]

@[grind ←]
theorem keeping_typeParameter? (generic : ElementId) (name : String) :
    Keeping R (typeParameter? generic name) := by
  grind [typeParameter?, keeping_findM, keeping_isNamed]

@[grind ←]
theorem keeping_recordComponent? (e : ElementId) (name : String) : Keeping R (recordComponent? e name) := by
  grind [recordComponent?, keeping_findM, keeping_isNamed]

end members

section making

@[grind ←]
theorem keeping_arrayType (component : TypeId) : Keeping R (arrayType component) := Asking.arrayType component

@[grind ←]
theorem keeping_declaredType (enclosing : Option TypeId) (e : ElementId) (arguments : List TypeId) :
    Keeping R (declaredType enclosing e arguments) := Asking.declaredType enclosing e arguments

@[grind ←]
theorem keeping_wildcardType (upper lower : Option TypeId) : Keeping R (wildcardType upper lower) :=
  Asking.wildcardType upper lower

@[grind ←]
theorem keeping_typeVariable (e : ElementId) : Keeping R (typeVariable e) := by
  grind [typeVariable]

end making

end asking

section views

variable {R : Store → Store → Prop} [Tame R]

@[grind ←]
theorem keeping_viewMember (owner member : ElementRecord) (view : TypeId) :
    Keeping R (viewMember owner member view) := by
  grind [viewMember]

theorem keeping_asMemberOf? (containing : TypeId) (e : ElementId) : Keeping R (asMemberOf? containing e) := by
  refine Keeper.bind keeping_partial_get fun s => ?_
  split
  · exact Keeper.pure _
  · refine Keeper.bind (keeping_partial_lift (keeping_complete e)) fun member => ?_
    split
    · exact Keeper.pure _
    · exact Keeper.bind (keeping_partial_lift (keeping_complete _)) (by grind)

theorem keeping_asMemberOf (containing : TypeId) (e : ElementId) : Keeping R (asMemberOf containing e) := by
  refine Keeper.bind (keeping_checked_lift (keeping_partial_run (keeping_asMemberOf? containing e))) fun r => ?_
  split <;> grind

end views

end StoreM

end Nominal
