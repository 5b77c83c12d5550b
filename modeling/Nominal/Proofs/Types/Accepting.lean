import Nominal.Proofs.Store.Kinded
import Nominal.Proofs.Types.Making
/-!
What the factories accept: they make a type of some parts if and only if the store admits its shape. What they refuse
leaves the store as it was.
-/

namespace Nominal.StoreM

open Store

variable {s : Store} {t : TypeId}

section checks

theorem check_ok {p : TypeKind → Bool} (fault : TypeKind → Fault) :
    (do let k ← s.knownKind t; if !p k then throw (fault k) else pure () : Except Fault Unit) = .ok () ↔ s.Is p t := by
  cases found : s.shape? t with
  | none => simp [knownKind, found, Is, bind, Except.bind]
  | some shape =>
    by_cases fits : p shape.kind <;>
      simp [knownKind, found, Is, bind, Except.bind, fits, pure, Except.pure, throw, throwThe, MonadExceptOf.throw]

def isOuterKind (k : TypeKind) : Bool := k == .declared || k == .none

theorem checkArgument_is : checkArgument s t = .ok () ↔ s.Is isArgumentKind t := check_ok .badArgument

theorem checkBound_is : checkBound s t = .ok () ↔ s.Is isBoundKind t := check_ok .badBound

theorem checkEnclosing_is : checkEnclosing s t = .ok () ↔ s.Is isOuterKind t := by
  refine Iff.trans (Eq.to_iff (congrArg (· = _) ?_)) (check_ok .badEnclosing)
  rw [checkEnclosing]
  refine bind_congr fun k => ?_
  by_cases declared : k = .declared <;> by_cases none : k = .none <;> simp [isOuterKind, declared, none]

theorem checkBounds_is {upper lower : Option TypeId} :
    checkBounds s upper lower = .ok () ↔ s.Admits (.wildcard upper lower) := by
  cases upper <;> cases lower <;>
    simp [checkBounds, Admits, checkBound_is, pure, Except.pure, throw, throwThe, MonadExceptOf.throw]

theorem checkUsage_is {enclosing : Option TypeId} {e : ElementId} {args : List TypeId} :
    checkUsage s enclosing e args = .ok () ↔
      s.Admits (.declared (enclosing.getD .none) e args) ∧ ∀ t ∈ enclosing, s.Is isOuterKind t := by
  have around : enclosing.forM (checkEnclosing s) = .ok () ↔ ∀ t ∈ enclosing, s.Is isOuterKind t := by
    cases enclosing with
    | none => simp [pure, Except.pure]
    | some t => simpa using checkEnclosing_is
  rw [checkUsage, Admits]
  cases found : s.slot? e with
  | none => simp [IsType, kind?, found, throw, throwThe, MonadExceptOf.throw]
  | some slot =>
    refine guard_ok.trans ((and_congr_right' guard_ok).trans ((and_congr_right' (and_congr_right' seq_ok)).trans ?_))
    rw [forM_ok, around]
    simp only [checkArgument_is, IsType, kind?, found, arity]
    by_cases raw : args = [] <;> simp [raw, and_assoc]

end checks

section factories

structure Makes (s : Store) (make : Checked TypeId) (shape : TypeShape) (c : Prop) : Prop where
  made : c → make.run s = (.ok ⟨s.types.size⟩, s.pushType shape)
  refused : ¬ c → ∃ fault, make.run s = (.error fault, s)

theorem makes_of_check {make : Checked TypeId} {check : Except Fault Unit} {shape : TypeShape} {c : Prop}
    (runs : make.run s = (do let _ ← check; newType shape : Checked TypeId).run s) (is : check = .ok () ↔ c) :
    Makes s make shape c where
  made holds := by
    rw [runs, is.mpr holds]
    rfl
  refused fails := by
    cases same : check with
    | ok _ => exact absurd (is.mp same) fails
    | error fault =>
      rw [runs, same]
      exact ⟨fault, rfl⟩

theorem arrayType_makes (c : TypeId) : Makes s (arrayType c) (.array c) (s.Admits (.array c)) := by
  refine makes_of_check ?_ (check_ok .badComponent)
  change (do
    let k ← (s.knownKind c : Checked TypeKind)
    if !isComponentKind k then throw (.badComponent k)
    newType (.array c) : Checked TypeId).run s = _
  cases s.knownKind c with
  | error fault => rfl
  | ok k =>
    change (do
      if !isComponentKind k then throw (.badComponent k)
      newType (.array c) : Checked TypeId).run s = (do
        (if !isComponentKind k then throw (.badComponent k) else pure () : Except Fault Unit)
        newType (.array c) : Checked TypeId).run s
    cases isComponentKind k <;> rfl

theorem declaredType_makes (enclosing : Option TypeId) (e : ElementId) (args : List TypeId) :
    Makes s (declaredType enclosing e args) (.declared (enclosing.getD .none) e args)
      (s.Admits (.declared (enclosing.getD .none) e args) ∧ ∀ t ∈ enclosing, s.Is isOuterKind t) :=
  makes_of_check rfl checkUsage_is

theorem wildcardType_makes (upper lower : Option TypeId) :
    Makes s (wildcardType upper lower) (.wildcard upper lower) (s.Admits (.wildcard upper lower)) :=
  makes_of_check rfl checkBounds_is

end factories

end Nominal.StoreM
