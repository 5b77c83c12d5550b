import Nominal.Proofs.Order.Agreeing
import Nominal.Proofs.Order.Mirroring
import Nominal.Proofs.Types.Limit
/-!
Questions about types that are asked of one store independently of each other. On its way each may complete something
else, and in another order. Where no two elements that wait need each other, one store to compare with explains what
all of them leave behind; so whatever they are answered is what is known there.
-/

namespace Nominal

open Store StoreM

namespace StoreM

/-- The question whether `a` is below `b` as it is asked so many levels down, with the levels that are left. -/
def isSubtypeAt? (level : Nat) (a b : TypeId) : Searching Bool := isSubtypeN (boundDepth - level) a b

end StoreM

namespace Store

variable {s₀ s s' : Store} {R : Reference s₀ s₀.HasElement} {π : Renaming} {a b : TypeId} {level : Nat} {r : Bool}

theorem Reference.Explains.mirrors (poised : s₀.Poised) (ex : R.Explains π s) (h : s.Sound) : Mirrors π s R.store where
  sound := h
  sound' := R.steady.sound
  once := ex.once
  none := ex.initial _ poised.sound.has_none
  object := by
    rw [objectElement?, objectElement?, typeElement?, typeElement?, R.steady.underlies.typeElements,
      ex.under.typeElements]
  top e named := by
    rw [objectElement?, typeElement?, ex.under.typeElements] at named
    obtain ⟨slot, found, _⟩ := (poised.sound.typeElements objectName e).mp named
    exact ex.entered e (has_element_iff.mpr ⟨slot, found⟩)
  record same complete := by
    obtain ⟨q', complete', like, _⟩ := ex.record same complete
    exact ⟨q', complete', like⟩
  shape := ex.shape

section covering

theorem Reference.Covers.restate (covers : R.Covers s) (accounts : s.Accounts s') (elements : s'.elements = s.elements)
    (shapes : ∀ t shape, s.shape? t = some shape → s'.shape? t = some shape)
    (typeElements : s'.typeElements = s.typeElements) (usage : s'.objectUsage = s.objectUsage) : R.Covers s' where
  accounts := covers.accounts.trans accounts
  closed := by
    have same (e : ElementId) : s'.Open e ↔ s.Open e := by rw [Open, Open, slot?, slot?, elements]
    exact fun e isOpen => covers.closed e ((same e).mp isOpen)
  explained := by
    obtain ⟨π, ex⟩ := covers.explained
    have slots (e : ElementId) : s'.slot? e = s.slot? e := by rw [slot?, elements, slot?]
    have under : s₀.Underlies s' :=
      { slots := fun e slot found => slots e ▸ ex.under.slots e slot found
        types := fun t shape found => shapes t shape (ex.under.types t shape found)
        typeElements := typeElements.trans ex.under.typeElements }
    refine ⟨π, ex.restate under (fun e _ _ => record?_congr (slots e)) (fun t u same => ?_) usage⟩
    obtain ⟨shape, _, found, _⟩ := ex.shape same
    rw [found, shapes t shape found]

def Reference.Leads (R : Reference s₀ s₀.HasElement) (s s' : Store) : Prop := R.Covers s → R.Covers s'

theorem Reference.inquiring (R : Reference s₀ s₀.HasElement) (poised : s₀.Poised) (untangled : s₀.Untangled) :
    Inquiring R.Leads where
  refl _ := id
  trans first second := second ∘ first
  internName name s covers :=
    covers.restate (keeping_internName name s : s.Accounts _) rfl (fun _ _ => id) rfl rfl
  pushType s shape covers := by
    refine covers.restate (Extending.pushType s shape : s.Accounts _) rfl (fun t old found => ?_) rfl rfl
    have there : t.index < s.types.size := has_type_iff.mpr ⟨old, found⟩
    rw [shape?_push, if_neg (Nat.ne_of_lt there), found]
  objectType s covers := by
    have keeps : s.Keeps (objectType s).2 := Extending.objectType s
    obtain ⟨π, ex⟩ := covers.explained
    obtain ⟨π', learns, _⟩ := ex.objectType poised
    exact ⟨covers.accounts.trans (Extending.objectType s), fun e isOpen =>
      ((keeps.opens e).mp isOpen).elim (covers.closed e) id, π', learns.explains⟩
  complete e s covers := covers.complete poised untangled e

end covering

theorem Sound.below?_of_answer (h : s.Sound) (known : s.HasType a) (known' : s.HasType b)
    (answered : (isSubtypeAt? level a b).run s = (some r, s')) :
    s.Retains s' ∧ s'.below? (boundDepth - level) (s.tree a) (s.tree b) = some r := by
  obtain ⟨move, told⟩ := ((isSubtypeN_tells (boundDepth - level)).told h.stays known known').result answered
  exact ⟨move.toRetains, told⟩

/-- What any question is answered is what is known in the store to compare with. -/
theorem Reference.below?_of_answer (R : Reference s s.HasElement) (poised : s.Poised) (untangled : s.Untangled)
    (known : s.HasType a) (known' : s.HasType b) (answered : (isSubtypeAt? level a b).run s = (some r, s')) :
    R.store.below? (boundDepth - level) (R.store.tree a) (R.store.tree b) = some r := by
  have := R.inquiring poised untangled
  obtain ⟨move, told⟩ := poised.sound.below?_of_answer known known' answered
  have leads : R.Leads s ((isSubtypeAt? level a b).run s).2 := keeping_isSubtypeN (boundDepth - level) a b s
  rw [answered] at leads
  obtain ⟨π, ex⟩ := (leads (poised.covers R)).explained
  have m := ex.mirrors poised move.sound
  rw [← move.tree known, ← move.tree known'] at told
  exact m.below? _ (m.tree (ex.initial a known)) (m.tree (ex.initial b known')) told

end Store

end Nominal
