import Mathlib.Logic.Relation
import Nominal.Proofs.Store.Naming
import Nominal.Proofs.Store.Orderly
/-!
What one completion needs of others, as far as the declarations tell: a member class that is not static
needs the type around it, whose type variables it sees, and an annotation that shows a constant needs the
type to which the constant belongs. Where no two types need each other the needs can be ranked.
-/

namespace Nominal

mutual

def ValueExpr.shown : ValueExpr → List TypeExpr
  | .enumConstant t _ => [t]
  | .array vs => ValueExpr.allShown vs
  | _ => []

def ValueExpr.allShown : List ValueExpr → List TypeExpr
  | [] => []
  | v :: vs => v.shown ++ ValueExpr.allShown vs

end

def AnnotationDecl.shown (a : AnnotationDecl) : List TypeExpr := a.values.flatMap (·.2.shown)

def MemberDecl.shown : MemberDecl → List TypeExpr
  | .method d | .constructor d => d.annotations.flatMap (·.shown)
  | _ => []

def TypeHeader.shown (h : TypeHeader) : List TypeExpr :=
  h.members.flatMap (·.shown) ++ h.annotations.flatMap (·.shown)

namespace Store

variable {s : Store} {e f : ElementId}

/-- The scope in which the declaration of an element is resolved, without type variables. -/
def scopeOf (s : Store) (e : ElementId) (slot : Slot) : Scope :=
  { package := s.packageName e, owner := slot.qualifiedName }

def nestingOf (s : Store) (slot : Slot) : Nesting :=
  match slot.enclosing.bind s.kind? with
  | some k => if k.isType then .member else .topLevel
  | none => .topLevel

def inherits (s : Store) (slot : Slot) (h : TypeHeader) : Bool :=
  s.nestingOf slot = .member ∧ .static ∉ Completion.modifiersOf h (s.nestingOf slot)

def needs (s : Store) (e : ElementId) : List ElementId :=
  match s.slot? e with
  | none => []
  | some slot =>
    match slot.state with
    | .pending (.type h) =>
      (if s.inherits slot h then slot.enclosing.toList else []) ++ h.shown.filterMap ((s.scopeOf e slot).element? s)
    | _ => []

def Needs (s : Store) (e f : ElementId) : Prop := f ∈ s.needs e

/-- No two elements need each other, be it directly or through others. -/
def Untangled (s : Store) : Prop :=
  ∀ e f, Relation.ReflTransGen s.Needs e f → Relation.ReflTransGen s.Needs f e → e = f

noncomputable def needed (s : Store) (e : ElementId) : Finset ElementId :=
  open Classical in s.ids.toFinset.filter fun f => Relation.ReflTransGen s.Needs e f ∧ f ≠ e

noncomputable def rank (s : Store) (e : ElementId) : Nat := if s.isPending e then (s.needed e).card + 1 else 0

theorem mem_needed : f ∈ s.needed e ↔ s.HasElement f ∧ Relation.ReflTransGen s.Needs e f ∧ f ≠ e := by
  simp [needed, mem_ids]

theorem Needs.waits (needs : s.Needs e f) : s.isPending e := by
  unfold Needs Store.needs at needs
  split at needs
  · cases needs
  · rename_i slot found
    rw [isPending_of_slot found, Slot.isPending]
    split at needs <;> rename_i state
    · rw [state]
    · cases needs

theorem rank_of_waiting (waits : s.isPending e) : s.rank e = (s.needed e).card + 1 := if_pos waits

theorem rank_eq_zero (settled : ¬ s.isPending e) : s.rank e = 0 := if_neg settled

theorem rank_pos (waits : s.isPending e) : 0 < s.rank e := by
  rw [rank_of_waiting waits]
  exact Nat.succ_pos _

theorem Untangled.rank_lt (untangled : s.Untangled) (there : s.HasElement f) (needs : s.Needs e f) (other : f ≠ e) :
    s.rank f < s.rank e := by
  have reaches : Relation.ReflTransGen s.Needs e f := .single needs
  by_cases waits : s.isPending f
  swap
  · rw [rank_eq_zero waits]
    exact rank_pos needs.waits
  rw [rank_of_waiting waits, rank_of_waiting needs.waits]
  refine Nat.succ_lt_succ (Finset.card_lt_card ⟨fun g mem => ?_, fun within => ?_⟩)
  · obtain ⟨there', later, _⟩ := mem_needed.mp mem
    refine mem_needed.mpr ⟨there', reaches.trans later, ?_⟩
    rintro rfl
    exact other (untangled _ _ later reaches)
  · exact (mem_needed.mp (within (mem_needed.mpr ⟨there, reaches, other⟩))).2.2 rfl

theorem rank_le_size (there : s.HasElement e) : s.rank e ≤ s.elements.size := by
  have fewer : s.needed e ⊂ s.ids.toFinset := by
    refine ⟨fun f mem => ?_, fun within => ?_⟩
    · exact List.mem_toFinset.mpr (mem_ids.mpr (mem_needed.mp mem).1)
    · exact (mem_needed.mp (within (List.mem_toFinset.mpr (mem_ids.mpr there)))).2.2 rfl
  have bound : (s.needed e).card < s.elements.size :=
    (Finset.card_lt_card fewer).trans_le ((List.toFinset_card_le _).trans (by simp [ids]))
  rw [rank]
  split <;> omega

section reading

variable {slot : Slot} {h : TypeHeader}

theorem mem_needs (found : s.slot? e = some slot) (state : slot.state = .pending (.type h)) :
    f ∈ s.needs e ↔
      (s.inherits slot h ∧ slot.enclosing = some f) ∨ ∃ t ∈ h.shown, (s.scopeOf e slot).element? s t = some f := by
  rw [needs, found]
  dsimp only
  rw [state]
  dsimp only
  rw [List.mem_append, List.mem_filterMap]
  split <;> rename_i inherits <;> simp [inherits]

end reading

end Store

end Nominal
