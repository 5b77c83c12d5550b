import Nominal.Proofs.Compilation.Forest
import Nominal.Proofs.Store.Reachable
/-!
What a refusal leaves. The types are entered in the order in which one reads them, and the first that cannot be entered
ends it: the store is then the one that entering what was read before leaves. It is as it was before only if it is the
outermost type that is refused.
-/

namespace Nominal

/-- Reading declarations in a scope one has read `part` of them when one comes to the header, which goes under the
name. -/
inductive TypeDecl.ReadUpTo : String → List TypeDecl → List TypeDecl → String → TypeHeader → Prop
  | start {scope h nested rest} : ReadUpTo scope [] (.mk h nested :: rest) (qualify scope h.name) h
  | inside {scope h part nested rest name g} (more : ReadUpTo (qualify scope h.name) part nested name g) :
      ReadUpTo scope [.mk h part] (.mk h nested :: rest) name g
  | later {scope d part rest name g} (more : ReadUpTo scope part rest name g) :
      ReadUpTo scope (d :: part) (d :: rest) name g

/-- Why a type of this header cannot be entered under the name. -/
def Store.objection? (s : Store) (name : String) (h : TypeHeader) : Option Fault :=
  if !h.kind.isType then some (.notTypeKind h.name h.kind)
  else if (s.typeElement? name).isSome then some (.duplicate name)
  else none

namespace Store

/-- From `s` to `s'` types were entered, with `heads` in `o` and the others inside these. Nothing else is new, and what
was there is as it was, but that `o` got the heads as children. -/
structure Enlists (s : Store) (o : ElementId) (heads : List ElementId) (s' : Store) : Prop where
  slots : ∀ e slot, s.slot? e = some slot →
    s'.slot? e = some (if e = o then heads.foldl (fun slot head => Slot.addChild head slot) slot else slot)
  apart : { s' with elements := s.elements, typeElements := s.typeElements } = s

namespace Enlists

variable {s s' s'' : Store} {o e : ElementId} {heads more : List ElementId}

theorem refl (s : Store) (o : ElementId) : s.Enlists o [] s where
  slots e slot found := by simp [found]
  apart := rfl

theorem trans (first : s.Enlists o heads s') (second : s'.Enlists o more s'') : s.Enlists o (heads ++ more) s'' where
  slots e slot found := by
    rw [second.slots e _ (first.slots e slot found), List.foldl_append]
    split <;> rfl
  apart := by
    rw [← first.apart, ← second.apart]

theorem inside (first : s.Enlists o heads s') (new : s.slot? e = none) (second : s'.Enlists e more s'') : s.Enlists o heads s'' where
  slots f slot found := by
    have other : f ≠ e := by
      rintro rfl
      cases new.symm.trans found
    rw [second.slots f _ (first.slots f slot found), if_neg other]
  apart := by
    rw [← first.apart, ← second.apart]

end Enlists

end Store

namespace Checked

variable {α β : Type} {x : Checked α} {s s' : Store} {e : Fault}

theorem bind_error {f : α → Checked β} :
    (x >>= f).run s = (.error e, s') ↔
      x.run s = (.error e, s') ∨ ∃ a s₁, x.run s = (.ok a, s₁) ∧ (f a).run s₁ = (.error e, s') := by
  rw [ExceptT.run_bind]
  change StateT.bind x.run _ s = _ ↔ _
  rw [StateT.bind]
  rcases x.run s with ⟨_ | a, s₁⟩
  · constructor
    · rintro ⟨⟩
      exact .inl rfl
    · rintro (⟨⟨⟩⟩ | ⟨_, _, ⟨⟩, _⟩)
      rfl
  · constructor
    · intro refused
      exact .inr ⟨a, s₁, rfl, refused⟩
    · rintro (⟨⟨⟩⟩ | ⟨_, _, ⟨⟩, refused⟩)
      exact refused

theorem guard_error {c : Prop} [Decidable c] {f : Fault} {x : Unit → Checked β} :
    ExceptT.run (have rest := x
      if c then throw f >>= fun u => rest u else rest () : Checked β) s = (.error e, s') ↔
      c ∧ f = e ∧ s = s' ∨ ¬ c ∧ (x ()).run s = (.error e, s') := by
  split <;> rename_i holds
  · constructor
    · rintro ⟨⟩
      exact .inl ⟨holds, rfl, rfl⟩
    · rintro (⟨_, rfl, rfl⟩ | ⟨other, _⟩)
      · rfl
      · exact absurd holds other
  · simp [holds]

end Checked

namespace StoreM

open Store TypeDecl

variable {s s' : Store} {o : ElementId} {scope : String} {f : Fault}

theorem enterTypeIn_error {h : TypeHeader} {nested : List TypeDecl} :
    (enterTypeIn o scope (.mk h nested)).run s = (.error f, s') ↔
      s.objection? (qualify scope h.name) h = some f ∧ s = s' ∨
        s.objection? (qualify scope h.name) h = none ∧
          (enterTypesIn (newTypeElement o (qualify scope h.name) h s).1 (qualify scope h.name) nested).run
            (newTypeElement o (qualify scope h.name) h s).2 = (.error f, s') := by
  rw [enterTypeIn]
  refine Checked.guard_error.trans ?_
  by_cases isType : h.kind.isType
  · simp only [objection?, isType, Bool.not_true, Bool.false_eq_true, false_and, not_false_eq_true, true_and, false_or,
      if_false]
    refine Checked.get_run.trans ?_
    refine Checked.guard_error.trans ?_
    by_cases there : (s.typeElement? (qualify scope h.name)).isSome
    · simp [there]
    · simp only [there, Bool.false_eq_true, false_and, not_false_eq_true, true_and, false_or, if_false, reduceCtorEq]
      refine Checked.lift_run.trans ?_
      refine Checked.bind_error.trans (or_iff_left ?_)
      rintro ⟨_, _, _, ⟨⟩⟩
  · simp [objection?, isType]

theorem enterTypesIn_nil_error : (enterTypesIn o scope []).run s ≠ (.error f, s') := by
  rw [enterTypesIn]
  rintro ⟨⟩

theorem enterTypesIn_cons_error {d : TypeDecl} {rest : List TypeDecl} :
    (enterTypesIn o scope (d :: rest)).run s = (.error f, s') ↔
      (enterTypeIn o scope d).run s = (.error f, s') ∨
        ∃ e s₁, (enterTypeIn o scope d).run s = (.ok e, s₁) ∧ (enterTypesIn o scope rest).run s₁ = (.error f, s') := by
  rw [enterTypesIn, Checked.bind_error]

theorem objection?_eq_none {name : String} {h : TypeHeader} :
    s.objection? name h = none ↔ h.kind.isType ∧ s.typeElement? name = none := by
  rw [objection?]
  split <;> rename_i isType
  · simp_all
  · split <;> rename_i there <;> simp_all [Option.isSome_iff_ne_none]

theorem enterTypesIn_single_ok {h : TypeHeader} {nested : List TypeDecl} :
    (enterTypesIn o scope [.mk h nested]).run s = (.ok (), s') ↔
      s.objection? (qualify scope h.name) h = none ∧
        (enterTypesIn (newTypeElement o (qualify scope h.name) h s).1 (qualify scope h.name) nested).run
          (newTypeElement o (qualify scope h.name) h s).2 = (.ok (), s') := by
  rw [enterTypesIn_cons_ok, objection?_eq_none]
  constructor
  · rintro ⟨e, s₁, goes, rest⟩
    obtain ⟨isType, free, rfl, goes⟩ := enterTypeIn_ok.mp goes
    cases enterTypesIn_nil_ok.mp rest
    exact ⟨⟨isType, free⟩, goes⟩
  · rintro ⟨⟨isType, free⟩, goes⟩
    exact ⟨_, s', enterTypeIn_ok.mpr ⟨isType, free, rfl, goes⟩, enterTypesIn_nil_ok.mpr rfl⟩

/-- Declarations are refused where one first meets a header that cannot be entered, and what was read before that is
entered. -/
theorem enterTypesIn_refused_iff : (ds : List TypeDecl) → ∀ {s : Store} {o : ElementId} {scope : String},
    (enterTypesIn o scope ds).run s = (.error f, s') ↔ ∃ part name h, ReadUpTo scope part ds name h ∧
      (enterTypesIn o scope part).run s = (.ok (), s') ∧ s'.objection? name h = some f
  | [], s, o, scope => by
    refine iff_of_false enterTypesIn_nil_error ?_
    rintro ⟨_, _, _, ⟨⟩, _⟩
  | .mk h nested :: rest, s, o, scope => by
    rw [enterTypesIn_cons_error, enterTypeIn_error, enterTypesIn_refused_iff nested]
    constructor
    · rintro ((⟨refused, rfl⟩ | ⟨accepted, part, name, g, reads, goes, refused⟩) | ⟨e, s₁, goes, refused⟩)
      · exact ⟨[], _, h, .start, enterTypesIn_nil_ok.mpr rfl, refused⟩
      · exact ⟨_, name, g, reads.inside, enterTypesIn_single_ok.mpr ⟨accepted, goes⟩, refused⟩
      · obtain ⟨part, name, g, reads, goes', refused⟩ := (enterTypesIn_refused_iff rest).mp refused
        exact ⟨_, name, g, reads.later, enterTypesIn_cons_ok.mpr ⟨e, s₁, goes, goes'⟩, refused⟩
    · rintro ⟨_, name, g, reads, goes, refused⟩
      cases reads with
      | start =>
        cases enterTypesIn_nil_ok.mp goes
        exact .inl (.inl ⟨refused, rfl⟩)
      | inside reads =>
        obtain ⟨accepted, goes⟩ := enterTypesIn_single_ok.mp goes
        exact .inl (.inr ⟨accepted, _, name, g, reads, goes, refused⟩)
      | later reads =>
        obtain ⟨e, s₁, goes, goes'⟩ := enterTypesIn_cons_ok.mp goes
        exact .inr ⟨e, s₁, goes, (enterTypesIn_refused_iff rest).mpr ⟨_, name, g, reads, goes', refused⟩⟩

section adds

theorem newTypeElement_adds (o : ElementId) (name : String) (h : TypeHeader) (s : Store) :
    s.Enlists o [(newTypeElement o name h s).1] (newTypeElement o name h s).2 where
  slots e slot found := by
    have there : e.index ≠ s.elements.size := Nat.ne_of_lt (has_element_iff.mpr ⟨slot, found⟩)
    change (Store.updateSlot _ o (Slot.addChild ⟨s.elements.size⟩)).slot? e = _
    rw [slot?_update]
    have kept : (s.pushSlot { kind := h.kind, simpleName := h.name, qualifiedName := name, enclosing := some o
                              arity := h.typeParameters.length, state := .pending (.type h) }).slot? e = some slot := by
      rw [slot?_push, if_neg there, found]
    split
    · exact congrArg (Option.map _) kept
    · exact kept
  apart := rfl

mutual

theorem enterTypeIn_adds (o : ElementId) (scope : String) : (d : TypeDecl) → ∀ {s s' : Store} {e : ElementId},
    (enterTypeIn o scope d).run s = (.ok e, s') → s.Enlists o [e] s'
  | .mk h nested, s, s', e, goes => by
    obtain ⟨_, _, rfl, goes⟩ := enterTypeIn_ok.mp goes
    obtain ⟨heads, _, inside⟩ := enterTypesIn_adds _ (qualify scope h.name) nested goes
    exact (newTypeElement_adds o _ h s).inside (newTypeElement_new o _ h s) inside

theorem enterTypesIn_adds (o : ElementId) (scope : String) : (ds : List TypeDecl) → ∀ {s s' : Store},
    (enterTypesIn o scope ds).run s = (.ok (), s') → ∃ heads, heads.length = ds.length ∧ s.Enlists o heads s'
  | [], s, s', goes => by
    cases enterTypesIn_nil_ok.mp goes
    exact ⟨[], rfl, .refl s o⟩
  | d :: rest, s, s', goes => by
    obtain ⟨e, s₁, goes, goes'⟩ := enterTypesIn_cons_ok.mp goes
    obtain ⟨heads, length, others⟩ := enterTypesIn_adds o scope rest goes'
    exact ⟨e :: heads, by rw [List.length_cons, length, List.length_cons], (enterTypeIn_adds o scope d goes).trans others⟩

end

end adds

theorem enterTypesIn_eq_iff {ds : List TypeDecl} (goes : (enterTypesIn o scope ds).run s = (.ok (), s')) : s' = s ↔ ds = [] := by
  constructor
  · rintro rfl
    obtain ⟨_, ⟨heads, takes⟩, _⟩ := enterTypesIn_takes o scope ds goes
    have none : TypeDecl.allNames scope ds = [] := by simpa using takes.names_eq
    match ds with
    | [] => rfl
    | .mk h nested :: rest =>
      rw [TypeDecl.allNames, TypeDecl.names] at none
      cases none
  · rintro rfl
    exact (enterTypesIn_nil_ok.mp goes).symm

end StoreM

open StoreM TypeDecl in
/-- A type is refused if and only if it is to go into what is no package or some header, first in the order of reading,
cannot be entered: it is of no type or its name is there by then. In the first case the store is as it was. In the
second it is as entering what was read before leaves it, so it is as it was only if nothing was; otherwise the index
goes on with the names that were read and the package got the outermost type as a child, while all else that was there
is as it was. -/
theorem refused_type_leaves_what_was_read_before (s s' : Store) (p : ElementId) (d : TypeDecl) (f : Fault) :
    (enterType p d).run s = (.error f, s') ↔
      s' = s ∧ s.slot? p = none ∧ f = .unknownElement p ∨
      ∃ slot, s.slot? p = some slot ∧
        (s' = s ∧ slot.kind ≠ .package ∧ f = .notPackage slot.qualifiedName ∨
          slot.kind = .package ∧ ∃ part name h, ReadUpTo slot.qualifiedName part [d] name h ∧
            s'.objection? name h = some f ∧ (enterTypesIn p slot.qualifiedName part).run s = (.ok (), s') ∧
            (s' = s ↔ part = []) ∧ s'.typeElements.names = s.typeElements.names ++ allNames slot.qualifiedName part ∧
            ∃ heads, heads.length = part.length ∧ s.Enlists p heads s') := by
  rw [enterType]
  refine Checked.get_run.trans ?_
  cases found : s.slot? p with
  | none =>
    constructor
    · rintro ⟨⟩
      exact .inl ⟨rfl, rfl, rfl⟩
    · rintro (⟨rfl, _, rfl⟩ | ⟨_, ⟨⟩, _⟩)
      rfl
  | some slot =>
    refine Checked.guard_error.trans ?_
    have single : (enterTypeIn p slot.qualifiedName d).run s = (.error f, s') ↔
        (enterTypesIn p slot.qualifiedName [d]).run s = (.error f, s') := by
      refine (enterTypesIn_cons_error.trans (or_iff_left ?_)).symm
      rintro ⟨_, _, _, refused⟩
      exact enterTypesIn_nil_error refused
    rw [single, enterTypesIn_refused_iff]
    constructor
    · rintro (⟨other, rfl, rfl⟩ | ⟨package, part, name, h, reads, goes, refused⟩)
      · exact .inr ⟨slot, rfl, .inl ⟨rfl, other, rfl⟩⟩
      · obtain ⟨_, ⟨_, takes⟩, _⟩ := enterTypesIn_takes p slot.qualifiedName part goes
        exact .inr ⟨slot, rfl, .inr ⟨not_not.mp package, part, name, h, reads, refused, goes, enterTypesIn_eq_iff goes,
          takes.names_eq, enterTypesIn_adds p slot.qualifiedName part goes⟩⟩
    · rintro (⟨_, ⟨⟩, _⟩ | ⟨_, ⟨⟩, ⟨rfl, other, rfl⟩ | ⟨package, part, name, h, reads, refused, goes, _⟩⟩)
      · exact .inl ⟨other, rfl, rfl⟩
      · exact .inr ⟨not_not.mpr package, part, name, h, reads, goes, refused⟩

section sample

namespace Store

def twiceNested : TypeDecl :=
  .mk { kind := .classType, name := "Outer" }
    [.mk { kind := .classType, name := "Inner" } [], .mk { kind := .classType, name := "Inner" } []]

@[irreducible] def withPackage : Store := (Request.run (.enterPackage none "app") empty).2

theorem reachable_withPackage : withPackage.Reachable := by
  rw [withPackage]
  exact .ask (.enterPackage none "app") .rest ⟨nofun, nofun⟩

end Store

open StoreM Store in
/-- The outer type stays where a nested one is refused. -/
theorem refused_type_is_found : ¬ ∀ (s s' : Store) (p : ElementId) (d : TypeDecl) (f : Fault), s.Reachable →
    (enterType p d).run s = (.error f, s') → s'.elements = s.elements ∧ s'.typeElements = s.typeElements := by
  intro claimed
  obtain ⟨_, same⟩ := claimed withPackage _ ⟨0⟩ twiceNested (.duplicate "app.Outer.Inner") reachable_withPackage
    (Prod.ext (by decide +kernel) rfl)
  exact absurd same (by decide +kernel)

end sample

end Nominal
