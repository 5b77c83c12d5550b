import Nominal.Proofs.Types.Making
/-!
The types that the factories make, when they are only given variables of some sort. Such a type is the same
as nothing but itself, and its erasure is made by the factories too, from no variables at all.
-/

namespace Nominal

namespace Store

/-- Every part was let through, down to the elements and variables. -/
inductive Formed (s : Store) (varied : ElementId → Prop) : TypeTree → Prop
  | primitive (p : Primitive) : Formed s varied (.primitive p)
  | none : Formed s varied .none
  | void : Formed s varied (.noType .void)
  | null : Formed s varied .null
  | array {c : TypeTree} : StoreM.isComponentKind c.kind → Formed s varied c → Formed s varied (.array c)
  | declared {o : TypeTree} {e : ElementId} {args : List TypeTree} : s.admitsUsage (some o) e args →
    Formed s varied o → (∀ a ∈ args, Formed s varied a) → Formed s varied (.declared o e args)
  | typeVariable {e : ElementId} : varied e → Formed s varied (.typeVariable e)
  | wildcard {upper lower : Option TypeTree} :
    TypeTree.wildcardOf upper lower = some (.wildcard upper lower) → (∀ b ∈ upper, Formed s varied b) →
    (∀ b ∈ lower, Formed s varied b) → Formed s varied (.wildcard upper lower)

abbrev Closed (s : Store) (t : TypeTree) : Prop := s.Formed (fun _ => False) t

end Store

theorem TypeTree.isNone_of_kind {t : TypeTree} (h : t.kind = .none) : t.isNone := by
  cases t with
  | noType n => cases n <;> simp_all [kind, NoType.kind, isNone]
  | primitive p => cases p <;> simp [kind, Primitive.kind] at h
  | _ => simp [kind] at h

namespace Store

variable {s s' : Store} {varied varied' : ElementId → Prop} {t : TypeTree}

theorem admitsUsage_type {o : Option TypeTree} {e : ElementId} {args : List TypeTree}
    (admits : s.admitsUsage o e args) : s.IsType e := by
  simp only [admitsUsage, Bool.and_eq_true] at admits
  exact (Option.any_eq_true _ _).mp admits.1.1.1

theorem admitsUsage_outer {o : TypeTree} {e : ElementId} {args : List TypeTree}
    (admits : s.admitsUsage (some o) e args) : o.kind = .declared ∨ o.kind = .none := by
  simp only [admitsUsage, Bool.and_eq_true] at admits
  simpa using admits.2

theorem admitsUsage_none {e : ElementId} {args : List TypeTree} :
    s.admitsUsage (some .none) e args = s.admitsUsage none e args := by
  have nothing : TypeTree.none.kind = .none := rfl
  simp [admitsUsage, nothing]

theorem admitsUsage_raw {o : TypeTree} {e : ElementId} (type : s.IsType e)
    (outer : o.kind = .declared ∨ o.kind = .none) : s.admitsUsage (some o) e [] := by
  obtain ⟨k, kind, isType⟩ := type
  simpa [admitsUsage, kind, isType] using outer

namespace Formed

theorem imp (formed : s.Formed varied t) {mine : ElementId → Prop} (g : s.Grows mine s')
    (weaker : ∀ e, varied e → varied' e) : s'.Formed varied' t := by
  induction formed with
  | primitive p => exact .primitive p
  | none => exact .none
  | void => exact .void
  | null => exact .null
  | array component _ ih => exact .array component ih
  | declared admits _ _ outer inner =>
    exact .declared ((g.admitsUsage (admitsUsage_type admits).there _ _).trans admits) outer inner
  | typeVariable var => exact .typeVariable (weaker _ var)
  | wildcard made _ _ above below => exact .wildcard made above below

theorem allPlain {ts : List TypeTree} (all : ∀ t ∈ ts, t.plain) : TypeTree.allPlain ts := by
  induction ts with
  | nil => rfl
  | cons t ts ih => simp [TypeTree.allPlain, all t, ih fun u mem => all u (by simp [mem])]

theorem plain (formed : s.Formed varied t) : t.plain := by
  induction formed with
  | array _ _ ih => exact ih
  | declared _ _ _ outer inner => simp [TypeTree.plain, outer, allPlain inner]
  | wildcard _ _ _ above below =>
    rename_i upper lower _ _ _
    cases upper <;> cases lower <;> simp_all [TypeTree.plain, TypeTree.optPlain]
  | _ => rfl

section factories

variable {c : TypeTree} {outer upper lower : Option TypeTree} {args : List TypeTree} {k : TypeKind}

theorem of_array (component : s.Formed varied c) (made : c.arrayOf = some t) : s.Formed varied t := by
  obtain ⟨fits, rfl⟩ := TypeTree.arrayOf_eq made
  exact .array fits component

theorem of_usage {e : ElementId} (around : ∀ u ∈ outer, s.Formed varied u)
    (arguments : ∀ u ∈ args, s.Formed varied u) (made : s.usage outer e args = some t) : s.Formed varied t := by
  obtain ⟨admits, rfl⟩ := usage_eq made
  cases outer with
  | none => exact .declared (admitsUsage_none.trans admits) .none arguments
  | some o => exact .declared admits (around o rfl) arguments

theorem of_noType (made : TypeTree.noTypeOf k = some t) : s.Formed varied t := by
  unfold TypeTree.noTypeOf at made
  split at made <;> cases made
  · exact .none
  · exact .void

theorem of_wildcard (above : ∀ u ∈ upper, s.Formed varied u) (below : ∀ u ∈ lower, s.Formed varied u)
    (made : TypeTree.wildcardOf upper lower = some t) : s.Formed varied t := by
  cases TypeTree.wildcardOf_eq made
  exact .wildcard made above below

end factories

end Formed

/-- Every bound of a type parameter is a usage of a type or the variable of a type parameter. -/
def UsableBounds (s : Store) : Prop := ∀ e r, s.kind? e = some .typeParameter → s.record? e = some r →
  ∀ b ∈ r.bounds, s.typeKind b = .declared ∨ s.typeKind b = .typeVariable

instance (s : Store) : Decidable s.UsableBounds :=
  decidable_of_iff (∀ i < s.elements.size, s.kind? ⟨i⟩ = some .typeParameter → ∀ r ∈ s.record? ⟨i⟩,
      ∀ b ∈ r.bounds, s.typeKind b = .declared ∨ s.typeKind b = .typeVariable)
    ⟨fun all e r kind recorded =>
        all e.index (has_element_iff.mpr ((kind?_eq_some_iff.mp kind).imp fun _ => And.left)) kind r recorded,
      fun all i _ kind r recorded => all ⟨i⟩ r kind recorded⟩

section erasure

variable {top : ElementId} (h : s.Sound) (object : s.objectElement? = some top)

include h object

theorem objectTree_closed : s.Closed s.objectTree ∧ s.objectTree.kind = .declared := by
  rw [objectTree, object]
  exact ⟨.declared (admitsUsage_raw (h.objectElement_isType object) (.inr rfl)) .none (by simp), rfl⟩

variable (bounds : s.UsableBounds)

include bounds

theorem bound_erased {depth : Nat} {b : TypeId} (known : s.HasType b)
    (usable : s.typeKind b = .declared ∨ s.typeKind b = .typeVariable) :
    s.Closed ((s.tree b).erase s.context depth) ∧ ((s.tree b).erase s.context depth).kind = .declared := by
  induction depth using Nat.strongRecOn generalizing b with
  | ind depth ih =>
    have ended := objectTree_closed h object
    cases depth with
    | zero => exact ended
    | succ depth =>
      obtain ⟨shape, found⟩ := has_type_iff.mp known
      have fits := h.shapes b shape found
      rw [typeKind, shape_of_shape? found] at usable
      rw [h.erase_shape, shape_of_shape? found]
      cases shape with
      | declared outer e args =>
        obtain ⟨type, usage⟩ := fits.declared outer e args rfl
        refine ⟨?_, rfl⟩
        simp only [TypeShape.erased]
        by_cases nothing : outer = .none
        · rw [if_pos nothing]
          exact .declared (admitsUsage_raw type (.inr rfl)) .none (by simp)
        · rw [if_neg nothing]
          have usage := usage.resolve_left nothing
          have kind : s.typeKind outer = .declared := by rw [← h.tree_kind, h.kind_of_usage usage]
          obtain ⟨closed, declared⟩ :=
            ih depth (by omega) (fits.part_known known (by simp [TypeShape.parts])) (.inl kind)
          exact .declared (admitsUsage_raw type (.inl declared)) closed (by simp)
      | typeVariable e upper =>
        obtain ⟨kind, there, unique⟩ := fits.typeVariable e upper rfl
        obtain ⟨r, recorded⟩ := h.record_of_owned kind (by decide)
        obtain ⟨slot, foundₑ, fitsₑ⟩ := h.fits recorded
        obtain ⟨_, some_, upper', shape, which⟩ := fitsₑ.bound (by simpa [kind?, foundₑ] using kind)
        rw [unique r recorded, found] at shape
        cases shape
        have usable (b : TypeId) (mem : b ∈ r.bounds) := bounds e r kind recorded b mem
        change s.Closed ((s.tree upper).erase s.context depth) ∧
          ((s.tree upper).erase s.context depth).kind = .declared
        rcases which with one | several
        · exact ih depth (by omega) there (usable upper (by simp [one]))
        · cases depth with
          | zero => exact ended
          | succ depth =>
            obtain ⟨b, rest, same⟩ := List.exists_cons_of_ne_nil some_
            rw [h.erase_shape, shape_of_shape? several, same]
            have part : b ∈ (TypeShape.intersection r.bounds).parts := by simp [TypeShape.parts, same]
            exact ih depth (by omega) ((h.shapes upper _ several).part_known there part)
              (usable b (by simp [same]))
      | primitive p => cases p <;> simp [TypeShape.kind, Primitive.kind] at usable
      | noType n => cases n <;> simp [TypeShape.kind, NoType.kind] at usable
      | _ => simp [TypeShape.kind] at usable

theorem Formed.erase (formed : s.Formed varied t) (parameters : ∀ e, varied e → s.IsTypeParameter e)
    (depth : Nat) : s.Closed (t.erase s.context depth) ∧
      (StoreM.isComponentKind t.kind → StoreM.isComponentKind (t.erase s.context depth).kind) ∧
      (t.kind = .declared → (t.erase s.context depth).kind = .declared) := by
  -- A variable erases to its bound, which is a usage or a variable again, so the kinds have to be carried along.
  have ended : s.Closed s.objectTree ∧ s.objectTree.kind = .declared := objectTree_closed h object
  have usage {u : TypeTree} (closed : s.Closed u ∧ u.kind = .declared) (k : TypeKind) : s.Closed u ∧
      (StoreM.isComponentKind k → StoreM.isComponentKind u.kind) ∧ (k = .declared → u.kind = .declared) :=
    ⟨closed.1, fun _ => closed.2 ▸ rfl, fun _ => closed.2⟩
  induction formed generalizing depth with
  | primitive p =>
    cases depth with
    | zero => exact usage ended _
    | succ depth => exact ⟨.primitive p, id, id⟩
  | none =>
    cases depth with
    | zero => exact usage ended _
    | succ depth => exact ⟨.none, id, id⟩
  | void =>
    cases depth with
    | zero => exact usage ended _
    | succ depth => exact ⟨.void, id, id⟩
  | null =>
    cases depth with
    | zero => exact usage ended _
    | succ depth => exact ⟨.null, id, id⟩
  | array component _ ih =>
    cases depth with
    | zero => exact usage ended _
    | succ depth =>
      obtain ⟨closed, kind, _⟩ := ih depth
      exact ⟨.array (kind component) closed, id, by rintro ⟨⟩⟩
  | declared admits _ _ outer _ =>
    cases depth with
    | zero => exact usage ended _
    | succ depth =>
      refine usage ⟨?_, rfl⟩ _
      obtain ⟨closed, _, kind⟩ := outer depth
      rw [TypeTree.erase]
      split
      · exact .declared (admitsUsage_raw (admitsUsage_type admits) (.inr rfl)) .none (by simp)
      · rename_i some_
        have declared := (admitsUsage_outer admits).resolve_right (some_ <| TypeTree.isNone_of_kind ·)
        exact .declared (admitsUsage_raw (admitsUsage_type admits) (.inl (kind declared))) closed (by simp)
  | typeVariable var =>
    rename_i e
    have kind := parameters e var
    obtain ⟨r, recorded⟩ := h.record_of_owned kind (by decide)
    obtain ⟨slot, found, fits⟩ := h.fits recorded
    obtain ⟨_, _, upper, shape, _⟩ := fits.bound (by simpa [IsTypeParameter, kind?, found] using kind)
    have same : s.tree r.asType = .typeVariable e := h.tree_of_shape shape
    rw [← same]
    refine usage (bound_erased h object bounds fits.asType (.inr ?_)) _
    rw [typeKind, shape_of_shape? shape]
    rfl
  | wildcard made _ _ above below =>
    rename_i upper lower _ _
    cases depth with
    | zero => exact usage ended _
    | succ depth =>
      cases upper with
      | none => exact usage ended _
      | some b => exact ⟨(above b rfl depth).1, by rintro ⟨⟩, by rintro ⟨⟩⟩

end erasure

end Store

end Nominal
