import Nominal.Proofs.Recipe.RoundTrip
/-!
What came back once comes back at any time. A recipe that was followed back to an element or a type depends on
nothing that was completed on the way: whoever starts where it was given out and asks for other things first is
led back as well.
-/

namespace Nominal

open Store StoreM Rebuilding

namespace Store

variable {s s' s₂ : Store} {lex : Lexicon} {own : Recipe} {e o : ElementId} {t : TypeId} {slot : Slot}

section means

variable {f : ElementId → Option Recipe} {used varied : ElementId → Prop}

theorem formed_of_renders {n : Nat} {t : TypeTree} (within : t.Within used varied n)
    (stands : s.Renders lex own f t t) : s.Formed (fun e => varied e ∧ s.Answers lex own f e) t := by
  induction n generalizing t with
  | zero => exact within.elim
  | succ n ih =>
    cases t with
    | primitive p => exact .primitive p
    | null => exact .null
    | noType k =>
      cases k with
      | none => exact .none
      | void => exact .void
      | package | module => obtain ⟨r, ⟨⟩, _⟩ := stands
    | array c =>
      obtain ⟨_, component, fits, ⟨⟩⟩ := renders_array stands
      exact .array fits (ih within component)
    | declared outer e args =>
      obtain ⟨_, around, insides⟩ := within
      obtain ⟨outer?, _, _, outside, _, arguments, admits, ⟨⟩⟩ := renders_declared stands
      have formed : ∀ a ∈ args, s.Formed (fun e => varied e ∧ s.Answers lex own f e) a := fun a mem =>
        ih (insides a mem) (List.forall₂_same.mp arguments a mem)
      cases outer? with
      | none => exact .declared (admitsUsage_none.trans admits) .none formed
      | some o => exact .declared admits (ih around (outside o rfl).2) formed
    | typeVariable e =>
      obtain ⟨_, answers, ⟨⟩⟩ := renders_typeVariable stands
      exact .typeVariable ⟨within, answers⟩
    | wildcard upper lower =>
      obtain ⟨_, _, above, below, made⟩ := renders_wildcard stands
      cases TypeTree.wildcardOf_eq made
      exact .wildcard made (fun b mem => ih (within.1 b mem) (above b mem b mem))
        fun b mem => ih (within.2 b mem) (below b mem b mem)
    | _ => obtain ⟨r, ⟨⟩, _⟩ := stands

theorem within_of_renders {n : Nat} {t : TypeTree} (within : t.Within used varied n)
    (stands : s.Renders lex own f t t) :
    t.Within (fun e => used e ∧ s.Answers lex own f e) (fun e => varied e ∧ s.Answers lex own f e) n := by
  induction n generalizing t with
  | zero => exact within.elim
  | succ n ih =>
    cases t with
    | array c =>
      obtain ⟨_, component, _, ⟨⟩⟩ := renders_array stands
      exact ih within component
    | declared outer e args =>
      obtain ⟨use, around, insides⟩ := within
      obtain ⟨outer?, _, _, outside, answers, arguments, _, ⟨⟩⟩ := renders_declared stands
      refine ⟨⟨use, answers⟩, ?_, fun a mem => ih (insides a mem) (List.forall₂_same.mp arguments a mem)⟩
      cases outer? with
      | none =>
        cases n with
        | zero => exact around.elim
        | succ n => trivial
      | some o => exact ih around (outside o rfl).2
    | typeVariable e =>
      obtain ⟨_, answers, ⟨⟩⟩ := renders_typeVariable stands
      exact ⟨within, answers⟩
    | wildcard upper lower =>
      obtain ⟨_, _, above, below, made⟩ := renders_wildcard stands
      cases TypeTree.wildcardOf_eq made
      exact ⟨fun b mem => ih (within.1 b mem) (above b mem b mem),
        fun b mem => ih (within.2 b mem) (below b mem b mem)⟩
    | _ => trivial

end means

section before

theorem Advances.tells_before (move : s.Advances s') (parameter : s.IsTypeParameter e)
    (answers : s'.Answers lex own (s'.recipe own) e) : s.Tells own (s.recipe own) e := by
  have h := move.start
  obtain ⟨slot, found, kind⟩ := kind?_eq_some_iff.mp parameter
  have picked : Selection.typeParameter.picks slot.kind := by rw [kind]; rfl
  have owned := Selection.isOwned picked
  obtain ⟨children, state, found'⟩ := move.slot found
  obtain ⟨_, first, owner⟩ := move.sound.selected_of_answers found' picked answers
  refine ((move.foremost found owned).mp first.restate).tells h found owned fun o enclosing => ?_
  refine h.owner_found found owned enclosing fun outer foundₒ owned' => ?_
  obtain ⟨children, state, foundₒ'⟩ := move.slot foundₒ
  have executable := h.owner_executable found owned enclosing foundₒ owned'
  have firstₒ := move.sound.foremost_of_answers foundₒ' executable (owner o enclosing)
  exact (move.foremost foundₒ owned').mp firstₒ.restate

end before

/-- The recipe of a type of the store is followed back to the same type. -/
def TypeComesBack (s : Store) (own : Recipe) (t : TypeId) : Prop :=
  s.HasType t ∧ ∃ d s₁ u s₂, (Describing.type own t).run s = (some d, s₁) ∧
    (rebuildType (some own) d).run s₁ = (.ok u, s₂) ∧ s₂.sameType u t

instance (s : Store) (own : Recipe) (t : TypeId) : Decidable (s.TypeComesBack own t) :=
  decidable_of_iff (t.index < s.types.size ∧ (match (Describing.type own t).run s with
    | (some d, s₁) => match (rebuildType (some own) d).run s₁ with
      | (.ok u, s₂) => s₂.sameType u t
      | (.error _, _) => false
    | (none, _) => false) = true) (by
    refine and_congr_right fun _ => ⟨fun tried => ?_, ?_⟩
    · split at tried
      · split at tried
        · exact ⟨_, _, _, _, ‹_›, ‹_›, tried⟩
        · cases tried
      · cases tried
    · rintro ⟨d, s₁, u, s₂, described, followed, back⟩
      rw [described]
      dsimp only
      rw [followed]
      exact back)

theorem Sound.renders_of_followed (h : s.Sound) (known : s.HasType t) {s₁ s₂ : Store} {d : Recipe} {u : TypeId}
    (described : (Describing.type own t).run s = (some d, s₁))
    (followed : (rebuildType (some own) d).run s₁ = (.ok u, s₂)) (same : s₂.sameType u t) :
    s.Advances s₂ ∧ s₂.Renders s₂.names.lexicon own (s₂.recipe own) (s.tree t) (s.tree t) := by
  obtain ⟨move₁, recipe⟩ := Describing.type_run h known described
  obtain ⟨move₂, _, means⟩ := rebuildType_means move₁.sound followed
  have move : s.Advances s₂ := Movement.trans move₁ move₂
  have formed := ((move.sound.stays.toRetains.reading (fun _ _ => id) (some own) d).meaning _ means).2
  rw [sameType_tree move.sound.toConsistent] at same
  rw [TypeTree.eq_of_same _ _ same (.inl (TypeTree.simple_of_plain _ (Formed.plain formed))), move.tree known] at means
  refine ⟨move, d, ?_, means⟩
  rw [← move.tree known]
  exact (move.typeRecipe known).trans recipe.symm

theorem TypeComesBack.means (back : s.TypeComesBack own t) (h : s.Sound) :
    ∃ d, s.typeRecipe own t = some d ∧ s.meaning .plain (some own) d = some (.type (s.tree t)) := by
  obtain ⟨known, d, s₁, u, s₂, described, followed, same⟩ := back
  obtain ⟨move, stands⟩ := h.renders_of_followed known described followed same
  have within := h.tree_within known (Nat.lt_succ_self _)
  have made := (formed_of_renders within stands).before move.moves.grows within fun e type => type.there
  exact made.means (fun e type => h.type_found type) fun e ⟨parameter, answers⟩ =>
    ⟨parameter, move.tells_before parameter answers⟩

theorem Sound.comesBack_later (h : s.Sound) {u v : TypeId} (known : s.HasType u)
    (described : (Describing.type own u).run s = (some d, s₁))
    (followed : (rebuildType (some own) d).run s₁ = (.ok v, s₂)) (same : s₂.sameType v u) (later : s₂.Advances s') :
    s'.TypeComesBack own u := by
  obtain ⟨move, d', recipe, means⟩ := h.renders_of_followed known described followed same
  have all : s.Advances s' := Movement.trans move later
  obtain rfl : d' = d := by
    have told := (Describing.type_run h known described).2
    rw [← move.typeRecipe known, typeRecipe, move.tree known, recipe] at told
    exact (Option.some.inj told).symm
  have described' := all.describes_type known (show ((Describing.type own u).run s).1 = some d' by rw [described])
  have move₁ := (Describing.type_run all.sound (all.grows.has_type known) (leaves described')).1
  cases run : (rebuildType (some own) d').run ((Describing.type own u).run s').2 with
  | mk r s₄ =>
    obtain ⟨move₂, _, settled⟩ :=
      Ensures.result (type_yields (rebuild_follows (some own) d') move₁.sound "descriptor") run
    have read := settled s₄ move₂.sound.stays _ s₄.names.lexicon_reads
    have rest : s₂.Advances s₄ := Movement.trans later (Movement.trans move₁ move₂)
    dsimp only at read
    rw [type_of_meaning (rest.meaning (NameTable.lexicon_lasts rest.grows.names) means)] at read
    cases r with
    | error _ => cases read
    | ok w =>
      refine ⟨all.grows.has_type known, d', _, w, s₄, leaves described', run, ?_⟩
      rw [sameType_tree move₂.sound.toConsistent, ← Option.some.inj read,
        (show s.Advances s₄ from Movement.trans move rest).tree known]
      exact TypeTree.same_refl _

end Store

end Nominal
