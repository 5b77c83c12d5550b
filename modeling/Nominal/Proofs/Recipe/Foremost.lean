import Nominal.Proofs.Recipe.Selecting
import Nominal.Proofs.Types.Equivalence
/-!
Elements that come first. A search for the name of an element, or for its name and erased signature, ends with
the element itself; nothing that is asked of the store later changes that. What comes first, in an owner that
is found, is found itself, and an executable is found only if it comes first.
-/

namespace Nominal

namespace Store

variable {s s' : Store} {own : Recipe} {e o : ElementId} {slot : Slot}

theorem Formed.before (formed : s'.Formed varied t) {mine : ElementId → Prop} (g : s.Grows mine s')
    {used varied' : ElementId → Prop} {n : Nat} (within : t.Within used varied' n)
    (there : ∀ e, used e → s.HasElement e) : s.Formed varied t := by
  induction formed generalizing n with
  | primitive p => exact .primitive p
  | none => exact .none
  | void => exact .void
  | null => exact .null
  | array component _ ih =>
    cases n with
    | zero => exact within.elim
    | succ n => exact .array component (ih within)
  | declared admits _ _ outer inner =>
    cases n with
    | zero => exact within.elim
    | succ n =>
      obtain ⟨use, around, arguments⟩ := within
      exact .declared ((g.admitsUsage (there _ use) _ _).symm.trans admits) (outer around)
        fun a mem => inner a mem (arguments a mem)
  | typeVariable var => exact .typeVariable var
  | wildcard made _ _ above below =>
    cases n with
    | zero => exact within.elim
    | succ n =>
      exact .wildcard made (fun b mem => above b mem (within.1 b mem)) fun b mem => below b mem (within.2 b mem)

structure Foremost (s : Store) (e : ElementId) (slot : Slot) : Prop where
  selected : ∀ o (sel : Selection), slot.enclosing = some o → sel.picks slot.kind →
    s.lookup o sel.picks slot.simpleName = some e
  overload : ∀ o, slot.enclosing = some o → slot.kind.isExecutable →
    (∀ t ∈ s.signature e, s.Closed t) ∧ s.overload o slot.kind slot.simpleName (s.signature e) = some e

theorem Sound.owner_recorded (h : s.Sound) (found : s.slot? e = some slot) (owned : slot.kind.isOwned)
    (enclosing : slot.enclosing = some o) : ∃ r, s.record? o = some r := by
  obtain ⟨o', k, enclosing', _, kind, admits⟩ :=
    (h.slots e slot found).placed (ElementKind.isOwned_not_container owned)
  cases enclosing.symm.trans enclosing'
  obtain ⟨slotₒ, foundₒ, rfl⟩ := kind?_eq_some_iff.mp kind
  have fits := (h.slots o slotₒ foundₒ).state
  have mem : e ∈ s.owned o := mem_owned.mpr ⟨slot, found, owned, enclosing⟩
  cases state : slotₒ.state with
  | complete r => exact ⟨r, record?_eq_some_iff.mpr ⟨slotₒ, foundₒ, state⟩⟩
  | completing => exact absurd ⟨slotₒ, foundₒ, state⟩ (h.settled o)
  | pending work =>
    cases work with
    | container =>
      simp only [StateFits, state] at fits
      exact absurd admits (ElementKind.not_admits_owned fits.1 owned)
    | type header =>
      simp only [StateFits, state] at fits
      simp [fits.2.2.2.2] at mem

theorem Sound.signature_within (h : s.Sound) {t : TypeTree} (mem : t ∈ s.signature e) :
    ∃ n, t.Within s.IsType (fun _ => False) n := by
  obtain ⟨p, parameter, rfl⟩ := List.mem_map.mp mem
  exact ⟨_, h.value_within (kind_of_parameter parameter)⟩

theorem Advances.signature_closed (move : s.Advances s') (found : s.slot? e = some slot)
    (kind : slot.kind.isExecutable) :
    (∀ t ∈ s'.signature e, s'.Closed t) ↔ ∀ t ∈ s.signature e, s.Closed t := by
  have g : s.Grows Nothing s' := move.moves.grows
  have owned := ElementKind.isOwned_of_executable kind
  rw [move.signature (kind?_eq_some_iff.mpr ⟨slot, found, rfl⟩) owned]
  refine forall₂_congr fun t mem => ⟨fun closed => ?_, fun closed => closed.imp g fun _ => id⟩
  obtain ⟨n, within⟩ := move.start.signature_within mem
  exact closed.before g within fun e type => type.there

theorem Advances.foremost (move : s.Advances s') (found : s.slot? e = some slot)
    (owned : slot.kind.isOwned) : s'.Foremost e slot ↔ s.Foremost e slot := by
  have kind : s.kind? e = some slot.kind := kind?_eq_some_iff.mpr ⟨slot, found, rfl⟩
  have searches (o : ElementId) (enclosing : slot.enclosing = some o) :
      (∀ p, s'.lookup o p slot.simpleName = s.lookup o p slot.simpleName) ∧
      s'.overload o slot.kind slot.simpleName (s'.signature e) =
        s.overload o slot.kind slot.simpleName (s.signature e) := by
    obtain ⟨r, recorded⟩ := move.start.owner_recorded found owned enclosing
    rw [move.signature kind owned]
    exact ⟨fun p => move.lookup recorded p _, move.overload recorded _ _⟩
  constructor
  · rintro ⟨selected, overload⟩
    refine ⟨fun o sel enclosing picked => ?_, fun o enclosing executable => ?_⟩
    · rw [← (searches o enclosing).1]
      exact selected o sel enclosing picked
    · obtain ⟨closed, first⟩ := overload o enclosing executable
      exact ⟨(move.signature_closed found executable).mp closed, (searches o enclosing).2 ▸ first⟩
  · rintro ⟨selected, overload⟩
    refine ⟨fun o sel enclosing picked => ?_, fun o enclosing executable => ?_⟩
    · rw [(searches o enclosing).1]
      exact selected o sel enclosing picked
    · obtain ⟨closed, first⟩ := overload o enclosing executable
      exact ⟨(move.signature_closed found executable).mpr closed, (searches o enclosing).2.trans first⟩

theorem Foremost.restate {children : List ElementId} {state : SlotState} (first : s.Foremost e slot) :
    s.Foremost e { slot with children, state } :=
  ⟨first.selected, first.overload⟩

theorem Foremost.tells (h : s.Sound) (found : s.slot? e = some slot) (owned : slot.kind.isOwned)
    (first : s.Foremost e slot)
    (owner : ∀ o, slot.enclosing = some o → s.Tells own (s.recipe own) o) : s.Tells own (s.recipe own) e := by
  obtain ⟨o, _, enclosing, _⟩ :=
    (h.slots e slot found).placed (ElementKind.isOwned_not_container owned)
  rcases ElementKind.isOwned_cases owned with executable | ⟨sel, picked⟩
  · obtain ⟨closed, overload⟩ := first.overload o enclosing executable
    refine h.executable_tells found executable closed fun o' enclosing' => ?_
    cases enclosing.symm.trans enclosing'
    exact overload
  · exact h.selected_tells sel found picked enclosing (owner o enclosing)
      (first.selected o sel enclosing picked)

section search

variable {name : String}

theorem lookup_found {p : ElementKind → Bool} (found : s.lookup o p name = some e) :
    ∃ slot, s.slot? e = some slot ∧ slot.enclosing = some o ∧ p slot.kind ∧ slot.simpleName = name := by
  obtain ⟨slot, there, _, enclosing, fits⟩ := mem_ownedOf.mp (List.mem_of_find?_eq_some found)
  have called := List.find?_some found
  rw [isCalled, there, Option.any_some, beq_iff_eq] at called
  exact ⟨slot, there, enclosing, fits, called⟩

theorem overload_found {k : ElementKind} {wanted : List TypeTree}
    (found : s.overload o k name wanted = some e) : ∃ slot, s.slot? e = some slot ∧
      slot.enclosing = some o ∧ slot.kind = k ∧ slot.simpleName = name ∧
        TypeTree.sameAll (s.signature e) wanted := by
  obtain ⟨slot, there, _, enclosing, fits⟩ := mem_ownedOf.mp (List.mem_of_find?_eq_some found)
  have called := List.find?_some found
  rw [Bool.and_eq_true, isCalled, there, Option.any_some, beq_iff_eq] at called
  exact ⟨slot, there, enclosing, eq_of_beq fits, called.1, called.2⟩

theorem overload_own {k : ElementKind} {wanted : List TypeTree} (found : s.overload o k name wanted = some e) :
    s.overload o k name (s.signature e) = some e := by
  obtain ⟨called, before, after, owned, others⟩ := List.find?_eq_some_iff_append.mp found
  rw [Bool.and_eq_true] at called
  refine List.find?_eq_some_iff_append.mpr ⟨?_, before, after, owned, fun x mem => ?_⟩
  · rw [Bool.and_eq_true]
    exact ⟨called.1, TypeTree.sameAll_refl _⟩
  · have other := others x mem
    rw [Bool.not_eq_true', Bool.and_eq_false_imp] at other ⊢
    intro calledₓ
    rw [Bool.eq_false_iff]
    intro same
    rw [TypeTree.sameAll_trans _ _ _ same called.2] at other
    cases other calledₓ

end search

section converse

variable {lex : Lexicon}

theorem meaning_of_type {r : Recipe} {t : TypeTree} (read : (s.reading lex (some own) r).type? = some t) :
    s.meaning lex (some own) r = some (.type t) := by
  obtain ⟨m, means, same⟩ := Option.bind_eq_some_iff.mp read
  cases m <;> cases same
  exact means

theorem meaning_of_types {r : Recipe} {ts : List TypeTree} (read : (s.reading lex (some own) r).types? = some ts) :
    s.meaning lex (some own) r = some (.types ts) := by
  obtain ⟨m, means, same⟩ := Option.bind_eq_some_iff.mp read
  cases m <;> cases same
  exact means

theorem meaning_of_element {r : Recipe} (read : (s.reading lex (some own) r).element? = some e) :
    s.meaning lex (some own) r = some (.element e) := by
  obtain ⟨m, means, same⟩ := Option.bind_eq_some_iff.mp read
  cases m <;> cases same
  exact means

theorem meaning_of_optional {t : TypeTree} {r : Recipe}
    (read : (s.reading lex (some own) r).optional? = some (some t)) : s.meaning lex (some own) r = some (.type t) := by
  obtain ⟨m, means, same⟩ := Option.bind_eq_some_iff.mp read
  cases m <;> cases same
  exact means

theorem heard_of_name {name heard : String}
    (read : (s.reading lex (some own) (own.ofName name)).name? = some heard) : lex name = some heard := by
  obtain ⟨m, means, same⟩ := Option.bind_eq_some_iff.mp read
  rw [reading, meaning_ofName] at means
  obtain ⟨_, taken, rfl⟩ := Option.map_eq_some_iff.mp means
  cases same
  exact taken

def Renders (s : Store) (lex : Lexicon) (own : Recipe) (f : ElementId → Option Recipe) (t u : TypeTree) : Prop :=
  ∃ r, t.recipe own f = some r ∧ s.meaning lex (some own) r = some (.type u)

section inversion

variable {f : ElementId → Option Recipe} {t u : TypeTree}

theorem renders_of_types {ts us : List TypeTree} {rs : List Recipe} (recipes : TypeTree.recipes own f ts = some rs)
    (read : (s.reading lex (some own) (.ofItems rs)).types? = some us) :
    List.Forall₂ (s.Renders lex own f) ts us := by
  have means := meaning_of_types read
  rw [meaning_ofItems] at means
  obtain ⟨_, items, ⟨⟩⟩ := Option.map_eq_some_iff.mp means
  clear read means
  induction ts generalizing rs us with
  | nil =>
    cases recipes
    cases items
    exact .nil
  | cons t ts ih =>
    obtain ⟨r, recipe, others⟩ := Option.bind_eq_some_iff.mp recipes
    obtain ⟨rs', recipes', ⟨⟩⟩ := Option.bind_eq_some_iff.mp others
    rw [List.mapM_cons] at items
    obtain ⟨u, type, items⟩ := Option.bind_eq_some_iff.mp items
    obtain ⟨us, rest, ⟨⟩⟩ := Option.bind_eq_some_iff.mp items
    exact .cons ⟨r, recipe, meaning_of_type type⟩ (ih recipes' rest)

theorem renders_array {c : TypeTree} (stands : s.Renders lex own f (.array c) u) :
    ∃ c', s.Renders lex own f c c' ∧ StoreM.isComponentKind c'.kind ∧ u = .array c' := by
  obtain ⟨r, recipe, means⟩ := stands
  obtain ⟨r', recipe', ⟨⟩⟩ := Option.bind_eq_some_iff.mp recipe
  rw [meaning_within rfl rfl] at means
  obtain ⟨c', component, means⟩ := Option.bind_eq_some_iff.mp means
  obtain ⟨v, made, ⟨⟩⟩ := Option.map_eq_some_iff.mp means
  exact ⟨c', ⟨r', recipe', meaning_of_type component⟩, TypeTree.arrayOf_eq made⟩

theorem renders_declared {o : TypeTree} {e : ElementId} {args : List TypeTree}
    (stands : s.Renders lex own f (.declared o e args) u) : ∃ o' e' args',
      (∀ t ∈ o', ¬ o.isNone ∧ s.Renders lex own f o t) ∧
      (∃ r, f e = some r ∧ s.meaning lex (some own) r = some (.element e')) ∧
      List.Forall₂ (s.Renders lex own f) args args' ∧
      s.admitsUsage o' e' args' ∧ u = .declared (o'.getD .none) e' args' := by
  obtain ⟨r, recipe, means⟩ := stands
  obtain ⟨r₁, recipe₁, recipe⟩ := Option.bind_eq_some_iff.mp recipe
  obtain ⟨r₂, recipe₂, recipe⟩ := Option.bind_eq_some_iff.mp recipe
  obtain ⟨rs, recipes, ⟨⟩⟩ := Option.bind_eq_some_iff.mp recipe
  rw [meaning_within rfl rfl] at means
  obtain ⟨o', outside, means⟩ := Option.bind_eq_some_iff.mp means
  obtain ⟨e', element, means⟩ := Option.bind_eq_some_iff.mp means
  obtain ⟨args', list, means⟩ := Option.bind_eq_some_iff.mp means
  obtain ⟨v, made, ⟨⟩⟩ := Option.map_eq_some_iff.mp means
  refine ⟨o', e', args', ?_, ⟨r₂, recipe₂, meaning_of_element element⟩, renders_of_types recipes list, usage_eq made⟩
  rintro t ⟨⟩
  split at recipe₁
  · cases recipe₁
    cases outside
  · exact ⟨‹_›, r₁, recipe₁, meaning_of_optional outside⟩

theorem renders_typeVariable {e : ElementId} (stands : s.Renders lex own f (.typeVariable e) u) :
    ∃ e', (∃ r, f e = some r ∧ s.meaning lex (some own) r = some (.element e')) ∧ u = .typeVariable e' := by
  obtain ⟨r, recipe, means⟩ := stands
  obtain ⟨r', recipe', ⟨⟩⟩ := Option.bind_eq_some_iff.mp recipe
  rw [meaning_within rfl rfl] at means
  obtain ⟨e', element, means⟩ := Option.bind_eq_some_iff.mp means
  split at means <;> cases means
  exact ⟨e', ⟨r', recipe', meaning_of_element element⟩, rfl⟩

theorem renders_wildcard {upper lower : Option TypeTree}
    (stands : s.Renders lex own f (.wildcard upper lower) u) : ∃ upper' lower',
      (∀ b ∈ upper, ∀ b' ∈ upper', s.Renders lex own f b b') ∧
      (∀ b ∈ lower, ∀ b' ∈ lower', s.Renders lex own f b b') ∧
      TypeTree.wildcardOf upper' lower' = some u := by
  have bound {b? b?' : Option TypeTree} {r : Recipe} (recipe : TypeTree.optRecipe own f b? = some r)
      (read : (s.reading lex (some own) r).optional? = some b?') :
      ∀ b ∈ b?, ∀ b' ∈ b?', s.Renders lex own f b b' := by
    rintro b ⟨⟩ b' ⟨⟩
    exact ⟨r, recipe, meaning_of_optional read⟩
  obtain ⟨r, recipe, means⟩ := stands
  obtain ⟨r₁, recipe₁, recipe⟩ := Option.bind_eq_some_iff.mp recipe
  obtain ⟨r₂, recipe₂, ⟨⟩⟩ := Option.bind_eq_some_iff.mp recipe
  rw [meaning_within rfl rfl] at means
  obtain ⟨upper', above, means⟩ := Option.bind_eq_some_iff.mp means
  obtain ⟨lower', below, means⟩ := Option.bind_eq_some_iff.mp means
  obtain ⟨v, made, ⟨⟩⟩ := Option.map_eq_some_iff.mp means
  exact ⟨upper', lower', bound recipe₁ above, bound recipe₂ below, made⟩

theorem Renders.kind (stands : s.Renders lex own f t u) : u.kind = t.kind := by
  cases t with
  | array c =>
    obtain ⟨c', _, _, rfl⟩ := renders_array stands
    rfl
  | declared o e args =>
    obtain ⟨o', e', args', _, _, _, _, rfl⟩ := renders_declared stands
    rfl
  | typeVariable e =>
    obtain ⟨e', _, rfl⟩ := renders_typeVariable stands
    rfl
  | wildcard upper lower =>
    obtain ⟨upper', lower', _, _, made⟩ := renders_wildcard stands
    rw [TypeTree.wildcardOf_eq made]
    rfl
  | primitive p =>
    obtain ⟨r, ⟨⟩, means⟩ := stands
    rw [meaning_within rfl rfl] at means
    cases p <;> cases means <;> rfl
  | null =>
    obtain ⟨r, ⟨⟩, means⟩ := stands
    rw [meaning_within rfl rfl] at means
    cases means
    rfl
  | noType k =>
    obtain ⟨r, recipe, means⟩ := stands
    cases k <;> cases recipe <;>
    · rw [meaning_within rfl rfl] at means
      cases means
      rfl
  | _ => obtain ⟨r, ⟨⟩, _⟩ := stands

theorem closed_of_same {n depth : Nat} (within : t.Within s.IsType (fun _ => False) n)
    (stands : s.Renders lex own f t u) (same : t.same (u.erase s.context depth)) : s.Closed t := by
  have raw {e : ElementId} (type : s.IsType e) : s.Closed (.declared .none e []) :=
    .declared (admitsUsage_raw type (.inr rfl)) .none nofun
  -- At depth zero all erases to the top type, which is closed; further up each part is compared one level lower.
  induction depth generalizing t u n with
  | zero =>
    rw [TypeTree.erase] at same
    rcases s.context_fits with top | ⟨e, top⟩ <;> rw [top] at same
    · exact TypeTree.eq_of_same _ _ same (.inr rfl) ▸ .none
    · cases TypeTree.eq_of_same _ _ same (.inr rfl)
      cases n with
      | zero => exact within.elim
      | succ n => exact raw within.1
  | succ depth ih =>
    cases n with
    | zero => exact within.elim
    | succ n =>
    cases t with
    | primitive p => exact .primitive p
    | null => exact .null
    | noType k =>
      cases k with
      | none => exact .none
      | void => exact .void
      | _ => obtain ⟨r, ⟨⟩, _⟩ := stands
    | array c =>
      obtain ⟨c', component, fits, rfl⟩ := renders_array stands
      exact .array (component.kind ▸ fits) (ih within component same)
    | declared o e args =>
      obtain ⟨type, around, _⟩ := within
      obtain ⟨o', e', args', outer, _, _, admits, rfl⟩ := renders_declared stands
      rw [TypeTree.erase, TypeTree.same, Bool.and_eq_true, Bool.and_eq_true] at same
      obtain ⟨⟨_, sameₒ⟩, arguments⟩ := same
      obtain rfl : args = [] := by
        cases args with
        | nil => rfl
        | cons => cases arguments
      by_cases nothing : o.isNone
      · exact TypeTree.eq_none_of_isNone nothing ▸ raw type
      have free (none_ : o.same .none) : False := nothing (TypeTree.eq_of_same _ _ none_ (.inr rfl) ▸ rfl)
      cases o' with
      | none => exact (free sameₒ).elim
      | some o' =>
        obtain ⟨_, stands'⟩ := outer o' rfl
        rw [Option.getD_some] at sameₒ
        split at sameₒ
        · exact (free sameₒ).elim
        · exact .declared (admitsUsage_raw type (stands'.kind ▸ admitsUsage_outer admits)) (ih around stands' sameₒ)
            nofun
    | typeVariable e => exact within.elim
    | wildcard upper lower =>
      have other := TypeTree.erase_kind_ne_wildcard s.context_fits (depth + 1) u
      generalize u.erase s.context (depth + 1) = v at same other
      cases v <;> simp_all [TypeTree.same, TypeTree.kind]
    | _ => obtain ⟨r, ⟨⟩, _⟩ := stands

theorem answers_of_same {o : TypeTree} {e : ElementId} {args : List TypeTree} {depth : Nat}
    (stands : s.Renders lex own f (.declared o e args) u)
    (same : (TypeTree.declared o e args).same (u.erase s.context (depth + 1))) : s.Answers lex own f e := by
  obtain ⟨o', e', args', _, answers, _, _, rfl⟩ := renders_declared stands
  rw [TypeTree.erase, TypeTree.same, Bool.and_eq_true, Bool.and_eq_true, beq_iff_eq] at same
  obtain ⟨⟨rfl, _⟩, _⟩ := same
  exact answers

theorem renders_of_mem {ts us : List TypeTree} (each : List.Forall₂ (s.Renders lex own f) ts us)
    (same : TypeTree.sameAll ts (us.map s.erased)) : ∀ t ∈ ts, ∃ u, s.Renders lex own f t u ∧ t.same (s.erased u) := by
  induction each with
  | nil => nofun
  | cons head _ ih =>
    rw [List.map_cons, TypeTree.sameAll, Bool.and_eq_true] at same
    exact List.forall_mem_cons.mpr ⟨⟨_, head, same.1⟩, ih same.2⟩

end inversion

theorem Consistent.heard_of_named (h : s.Consistent) (found : s.slot? e = some slot)
    (answers : s.Answers lex own (s.named own) e) : lex slot.qualifiedName = some slot.qualifiedName := by
  obtain ⟨r, recipe, means⟩ := answers
  have found_ {p : ElementKind → Bool} {index : NameIndex} {n : String} (indexes : s.Indexes p index)
      (first : index.find? n = some e) : slot.qualifiedName = n := by
    obtain ⟨_, again, _, rfl⟩ := (indexes n e).mp first
    cases found.symm.trans again
    rfl
  rw [named, found, Option.bind_eq_bind, Option.bind_some] at recipe
  cases same : slot.kind <;> rw [same] at recipe <;> cases recipe <;> rw [meaning_within rfl rfl] at means
  case module =>
    obtain ⟨n, name, means⟩ := Option.bind_eq_some_iff.mp means
    obtain ⟨_, first, ⟨⟩⟩ := Option.map_eq_some_iff.mp means
    rw [found_ h.modules first] at name ⊢
    exact heard_of_name name
  case package =>
    obtain ⟨n, name, means⟩ := Option.bind_eq_some_iff.mp means
    obtain ⟨_, first, ⟨⟩⟩ := Option.map_eq_some_iff.mp means
    rw [found_ h.packages first] at name ⊢
    exact heard_of_name name
  all_goals
    obtain ⟨n, name, means⟩ := Option.bind_eq_some_iff.mp means
    obtain ⟨_, first, ⟨⟩⟩ := Option.map_eq_some_iff.mp means
    rw [found_ h.typeElements first] at name ⊢
    exact heard_of_name name

theorem Sound.selected_of_answers (h : s.Sound) {sel : Selection} (found : s.slot? e = some slot)
    (picked : sel.picks slot.kind) (answers : s.Answers lex own (s.recipe own) e) :
    lex slot.simpleName = some slot.simpleName ∧ s.Foremost e slot ∧
      ∀ o, slot.enclosing = some o → s.Answers lex own (s.recipe own) o := by
  have owned := Selection.isOwned picked
  obtain ⟨o, _, enclosing, _⟩ := (h.slots e slot found).placed (ElementKind.isOwned_not_container owned)
  obtain ⟨r, recipe, means⟩ := answers
  rw [h.recipe_selected sel found picked enclosing] at recipe
  obtain ⟨r₁, recipe₁, ⟨⟩⟩ := Option.bind_eq_some_iff.mp recipe
  obtain ⟨o', n, owner, name, first⟩ : ∃ o' n, s.meaning lex (some own) r₁ = some (.element o') ∧
      (s.reading lex (some own) (own.ofName slot.simpleName)).name? = some n ∧ s.lookup o' sel.picks n = some e := by
    rw [meaning_within (by cases sel <;> rfl) (by cases sel <;> rfl)] at means
    cases sel <;>
    · obtain ⟨o', element, means⟩ := Option.bind_eq_some_iff.mp means
      obtain ⟨n, name, means⟩ := Option.bind_eq_some_iff.mp means
      obtain ⟨e', first, ⟨⟩⟩ := Option.map_eq_some_iff.mp means
      exact ⟨o', n, meaning_of_element element, name, first⟩
  obtain ⟨_, again, around, _, rfl⟩ := lookup_found first
  cases found.symm.trans again
  cases enclosing.symm.trans around
  refine ⟨heard_of_name name, ⟨fun o' sel' around picked' => ?_, fun _ _ executable => ?_⟩, fun o' around => ?_⟩
  · cases enclosing.symm.trans around
    exact Selection.unique picked picked' ▸ first
  · exact absurd executable (Selection.not_executable picked)
  · cases enclosing.symm.trans around
    exact ⟨r₁, recipe₁, owner⟩

theorem Sound.executable_of_answers (h : s.Sound) (found : s.slot? e = some slot) (executable : slot.kind.isExecutable)
    (enclosing : slot.enclosing = some o) (answers : s.Answers lex own (s.recipe own) e) :
    lex slot.simpleName = some slot.simpleName ∧ ∃ us, TypeTree.sameAll (s.signature e) (us.map s.erased) ∧
      List.Forall₂ (s.Renders lex own (s.named own)) (s.signature e) us ∧
      s.overload o slot.kind slot.simpleName (us.map s.erased) = some e := by
  obtain ⟨r, recipe, means⟩ := answers
  rw [h.recipe_executable found executable enclosing] at recipe
  obtain ⟨r₁, _, recipe⟩ := Option.bind_eq_some_iff.mp recipe
  obtain ⟨rs, recipes, ⟨⟩⟩ := Option.bind_eq_some_iff.mp recipe
  rw [meaning_within rfl rfl] at means
  obtain ⟨o', _, means⟩ := Option.bind_eq_some_iff.mp means
  obtain ⟨k, kind, means⟩ := Option.bind_eq_some_iff.mp means
  obtain ⟨n, name, means⟩ := Option.bind_eq_some_iff.mp means
  obtain ⟨us, list, means⟩ := Option.bind_eq_some_iff.mp means
  obtain ⟨_, first, ⟨⟩⟩ := Option.map_eq_some_iff.mp means
  cases kind
  rw [if_pos executable] at first
  obtain ⟨_, again, around, _, rfl, same⟩ := overload_found first
  cases found.symm.trans again
  cases enclosing.symm.trans around
  exact ⟨heard_of_name name, us, same, renders_of_types recipes list, first⟩

theorem Sound.foremost_of_answers (h : s.Sound) (found : s.slot? e = some slot) (executable : slot.kind.isExecutable)
    (answers : s.Answers lex own (s.recipe own) e) : s.Foremost e slot := by
  refine ⟨fun o sel _ picked => absurd executable (Selection.not_executable picked), fun o enclosing _ => ?_⟩
  obtain ⟨_, us, same, each, first⟩ := h.executable_of_answers found executable enclosing answers
  refine ⟨fun t mem => ?_, overload_own first⟩
  obtain ⟨n, within⟩ := h.signature_within mem
  obtain ⟨u, stands, same⟩ := renders_of_mem each same t mem
  exact closed_of_same within stands same

end converse

end Store

end Nominal
