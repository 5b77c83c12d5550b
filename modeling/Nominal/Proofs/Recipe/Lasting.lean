import Nominal.Proofs.Recipe.Foremost
import Nominal.Proofs.Recipe.Normalising
import Nominal.Proofs.Recipe.Rebuilding
/-!
What a recipe stands for lasts. Whatever is entered or completed later, every lookup that succeeded comes to
the same element, and every type that was made can be made again in the same way.
-/

namespace Nominal

namespace Store

variable {s s' : Store} {own : Option Recipe} {e o : ElementId} {name : String}

theorem Grown.bound (move : s.Grown s') (parameter : s.IsTypeParameter e) :
    ∃ upper, s.HasType upper ∧ s.bound e = s.tree upper ∧ s'.bound e = s'.tree upper := by
  obtain ⟨r, recorded⟩ := move.start.record_of_owned parameter (by decide)
  obtain ⟨slot, found, fits⟩ := move.start.fits recorded
  have kind : slot.kind = .typeParameter := by
    obtain ⟨slot', found', same⟩ := kind?_eq_some_iff.mp parameter
    rw [found] at found'
    cases found'
    exact same
  obtain ⟨_, _, upper, shape, _⟩ := fits.bound kind
  have recorded' : s'.record? e = some r := (move.record parameter (by decide)).trans recorded
  refine ⟨upper, ((move.start.shapes _ _ shape).typeVariable e upper rfl).2.1, ?_, ?_⟩
  · rw [Store.bound, recorded, Option.bind_some, shape]
  · rw [Store.bound, recorded', Option.bind_some, move.grows.shape shape]

theorem Retains.erase_formed (move : s.Retains s') {t : TypeTree} (formed : s.Formed s.IsTypeParameter t)
    (depth : Nat) : t.erase s'.context depth = t.erase s.context depth := by
  induction depth generalizing t with
  | zero => exact move.objectTree
  | succ depth ih =>
    cases formed with
    | array _ component => rw [TypeTree.erase, TypeTree.erase, ih component]
    | declared _ outer _ => rw [TypeTree.erase, TypeTree.erase, ih outer]
    | typeVariable parameter =>
      obtain ⟨upper, known, bound, bound'⟩ := move.bound parameter
      rw [TypeTree.erase, TypeTree.erase]
      change (s'.bound _).erase _ _ = (s.bound _).erase _ _
      rw [bound, bound']
      exact move.erase known depth
    | wildcard made above below =>
      rename_i upper lower
      cases upper with
      | none => exact move.objectTree
      | some b =>
        rw [TypeTree.erase, TypeTree.erase]
        exact ih (above b rfl)
    | _ => rfl

section lookups

theorem Sound.owner_recorded_of_mem (h : s.Sound) {p : ElementKind → Bool} (mem : e ∈ s.ownedOf o p) :
    ∃ r, s.record? o = some r := by
  obtain ⟨slot, found, owned, enclosing, _⟩ := mem_ownedOf.mp mem
  exact h.owner_recorded found owned enclosing

theorem Grown.lookup_found (move : s.Grown s') {p : ElementKind → Bool} (found : s.lookup o p name = some e) :
    s'.lookup o p name = some e := by
  obtain ⟨r, recorded⟩ := move.start.owner_recorded_of_mem (List.mem_of_find?_eq_some found)
  rw [move.lookup recorded, found]

theorem Retains.overload_found (move : s.Retains s') {k : ElementKind} {wanted : List TypeTree}
    (found : s.overload o k name wanted = some e) : s'.overload o k name wanted = some e := by
  obtain ⟨r, recorded⟩ := move.start.owner_recorded_of_mem (List.mem_of_find?_eq_some found)
  rw [move.overload recorded, found]

end lookups

end Store

def Meaning.Within (s : Store) : Meaning → Prop
  | .element e => s.HasElement e
  | .type t => s.Formed s.IsTypeParameter t
  | .types ts => ∀ t ∈ ts, s.Formed s.IsTypeParameter t
  | .null | .name _ | .elementKind _ | .typeKind _ => True

structure Reading.Lasts (s : Store) (r r' : Reading) : Prop where
  recipe : r'.recipe = r.recipe
  meaning : ∀ m, r.meaning = some m → r'.meaning = some m ∧ m.Within s

namespace Reading.Lasts

variable {s : Store} {r r' : Reading} (lasts : r.Lasts s r')

include lasts

theorem read {α : Type} {f : Meaning → Option α} {a : α} (read : r.meaning.bind f = some a) :
    r'.meaning.bind f = some a ∧ ∃ m, m.Within s ∧ f m = some a := by
  obtain ⟨m, means, reads⟩ := Option.bind_eq_some_iff.mp read
  obtain ⟨means', within⟩ := lasts.meaning m means
  exact ⟨Option.bind_eq_some_iff.mpr ⟨m, means', reads⟩, m, within, reads⟩

theorem name {n : String} (read : r.name? = some n) : r'.name? = some n := (lasts.read read).1

theorem elementKind {k : ElementKind} (read : r.elementKind? = some k) : r'.elementKind? = some k :=
  (lasts.read read).1

theorem typeKind {k : TypeKind} (read : r.typeKind? = some k) : r'.typeKind? = some k := (lasts.read read).1

theorem element {e : ElementId} (read : r.element? = some e) : r'.element? = some e ∧ s.HasElement e := by
  obtain ⟨read', m, within, reads⟩ := lasts.read read
  cases m <;> cases reads
  exact ⟨read', within⟩

theorem type {t : TypeTree} (read : r.type? = some t) : r'.type? = some t ∧ s.Formed s.IsTypeParameter t := by
  obtain ⟨read', m, within, reads⟩ := lasts.read read
  cases m <;> cases reads
  exact ⟨read', within⟩

theorem types {ts : List TypeTree} (read : r.types? = some ts) :
    r'.types? = some ts ∧ ∀ t ∈ ts, s.Formed s.IsTypeParameter t := by
  obtain ⟨read', m, within, reads⟩ := lasts.read read
  cases m <;> cases reads
  exact ⟨read', within⟩

theorem optional {t? : Option TypeTree} (read : r.optional? = some t?) :
    r'.optional? = some t? ∧ ∀ t ∈ t?, s.Formed s.IsTypeParameter t := by
  obtain ⟨read', m, within, reads⟩ := lasts.read read
  cases m <;> cases reads
  · exact ⟨read', nofun⟩
  · exact ⟨read', by rintro _ ⟨⟩; exact within⟩

end Reading.Lasts

namespace Store

variable {s s' : Store} {lex lex' : Lexicon} {own : Option Recipe}

theorem items_last {rs rs' : List Reading} (lasts : List.Forall₂ (Reading.Lasts s) rs rs') {ts : List TypeTree}
    (read : rs.mapM (·.type?) = some ts) :
    rs'.mapM (·.type?) = some ts ∧ ∀ t ∈ ts, s.Formed s.IsTypeParameter t := by
  induction lasts generalizing ts with
  | nil =>
    cases read
    exact ⟨rfl, by simp⟩
  | cons head _ ih =>
    rw [List.mapM_cons] at read ⊢
    simp only [Option.bind_eq_bind, Option.bind_eq_some_iff, Option.pure_def, Option.some.injEq] at read
    obtain ⟨t, type, ts, types, rfl⟩ := read
    obtain ⟨type', formed⟩ := head.type type
    obtain ⟨types', all⟩ := ih types
    refine ⟨?_, List.forall_mem_cons.mpr ⟨formed, all⟩⟩
    rw [type', types']
    rfl

theorem Grown.index_lasts {p : ElementKind → Bool} {index index' : NameIndex} {name : String} {e : ElementId}
    (indexes : s.Indexes p index) (longer : index <+: index') (found : index.find? name = some e) :
    index'.find? name = some e ∧ s.HasElement e := by
  obtain ⟨slot, there, _⟩ := (indexes name e).mp found
  exact ⟨find?_of_longer longer found, has_element_iff.mpr ⟨slot, there⟩⟩

theorem Retains.built (move : s.Retains s') (longer : lex.Lasts lex') {f : Factory} {rs rs' : List Reading}
    (lasts : List.Forall₂ (Reading.Lasts s) rs rs') {m : Meaning} (built : s.built lex f rs = some m) :
    s'.built lex' f rs' = some m ∧ m.Within s := by
  have h := move.start
  -- One case for each factory, in the order of `built`: what it read of its arguments, it reads again.
  unfold Store.built at built
  split at built
  · rcases lasts with _ | ⟨first, ⟨⟩⟩
    split at built
    · rename_i text written
      obtain ⟨heard, taken, rfl⟩ := Option.map_eq_some_iff.mp built
      exact ⟨by simp [Store.built, first.recipe, written, longer _ _ taken], trivial⟩
    · cases built
  · rcases lasts with _ | ⟨first, ⟨⟩⟩
    obtain ⟨n, name, built⟩ := Option.bind_eq_some_iff.mp built
    obtain ⟨e, found, rfl⟩ := Option.map_eq_some_iff.mp built
    obtain ⟨found', there⟩ := Grown.index_lasts h.modules move.grows.modules found
    exact ⟨by simp [Store.built, first.name name, module?, found'], there⟩
  · rcases lasts with _ | ⟨first, ⟨⟩⟩
    obtain ⟨n, name, built⟩ := Option.bind_eq_some_iff.mp built
    obtain ⟨e, found, rfl⟩ := Option.map_eq_some_iff.mp built
    obtain ⟨found', there⟩ := Grown.index_lasts h.packages move.grows.packages found
    exact ⟨by simp [Store.built, first.name name, package?, found'], there⟩
  · rcases lasts with _ | ⟨first, ⟨⟩⟩
    obtain ⟨n, name, built⟩ := Option.bind_eq_some_iff.mp built
    obtain ⟨e, found, rfl⟩ := Option.map_eq_some_iff.mp built
    obtain ⟨found', there⟩ := Grown.index_lasts h.typeElements move.grows.typeElements found
    exact ⟨by simp [Store.built, first.name name, typeElement?, found'], there⟩
  · rcases lasts with _ | ⟨first, _ | ⟨second, ⟨⟩⟩⟩
    obtain ⟨o, owner, built⟩ := Option.bind_eq_some_iff.mp built
    obtain ⟨n, name, built⟩ := Option.bind_eq_some_iff.mp built
    obtain ⟨e, found, rfl⟩ := Option.map_eq_some_iff.mp built
    exact ⟨by simp [Store.built, (first.element owner).1, second.name name, move.lookup_found found],
      there_of_ownedOf (List.mem_of_find?_eq_some found)⟩
  · rcases lasts with _ | ⟨first, _ | ⟨second, _ | ⟨third, _ | ⟨fourth, ⟨⟩⟩⟩⟩⟩
    obtain ⟨o, owner, built⟩ := Option.bind_eq_some_iff.mp built
    obtain ⟨k, kind, built⟩ := Option.bind_eq_some_iff.mp built
    obtain ⟨n, name, built⟩ := Option.bind_eq_some_iff.mp built
    obtain ⟨ts, parameters, built⟩ := Option.bind_eq_some_iff.mp built
    obtain ⟨e, found, rfl⟩ := Option.map_eq_some_iff.mp built
    obtain ⟨parameters', formed⟩ := fourth.types parameters
    have erased : ts.map s'.erased = ts.map s.erased :=
      List.map_congr_left fun t mem => move.erase_formed (formed t mem) _
    split at found
    · rename_i executable
      refine ⟨?_, there_of_ownedOf (List.mem_of_find?_eq_some found)⟩
      simp [Store.built, (first.element owner).1, second.elementKind kind, third.name name, parameters',
        executable, erased, move.overload_found found]
    · cases found
  · rcases lasts with _ | ⟨first, _ | ⟨second, ⟨⟩⟩⟩
    obtain ⟨o, owner, built⟩ := Option.bind_eq_some_iff.mp built
    obtain ⟨n, name, built⟩ := Option.bind_eq_some_iff.mp built
    obtain ⟨e, found, rfl⟩ := Option.map_eq_some_iff.mp built
    exact ⟨by simp [Store.built, (first.element owner).1, second.name name, move.lookup_found found],
      there_of_ownedOf (List.mem_of_find?_eq_some found)⟩
  · rcases lasts with _ | ⟨first, _ | ⟨second, ⟨⟩⟩⟩
    obtain ⟨o, owner, built⟩ := Option.bind_eq_some_iff.mp built
    obtain ⟨n, name, built⟩ := Option.bind_eq_some_iff.mp built
    obtain ⟨e, found, rfl⟩ := Option.map_eq_some_iff.mp built
    exact ⟨by simp [Store.built, (first.element owner).1, second.name name, move.lookup_found found],
      there_of_ownedOf (List.mem_of_find?_eq_some found)⟩
  · rcases lasts with _ | ⟨first, _ | ⟨second, _ | ⟨third, ⟨⟩⟩⟩⟩
    obtain ⟨outer, around, built⟩ := Option.bind_eq_some_iff.mp built
    obtain ⟨e, element, built⟩ := Option.bind_eq_some_iff.mp built
    obtain ⟨args, arguments, built⟩ := Option.bind_eq_some_iff.mp built
    obtain ⟨t, made, rfl⟩ := Option.map_eq_some_iff.mp built
    obtain ⟨around', outside⟩ := first.optional around
    obtain ⟨element', there⟩ := second.element element
    obtain ⟨arguments', inside⟩ := third.types arguments
    exact ⟨by simp [Store.built, around', element', arguments', move.usage there, made],
      .of_usage outside inside made⟩
  · rcases lasts with _ | ⟨first, ⟨⟩⟩
    obtain ⟨c, component, built⟩ := Option.bind_eq_some_iff.mp built
    obtain ⟨t, made, rfl⟩ := Option.map_eq_some_iff.mp built
    obtain ⟨component', formed⟩ := first.type component
    exact ⟨by simp [Store.built, component', made], .of_array formed made⟩
  · rcases lasts with _ | ⟨first, ⟨⟩⟩
    obtain ⟨k, kind, built⟩ := Option.bind_eq_some_iff.mp built
    obtain ⟨p, made, rfl⟩ := Option.map_eq_some_iff.mp built
    exact ⟨by simp [Store.built, first.typeKind kind, made], .primitive p⟩
  · rcases lasts with _ | ⟨first, ⟨⟩⟩
    obtain ⟨k, kind, built⟩ := Option.bind_eq_some_iff.mp built
    obtain ⟨t, made, rfl⟩ := Option.map_eq_some_iff.mp built
    exact ⟨by simp [Store.built, first.typeKind kind, made], .of_noType made⟩
  · cases built
    exact ⟨by simp [Store.built], .null⟩
  · rcases lasts with _ | ⟨first, ⟨⟩⟩
    obtain ⟨e, parameter, built⟩ := Option.bind_eq_some_iff.mp built
    split at built <;> cases built
    rename_i kind
    exact ⟨by simp [Store.built, (first.element parameter).1, move.grows.kind kind], .typeVariable kind⟩
  · rcases lasts with _ | ⟨first, _ | ⟨second, ⟨⟩⟩⟩
    obtain ⟨upper, above, built⟩ := Option.bind_eq_some_iff.mp built
    obtain ⟨lower, below, built⟩ := Option.bind_eq_some_iff.mp built
    obtain ⟨t, made, rfl⟩ := Option.map_eq_some_iff.mp built
    obtain ⟨above', uppers⟩ := first.optional above
    obtain ⟨below', lowers⟩ := second.optional below
    exact ⟨by simp [Store.built, above', below', made], .of_wildcard uppers lowers made⟩
  · obtain ⟨ts, items, rfl⟩ := Option.map_eq_some_iff.mp built
    obtain ⟨items', formed⟩ := items_last lasts items
    exact ⟨by simp [Store.built, items'], formed⟩
  · obtain ⟨ts, items, rfl⟩ := Option.map_eq_some_iff.mp built
    obtain ⟨items', formed⟩ := items_last lasts items
    exact ⟨by simp [Store.built, items'], formed⟩
  · cases built

theorem Retains.invoked (move : s.Retains s') (longer : lex.Lasts lex') {f : Factory} {rs rs' : List Reading}
    (lasts : List.Forall₂ (Reading.Lasts s) rs rs') {m : Meaning} (invoked : s.invoked lex own f rs = some m) :
    s'.invoked lex' own f rs' = some m ∧ m.Within s := by
  unfold Store.invoked at invoked ⊢
  rw [← lasts.length_eq]
  split at invoked
  · rename_i counted
    rw [if_pos counted]
    split at invoked
    · rename_i takes
      rw [if_pos takes]
      cases lasts with
      | nil => cases invoked
      | cons first rest =>
        dsimp only at invoked ⊢
        rw [first.recipe]
        split at invoked
        · rename_i same
          rw [if_pos same]
          exact move.built longer rest invoked
        · cases invoked
    · rename_i free
      rw [if_neg free]
      exact move.built longer lasts invoked
  · cases invoked

mutual

theorem Retains.reading (move : s.Retains s') (longer : lex.Lasts lex') (own : Option Recipe) :
    (d : Recipe) → (s.reading lex own d).Lasts s (s'.reading lex' own d)
  | .null | .elementKind _ | .typeKind _ => ⟨rfl, by rintro _ ⟨⟩; exact ⟨rfl, trivial⟩⟩
  | .bool _ | .int _ | .str _ => ⟨rfl, nofun⟩
  | .invoke f args => ⟨rfl, fun m means => by
    rw [Store.reading, meaning] at means
    rw [Store.reading, meaning]
    exact move.invoked longer (move.readings longer own args) means⟩

theorem Retains.readings (move : s.Retains s') (longer : lex.Lasts lex') (own : Option Recipe) :
    (ds : List Recipe) → List.Forall₂ (Reading.Lasts s) (s.readings lex own ds) (s'.readings lex' own ds)
  | [] => .nil
  | d :: ds => .cons (move.reading longer own d) (move.readings longer own ds)

end

theorem Retains.meaning (move : s.Retains s') (longer : lex.Lasts lex') {d : Recipe} {m : Meaning}
    (means : s.meaning lex own d = some m) : s'.meaning lex' own d = some m :=
  ((move.reading longer own d).meaning m means).1

end Store

end Nominal
