import Nominal.Proofs.Compilation.Accepting
import Nominal.Proofs.Compilation.Blaming
/-!
What an analysis finds. It completes every type of the program, and the program is accepted if and only if nothing
anywhere in the store is wrong; otherwise the types whose records tell so are named.
-/

namespace Nominal

open Store

namespace Store

/-- The type of this name is complete and erroneous. -/
def isErroneous (s : Store) (name : String) : Bool :=
  (s.typeElement? name).any fun e => (s.record? e).any (·.erroneous)

structure Analyses (s s' : Store) : Prop where
  sound : s'.Sound
  index : s'.typeElements = s.typeElements
  keeps : s.Keeps s'
  accounts : s.Accounts s'
  proceeds : s.Proceeds 0 s'

variable {s s' s'' : Store} {e : ElementId} {es : List ElementId}

theorem Sound.analyses (sound : s.Sound) : s.Analyses s :=
  ⟨sound, rfl, .refl s, .refl s, sound.toConsistent.regular.proceeds 0⟩

theorem Analyses.trans (first : s.Analyses s') (second : s'.Analyses s'') : s.Analyses s'' where
  sound := second.sound
  index := second.index.trans first.index
  keeps := first.keeps.trans second.keeps
  accounts := first.accounts.trans second.accounts
  proceeds := first.proceeds.trans second.proceeds

theorem Unasked.clean (unasked : s.Unasked) : s.Clean where
  shapes t name found := by
    have mem : TypeShape.error name ∈ TypeShape.initial := by
      rw [shape?, unasked.types, List.getElem?_toArray] at found
      exact List.mem_of_getElem? found
    simp [TypeShape.initial, Primitive.all] at mem
  records e r complete := by
    obtain ⟨slot, found, state⟩ := record?_eq_some_iff.mp complete
    have waits := unasked.waits e slot found
    rw [Slot.isPending, state] at waits
    cases waits

end Store

namespace StoreM

variable {s : Store} {e : ElementId} {es : List ElementId}

theorem complete_analyses (sound : s.Sound) (plain : s.Plain e) :
    s.Analyses (complete e s).2 ∧ (complete e s).2.record? e = some (complete e s).1 := by
  have there : s.HasElement e := by
    obtain ⟨k, known, _⟩ := plain
    obtain ⟨slot, found, _⟩ := kind?_eq_some_iff.mp known
    exact has_element_iff.mpr ⟨slot, found⟩
  obtain ⟨advances, complete⟩ := complete_record sound there
  refine ⟨⟨advances.sound, advances.moves.typeElements, (complete_settles s e).1, ?_, ?_⟩, complete⟩
  · exact complete_accounts sound.toConsistent.orderly e
  · exact (complete_proceeds e s sound.toConsistent.regular plain).1

theorem mapM_analyses (sound : s.Sound) (plain : ∀ e ∈ es, s.Plain e) :
    s.Analyses (es.mapM complete s).2 ∧
      es.map (es.mapM complete s).2.record? = (es.mapM complete s).1.map some := by
  induction es generalizing s with
  | nil => exact ⟨sound.analyses, rfl⟩
  | cons e es ih =>
    rw [List.mapM_cons]
    obtain ⟨first, complete⟩ := complete_analyses sound (plain e List.mem_cons_self)
    have plain' (e' : ElementId) (mem : e' ∈ es) : (StoreM.complete e s).2.Plain e' :=
      first.proceeds.headings.plain (plain e' (List.mem_cons_of_mem e mem))
    obtain ⟨rest, completes⟩ := ih first.sound plain'
    obtain ⟨k, known, free⟩ := first.proceeds.headings.plain (plain e List.mem_cons_self)
    have stays := rest.keeps.record known free complete
    exact ⟨first.trans rest, List.cons_eq_cons.mpr ⟨stays, completes⟩⟩

end StoreM

namespace Store

variable {s s' : Store}

theorem names_of_records {index : NameIndex} {records : List ElementRecord}
    (found : ∀ name e, (name, e) ∈ index → s.typeElement? name = some e)
    (named : ∀ name e r, (name, e) ∈ index → s.record? e = some r → r.qualifiedName = name)
    (complete : index.elements.map s.record? = records.map some) :
    (records.filter (·.erroneous)).map (·.qualifiedName) = index.names.filter s.isErroneous := by
  induction index generalizing records with
  | nil =>
    rw [List.map_eq_nil_iff.mp complete.symm]
    rfl
  | cons entry index ih =>
    obtain ⟨name, e⟩ := entry
    obtain ⟨r, records, rfl, first, rest⟩ := List.map_eq_cons_iff.mp complete.symm
    have others := ih (fun name e mem => found name e (List.mem_cons_of_mem _ mem))
      (fun name e r mem => named name e r (List.mem_cons_of_mem _ mem)) rest.symm
    have tells : s.isErroneous name = r.erroneous := by
      rw [isErroneous, found name e List.mem_cons_self, Option.any_some, ← first, Option.any_some]
    have same := named name e r List.mem_cons_self first.symm
    rw [NameIndex.names, List.map_cons, List.filter_cons, List.filter_cons, tells]
    split
    · rw [List.map_cons, same]
      exact congrArg (name :: ·) others
    · exact others

/-- What was completed is what was entered as a type: modules and packages still wait. -/
theorem Analyses.completions (declared : s.Declared) (once : s.typeElements.names.Nodup) (analyses : s.Analyses s')
    (all : ∀ e ∈ s.typeElements.elements, s'.isComplete e) : s'.completions = s.typeElements.names.length := by
  have sound := declared.reachable.sound
  have unasked := declared.unasked
  have types : s.waiting \ s'.waiting = s.typeElements.elements.toFinset := by
    rw [waiting_sdiff analyses.keeps sound.settled]
    ext e
    rw [Finset.mem_filter, mem_waiting, List.mem_toFinset]
    constructor
    · rintro ⟨waits, complete⟩
      rw [sound.typeElements.mem_elements once]
      obtain ⟨slot, found, _⟩ := (Option.any_eq_true _ _).mp waits
      refine ⟨slot.kind, kind?_eq_some_iff.mpr ⟨slot, found, rfl⟩, ?_⟩
      have regular := sound.toConsistent.regular
      have waits := unasked.waits e slot found
      cases state : slot.state with
      | pending work =>
        cases work with
        | container =>
          have stays := (analyses.proceeds.containers e slot (regular.containers e slot found state)).mpr found
          rw [isComplete_of_settled stays (by simp [state]), waits] at complete
          cases complete
        | type h => exact regular.types e slot h found state
      | _ => simp [Slot.isPending, state] at waits
    · intro mem
      obtain ⟨k, known, _⟩ := (sound.typeElements.mem_elements once).mp mem
      obtain ⟨slot, found, _⟩ := kind?_eq_some_iff.mp known
      exact ⟨by rw [isPending_of_slot found, unasked.waits e slot found], all e mem⟩
  rw [analyses.accounts.counted, unasked.completions, Nat.zero_add, types,
    List.toFinset_card_of_nodup (sound.typeElements.elements_nodup once), NameIndex.elements, NameIndex.names,
    List.length_map, List.length_map]

end Store

namespace StoreM

variable {s : Store}

/-- All types are complete afterwards, and those are named whose records tell that something is wrong. -/
theorem completeAll_analyses (declared : s.Declared) (once : s.typeElements.names.Nodup) :
    s.Analyses (completeAll s).2 ∧ (∀ e ∈ s.typeElements.elements, (completeAll s).2.isComplete e) ∧
      (completeAll s).1 = s.typeElements.names.filter (completeAll s).2.isErroneous := by
  have sound := declared.reachable.sound
  have plain (e : ElementId) (mem : e ∈ s.typeElements.elements) : s.Plain e := by
    obtain ⟨k, known, isType⟩ := (sound.typeElements.mem_elements once).mp mem
    exact ⟨k, known, ElementKind.isType_not_container isType⟩
  obtain ⟨analyses, complete⟩ := mapM_analyses sound plain
  have found (name : String) (e : ElementId) (mem : (name, e) ∈ s.typeElements) :
      (completeAll s).2.typeElement? name = some e := by
    rw [typeElement?, show (completeAll s).2.typeElements = _ from analyses.index]
    exact NameIndex.find?_of_mem once mem
  refine ⟨analyses, fun e mem => ?_, names_of_records found (fun name e r mem done => ?_) complete⟩
  · have recorded : (completeAll s).2.record? e ∈ s.typeElements.elements.map (completeAll s).2.record? :=
      List.mem_map_of_mem mem
    rw [show s.typeElements.elements.map (completeAll s).2.record? = _ from complete] at recorded
    obtain ⟨r, _, done⟩ := List.mem_map.mp recorded
    rw [isComplete, ← done]
    rfl
  · have consistent := analyses.sound.toConsistent
    obtain ⟨slot, there, _, rfl⟩ := (consistent.typeElements name e).mp (found name e mem)
    obtain ⟨slot', there', state⟩ := record?_eq_some_iff.mp done
    cases there.symm.trans there'
    exact ((consistent.orderly.slots e slot there).described r state).qualifiedName

end StoreM

/-- If the record of some type tells that something is wrong, then a name is there for it. -/
theorem Store.Consistent.names_blame {s : Store} (h : s.Consistent) (blamed : s.Blamed) :
    ∃ name ∈ s.typeElements.names, s.isErroneous name := by
  obtain ⟨e, r, k, complete, wrong, known, isType⟩ := blamed
  obtain ⟨slot, found, rfl⟩ := kind?_eq_some_iff.mp known
  have listed : s.typeElement? slot.qualifiedName = some e := (h.typeElements _ e).mpr ⟨slot, found, isType, rfl⟩
  refine ⟨slot.qualifiedName, ?_, ?_⟩
  · by_contra absent
    cases (NameIndex.find?_eq_none_iff.mpr absent).symm.trans listed
  · rw [isErroneous, listed, Option.any_some, complete, Option.any_some, wrong]

namespace CompileOptions

variable {o : CompileOptions} {p : EnteredProgram}

theorem run_analyzed (analyze : o.analyze) (goes : o.enter = .ok p) {names : List String} {after : Store}
    (completes : StoreM.completeAll.run p.store = (names, after)) :
    o.run = if names = [] then .ok { p with store := after, name := o.name, completed := after.completions }
      else .error (.erroneous o.name names) := by
  have run : o.run = o.finish p := by
    rw [CompileOptions.run, goes]
    rfl
  rw [run, finish, analyze, Bool.or_true, if_pos rfl, completes]
  cases names <;> rfl

/-- Once everything is entered the listener hears of it, and of the program only if that is accepted. -/
theorem course_entered (goes : o.enter = .ok p) :
    o.course = match o.run with
      | .error error => ([.entered p.entered], .error error)
      | .ok program => ([.entered p.entered, .ready program], .ok program) := by
  have run : o.run = o.finish p := by
    rw [CompileOptions.run, goes]
    rfl
  cases finished : o.finish p <;> simp [run, course, goes, finished]

end CompileOptions

open StoreM in
/-- An analysis completes every type of a program that was entered. If it accepts, then nothing in the store that
the listener gets is wrong, be it a record or a type, and there were as many completions as there are types. If it
rejects, the listener hears of no store, and the types are named whose records are erroneous, in the order in which
they were entered. It rejects whenever some type is unknown. -/
theorem analysis_finds_every_error {o : CompileOptions} {p : EnteredProgram} (analyze : o.analyze)
    (goes : o.enter = .ok p) :
    let after := (completeAll.run p.store).2
    (after.typeElements.names = o.program.flatMap (·.names) ∧
      ∀ e k, after.kind? e = some k → k.isType → after.isComplete e) ∧
    (∀ program, o.run = .ok program →
      o.course = ([.entered p.entered, .ready program], .ok program) ∧ program.store = after ∧
      (∀ e r, program.store.record? e = some r → r.erroneous = false) ∧
      (∀ t name, program.store.shape? t ≠ some (.error name)) ∧
      program.completed = program.store.completions ∧ program.completed = (o.program.flatMap (·.names)).length) ∧
    (∀ error, o.run = .error error →
      o.course = ([.entered p.entered], .error error) ∧
      error = .erroneous o.name ((o.program.flatMap (·.names)).filter after.isErroneous)) ∧
    ((∃ t name, after.shape? t = some (.error name)) → ∃ names, o.run = .error (.erroneous o.name names)) := by
  obtain ⟨_, declared, holds, _⟩ := o.enter_ok goes
  obtain ⟨analyses, complete, names⟩ := completeAll_analyses declared holds.once
  have counted := analyses.completions declared holds.once complete
  rcases completes : completeAll.run p.store with ⟨found, after⟩
  rw [show completeAll p.store = (found, after) from completes] at analyses complete names counted
  dsimp only at analyses complete names counted ⊢
  have index : after.typeElements.names = p.store.typeElements.names := congrArg NameIndex.names analyses.index
  have run := CompileOptions.run_analyzed analyze goes completes
  have consistent := analyses.sound.toConsistent
  -- Whatever is wrong is told by the record of a type that is named.
  have blames (blamed : after.Blamed) : found ≠ [] := by
    obtain ⟨name, mem, wrong⟩ := consistent.names_blame blamed
    rw [names, ← index]
    exact List.ne_nil_of_mem (List.mem_filter.mpr ⟨mem, wrong⟩)
  have clean : after.Clean ∨ found ≠ [] := by
    rcases analyses.proceeds.clean declared.unasked.clean with fine | blamed | more
    · exact .inl fine
    · exact .inr (blames blamed)
    · exact absurd more (Nat.lt_irrefl 0)
  refine ⟨⟨index.trans holds.names, fun e k known isType => ?_⟩, fun program accepted => ?_, fun error rejected => ?_, ?_⟩
  · have once : after.typeElements.names.Nodup := index ▸ holds.once
    refine complete e ?_
    rw [← show after.typeElements.elements = _ from congrArg NameIndex.elements analyses.index]
    exact (consistent.typeElements.mem_elements once).mpr ⟨k, known, isType⟩
  · refine ⟨by rw [CompileOptions.course_entered goes, accepted], ?_⟩
    rw [run] at accepted
    split at accepted <;> rename_i none
    · cases accepted
      have fine := clean.resolve_right (not_not.mpr none)
      exact ⟨rfl, fine.records, fine.shapes, rfl, counted.trans (congrArg List.length holds.names)⟩
    · cases accepted
  · refine ⟨by rw [CompileOptions.course_entered goes, rejected], ?_⟩
    rw [run] at rejected
    split at rejected <;> rename_i some
    · cases rejected
    · cases rejected
      rw [names, holds.names]
  · rintro ⟨t, name, unknown⟩
    have some : found ≠ [] := clean.resolve_left fun fine => fine.shapes t name unknown
    exact ⟨found, run.trans (if_neg some)⟩

section sample

def CompileOptions.broken : CompileOptions :=
  { platform := false, analyze := true
    units := [{ package := "app"
                types := [.mk { kind := .classType, name := "Broken", superclass := some (.named "Missing" []) } [],
                  .mk { kind := .classType, name := "Fine" } []] }] }

theorem CompileOptions.run_broken : broken.run = .error (.erroneous "mirra" ["app.Broken"]) := by
  have rejects : (match broken.run with
    | .error (.erroneous name names) => name == "mirra" && names == ["app.Broken"]
    | _ => false) = true := by decide +kernel
  split at rejects
  · rename_i name names run
    rw [Bool.and_eq_true, beq_iff_eq, beq_iff_eq] at rejects
    rw [run, rejects.1, rejects.2]
  · cases rejects

open CompileOptions StoreM in
/-- Only the class is named whose superclass is unknown. -/
theorem broken_analysis_finds_every_error :
    ∃ p, broken.enter = .ok p ∧
      (broken.program.flatMap (·.names)).filter (completeAll.run p.store).2.isErroneous = ["app.Broken"] ∧
      broken.course = ([.entered p.entered], .error (.erroneous "mirra" ["app.Broken"])) := by
  have entered : ∃ p, broken.enter = .ok p := by
    cases goes : broken.enter with
    | ok p => exact ⟨p, rfl⟩
    | error error =>
      obtain ⟨_, faults, refused, _⟩ := enter_error goes
      have run := run_broken
      rw [CompileOptions.run, goes, refused] at run
      cases run
  obtain ⟨p, goes⟩ := entered
  obtain ⟨_, _, rejects, _⟩ := analysis_finds_every_error (o := broken) rfl goes
  obtain ⟨course, names⟩ := rejects _ run_broken
  exact ⟨p, goes, (CompileError.erroneous.inj names).2.symm, course⟩

open CompileOptions in
/-- The listener is not only called when a program is accepted: it always hears that the program was entered. -/
theorem analysis_is_heard_of :
    ¬ ∀ o : CompileOptions, o.analyze → ∀ names, o.run = .error (.erroneous o.name names) → o.course.1 = [] := by
  intro silent
  have heard : broken.course.1.length = 1 := by decide +kernel
  rw [silent broken rfl _ run_broken] at heard
  cases heard

end sample

end Nominal
