import Nominal.Host
import Mathlib.Data.List.Infix
/-!
The life of a host with one caller, who asks for the program, closes the host and uses what was handed out, in any
order and any number of times. The host compiles once for all that is asked between two times that it is closed, and
each program has a store of its own, in which nothing happens but what is done through its own handles.
-/

namespace Nominal

/-- What a caller may do. -/
inductive HostCall where
  | get
  | close
  | use (domain : Domain) (work : StoreM Unit)

namespace HostCall

def perform : HostCall → HostM Unit
  | get => discard HostM.obtain
  | close => HostM.close
  | use domain work => HostM.liftWork (WorkM.within domain work)

def asks (asked : Bool) : List HostCall → Bool
  | [] => asked
  | get :: rest => asks true rest
  | close :: rest => asks false rest
  | use .. :: rest => asks asked rest

def starts (asked : Bool) : List HostCall → Nat
  | [] => 0
  | get :: rest => (if asked then 0 else 1) + starts true rest
  | close :: rest => starts false rest
  | use .. :: rest => starts asked rest

def uses (index : Nat) : List HostCall → Store → Store
  | [], s => s
  | use domain work :: rest, s => uses index rest (if domain.store = index then (work s).2 else s)
  | _ :: rest, s => uses index rest s

end HostCall

namespace Host

open HostCall

def step (x : Host × Workspace) (c : HostCall) : Host × Workspace :=
  let done := (c.perform.run x.1) x.2
  (done.1.2, done.2)

def after (config : HostConfig) (w : Workspace) (calls : List HostCall) : Host × Workspace :=
  calls.foldl step ({ config }, w)

def answer (x : Host × Workspace) : HostAnswer := ((HostM.obtain.run x.1) x.2).1.1

def told (config : HostConfig) (w : Workspace) (calls : List HostCall) : HostAnswer := answer (after config w calls)

def storeOf (x : Host × Workspace) (handle : HostHandle) : Option Store := x.2.stores[handle.domain.store]?

/-- What may be relied on from outside, whatever is called and in whatever order. -/
structure LifeCycle (config : HostConfig) (w : Workspace) : Prop where
  /-- The generation counts the calls that were the first ones to ask since the host was there or was closed. -/
  generation : ∀ calls, (after config w calls).1.generation = starts false calls
  /-- All who ask before the host is closed are answered the same. -/
  alike : ∀ calls more, .close ∉ more → told config w (calls ++ .get :: more) = told config w calls
  /-- What cannot be compiled is refused, for the same reason again and again. -/
  refused : ∀ cause, config.compile.run = .error cause →
    ∀ calls, told config w calls = .error (.initialization cause)
  /-- What can be compiled is handed out, with the generation that it is of. The first one to ask finds it as it was
  compiled. -/
  handed : ∀ p, config.compile.run = .ok p → ∀ calls, ∃ handle, told config w calls = .ok handle ∧
    handle.generation = (after config w (calls ++ [.get])).1.generation ∧
    (asks false calls = false → storeOf (after config w (calls ++ [.get])) handle = some p.store)
  /-- Whoever asks after the host was closed starts over. -/
  renewed : ∀ calls more, .close ∈ more →
    (after config w (calls ++ [.get])).1.generation < (after config w (calls ++ .get :: more ++ [.get])).1.generation
  /-- What is handed out then has nothing to do with what was handed out before. -/
  apart : ∀ calls more handle handle', .close ∈ more → told config w calls = .ok handle →
    told config w (calls ++ .get :: more) = .ok handle' →
    handle.generation < handle'.generation ∧ handle.domain.store ≠ handle'.domain.store ∧
      handle.domain.same handle'.domain = false
  /-- A handle stays usable, and in its store nothing happens but what is done through handles of this store. -/
  lasting : ∀ calls handle, told config w calls = .ok handle →
    ∃ s, storeOf (after config w (calls ++ [.get])) handle = some s ∧
      ∀ more, storeOf (after config w (calls ++ .get :: more)) handle = some (uses handle.domain.store more s)
  /-- Closing a host that was not asked since it was closed last does nothing. -/
  idle : ∀ calls, asks false calls = false → after config w (calls ++ [.close]) = after config w calls

variable {x : Host × Workspace} {config : HostConfig} {c : HostCall} {calls more : List HostCall} {asked : Bool}
  {h : Host} {w : Workspace} {p : CompiledProgram} {cause : CompileError} {handle : HostHandle} {generation : Nat}

section calls

theorem heard_of_course (o : CompileOptions) : ∃ notices, o.course = (notices, o.run) ∧
    HostM.heard? notices = o.run.toOption := by
  rw [CompileOptions.course, CompileOptions.run]
  cases o.enter with
  | error e => exact ⟨_, rfl, rfl⟩
  | ok p => cases finished : o.finish p <;> simp [finished, HostM.heard?, bind, Except.bind, Except.toOption]

theorem outcome_ok {o : CompileOptions} (compiled : o.run = .ok p) :
    HostM.outcome generation o.course w =
      (.ok { generation, domain := { store := w.stores.size, recipe := some Recipe.runtime } },
        { w with stores := w.stores.push p.store }) := by
  obtain ⟨notices, course, heard⟩ := heard_of_course o
  rw [compiled] at course heard
  rw [course, HostM.outcome.eq_def]
  dsimp only
  rw [heard]
  rfl

theorem outcome_error {o : CompileOptions} (refused : o.run = .error cause) :
    HostM.outcome generation o.course w = (.error (.initialization cause), w) := by
  obtain ⟨notices, course, heard⟩ := heard_of_course o
  rw [refused] at course heard
  rw [course, HostM.outcome.eq_def]
  dsimp only
  rw [heard]
  rfl

/-- An outcome is stale unless the host waits for the task that it is of. -/
theorem publish_stale (other : h.state ≠ .initializing generation) (answer : HostAnswer) :
    h.publish generation answer = h := by
  unfold publish
  split
  · rename_i awaited awaits
    exact if_neg fun same => other (awaits.trans (congrArg _ same))
  · rfl

theorem publish_awaited (awaits : h.state = .initializing generation) (answer : HostAnswer) :
    h.publish generation answer = { h with state := .settled generation answer } := by
  unfold publish
  split
  · rename_i awaited awaits'
    cases awaits.symm.trans awaits'
    rw [if_pos rfl]
  · rename_i other
    exact absurd awaits (other generation)

theorem obtainN_succ (looks : Nat) : ((HostM.obtainN (looks + 1)).run h) w =
    match h.state with
    | .ready handle => ((.ok handle, h), w)
    | .failed _ error => ((.error error, h), w)
    | .idle => ((HostM.obtainN looks).run h.launch) w
    | .initializing generation =>
      let published := ((HostM.task generation).run h) w
      ((HostM.obtainN looks).run published.1.2) published.2 := by
  change ((HostM.look (HostM.obtainN looks)).run h) w = _
  have looks_at (f : Host → HostM HostAnswer) :
      ((MonadState.get >>= f : HostM HostAnswer).run h) w = ((f h).run h) w := rfl
  rw [HostM.look, looks_at]
  cases h.state <;> rfl

theorem obtainN_settled {answer : HostAnswer} (settled : h.state = .settled generation answer) (looks : Nat) :
    ((HostM.obtainN (looks + 1)).run h) w = ((answer, h), w) := by
  rw [obtainN_succ, settled]
  cases answer <;> rfl

theorem obtainN_idle (idle : h.state = .idle) (looks : Nat) : ((HostM.obtainN (looks + 3)).run h) w =
    let done := HostM.outcome (h.generation + 1) h.config.compile.course w
    ((done.1, { h with generation := h.generation + 1, state := .settled (h.generation + 1) done.1 }), done.2) := by
  have task (h : Host) (generation : Nat) : ((HostM.task generation).run h) w =
    let done := HostM.outcome generation h.config.compile.course w
    (((), h.publish generation done.1), done.2) := rfl
  have awaits : h.launch.state = .initializing (h.generation + 1) := rfl
  rw [obtainN_succ, idle]
  dsimp only
  rw [obtainN_succ, awaits]
  dsimp only
  rw [task]
  dsimp only
  rw [publish_awaited awaits, obtainN_settled rfl]
  rfl

end calls

section counting

theorem asks_append : asks asked (calls ++ more) = asks (asks asked calls) more := by
  induction calls generalizing asked with
  | nil => rfl
  | cons c calls ih => cases c <;> exact ih

theorem starts_append : starts asked (calls ++ more) = starts asked calls + starts (asks asked calls) more := by
  induction calls generalizing asked with
  | nil => simp [starts, asks]
  | cons c calls ih => cases c <;> simp [starts, asks, ih, Nat.add_assoc]

theorem starts_of_closed : 0 < starts false (calls ++ [.get]) := by
  induction calls with
  | nil => decide
  | cons c calls ih =>
    cases c with
    | get => exact Nat.lt_of_lt_of_le Nat.one_pos (Nat.le_add_right _ _)
    | close | use _ _ => exact ih

theorem starts_of_close (closed : .close ∈ calls) : 0 < starts asked (calls ++ [.get]) := by
  induction calls generalizing asked with
  | nil => cases closed
  | cons c calls ih =>
    cases c with
    | get =>
      have rest : 0 < starts true (calls ++ [.get]) := ih (by simpa using closed)
      exact Nat.lt_of_lt_of_le rest (Nat.le_add_left _ _)
    | close => exact starts_of_closed
    | use domain work => exact ih (by simpa using closed)

theorem uses_append (i : Nat) (s : Store) : uses i (calls ++ more) s = uses i more (uses i calls s) := by
  induction calls generalizing s with
  | nil => rfl
  | cons c calls ih => cases c <;> exact ih _

end counting

section steps

def Published (config : HostConfig) (generation : Nat) (w : Workspace) : HostAnswer → Prop
  | .ok handle => (∃ p, config.compile.run = .ok p) ∧ handle.generation = generation ∧
      handle.domain.store < w.stores.size ∧ handle.domain.ownIdentity = none
  | .error error => ∃ cause, config.compile.run = .error cause ∧ error = .initialization cause

structure Rests (config : HostConfig) (asked : Bool) (x : Host × Workspace) : Prop where
  configured : x.1.config = config
  idle : asked = false → x.1.state = .idle
  settled : asked = true →
    ∃ answer, x.1.state = .settled x.1.generation answer ∧ Published config x.1.generation x.2 answer

theorem Published.grow {w' : Workspace} {answer : HostAnswer} (published : Published config generation w answer)
    (grows : w.stores.size ≤ w'.stores.size) : Published config generation w' answer := by
  cases answer with
  | ok handle =>
    obtain ⟨compiles, same, there, shared⟩ := published
    exact ⟨compiles, same, Nat.lt_of_lt_of_le there grows, shared⟩
  | error error => exact published

theorem published_outcome (config : HostConfig) (generation : Nat) (w : Workspace) :
    Published config generation (HostM.outcome generation config.compile.course w).2
      (HostM.outcome generation config.compile.course w).1 := by
  cases compiled : config.compile.run with
  | ok p =>
    rw [outcome_ok compiled]
    exact ⟨⟨p, compiled⟩, rfl, by simp, rfl⟩
  | error cause =>
    rw [outcome_error compiled]
    exact ⟨cause, compiled, rfl⟩

theorem step_get_settled {kept : HostAnswer} (settled : x.1.state = .settled generation kept) :
    step x .get = x ∧ answer x = kept := by
  have obtained := obtainN_settled (w := x.2) settled 2
  exact ⟨congrArg (fun done => (done.1.2, done.2)) obtained, congrArg (·.1.1) obtained⟩

theorem step_get_idle (idle : x.1.state = .idle) (configured : x.1.config = config) :
    ∃ done, HostM.outcome (x.1.generation + 1) config.compile.course x.2 = done ∧
      step x .get = ({ config, generation := x.1.generation + 1, state := .settled (x.1.generation + 1) done.1 }, done.2) ∧
      answer x = done.1 := by
  have obtained := obtainN_idle (w := x.2) idle 0
  rw [configured] at obtained
  exact ⟨_, rfl, congrArg (fun done => (done.1.2, done.2)) obtained, congrArg (·.1.1) obtained⟩

theorem size_use (domain : Domain) (work : StoreM Unit) :
    (step x (.use domain work)).2.stores.size = x.2.stores.size := by
  change ((x.2.stores.setIfInBounds _ _).setIfInBounds _ _).size = _
  rw [Array.size_setIfInBounds, Array.size_setIfInBounds]

theorem Rests.step (rests : Rests config asked x) (c : HostCall) : Rests config (asks asked [c]) (step x c) ∧
    (Host.step x c).1.generation = x.1.generation + starts asked [c] := by
  cases c with
  | get =>
    cases asked with
    | true =>
      obtain ⟨kept, settled, _⟩ := rests.settled rfl
      rw [(step_get_settled settled).1]
      exact ⟨rests, rfl⟩
    | false =>
      obtain ⟨done, ran, stepped, _⟩ := step_get_idle (rests.idle rfl) rests.configured
      rw [stepped]
      refine ⟨⟨rfl, by simp [asks], fun _ => ⟨done.1, rfl, ?_⟩⟩, rfl⟩
      rw [← ran]
      exact published_outcome _ _ _
  | close => exact ⟨⟨rests.configured, fun _ => rfl, by simp [asks]⟩, rfl⟩
  | use domain work =>
    refine ⟨⟨rests.configured, rests.idle, fun same => ?_⟩, rfl⟩
    obtain ⟨kept, settled, published⟩ := rests.settled same
    exact ⟨kept, settled, published.grow (Nat.le_of_eq (size_use domain work).symm)⟩

theorem Rests.run (rests : Rests config asked x) (calls : List HostCall) :
    Rests config (asks asked calls) (calls.foldl Host.step x) ∧
      (calls.foldl Host.step x).1.generation = x.1.generation + starts asked calls := by
  induction calls generalizing x asked with
  | nil => exact ⟨rests, rfl⟩
  | cons c calls ih =>
    obtain ⟨first, counted⟩ := rests.step c
    obtain ⟨rest, counts⟩ := ih first
    have asks_both : asks asked ([c] ++ calls) = asks (asks asked [c]) calls := asks_append
    have starts_both : starts asked ([c] ++ calls) = starts asked [c] + starts (asks asked [c]) calls := starts_append
    rw [← asks_both] at rest
    exact ⟨rest, by rw [List.foldl_cons, counts, counted, Nat.add_assoc, ← starts_both]; rfl⟩

theorem rests_after (config : HostConfig) (w : Workspace) (calls : List HostCall) :
    Rests config (asks false calls) (after config w calls) ∧
      (after config w calls).1.generation = starts false calls := by
  have new : Rests config false ({ config }, w) := ⟨rfl, fun _ => rfl, by simp⟩
  obtain ⟨rests, counts⟩ := new.run calls
  exact ⟨rests, counts.trans (Nat.zero_add _)⟩

end steps

section stores

theorem Rests.step_store (rests : Rests config asked x) (c : HostCall) {i : Nat} {s : Store}
    (there : x.2.stores[i]? = some s) : (Host.step x c).2.stores[i]? = some (uses i [c] s) := by
  have bound := (Array.getElem?_eq_some_iff.mp there).1
  cases c with
  | get =>
    cases asked with
    | true =>
      obtain ⟨kept, settled, _⟩ := rests.settled rfl
      rw [(step_get_settled settled).1]
      exact there
    | false =>
      obtain ⟨done, ran, stepped, _⟩ := step_get_idle (rests.idle rfl) rests.configured
      rw [stepped, ← ran]
      cases compiled : config.compile.run with
      | ok p =>
        rw [outcome_ok compiled]
        exact (Array.getElem?_push_lt bound).trans ((Array.getElem?_eq_getElem bound).symm.trans there)
      | error cause =>
        rw [outcome_error compiled]
        exact there
  | close => exact there
  | use domain work =>
    change ((x.2.stores.setIfInBounds domain.store .empty).setIfInBounds domain.store
      (work (x.2.stores.getD domain.store .empty)).2)[i]? = some (if domain.store = i then (work s).2 else s)
    by_cases same : domain.store = i
    · subst same
      rw [if_pos rfl, Array.getElem?_setIfInBounds_self_of_lt (by simpa using bound), Array.getD_eq_getD_getElem?, there]
      rfl
    · rw [if_neg same, Array.getElem?_setIfInBounds_ne same, Array.getElem?_setIfInBounds_ne same, there]

theorem Rests.run_store (rests : Rests config asked x) (calls : List HostCall) {i : Nat} {s : Store}
    (there : x.2.stores[i]? = some s) : (calls.foldl Host.step x).2.stores[i]? = some (uses i calls s) := by
  induction calls generalizing x asked s with
  | nil => exact there
  | cons c calls ih =>
    have both : uses i ([c] ++ calls) s = uses i calls (uses i [c] s) := uses_append i s
    exact (ih (rests.step c).1 (rests.step_store c there)).trans (congrArg some both.symm)

theorem Rests.run_size (rests : Rests config asked x) (calls : List HostCall) :
    x.2.stores.size ≤ (calls.foldl Host.step x).2.stores.size := by
  refine Nat.le_of_not_lt fun less => ?_
  have there := rests.run_store calls (Array.getElem?_eq_getElem less)
  exact Nat.lt_irrefl _ (Array.getElem?_eq_some_iff.mp there).1

def Recent (n : Nat) (x : Host × Workspace) : Prop :=
  n ≤ x.2.stores.size ∧ ∀ handle, x.1.state = .ready handle → n ≤ handle.domain.store

theorem Recent.step {n : Nat} (recent : Recent n x) (rests : Rests config asked x) (c : HostCall) :
    Recent n (Host.step x c) := by
  refine ⟨recent.1.trans (rests.run_size [c]), ?_⟩
  cases c with
  | get =>
    cases asked with
    | true =>
      obtain ⟨kept, settled, _⟩ := rests.settled rfl
      rw [(step_get_settled settled).1]
      exact recent.2
    | false =>
      obtain ⟨done, ran, stepped, _⟩ := step_get_idle (rests.idle rfl) rests.configured
      rw [stepped, ← ran]
      cases compiled : config.compile.run with
      | ok p =>
        rw [outcome_ok compiled]
        rintro _ ⟨⟩
        exact recent.1
      | error cause =>
        rw [outcome_error compiled]
        rintro _ ⟨⟩
  | close => rintro _ ⟨⟩
  | use domain work => exact recent.2

theorem Recent.run {n : Nat} (recent : Recent n x) (rests : Rests config asked x) (calls : List HostCall) :
    Recent n (calls.foldl Host.step x) := by
  induction calls generalizing x asked with
  | nil => exact recent
  | cons c calls ih => exact ih (recent.step rests c) (rests.step c).1

end stores

section answers

theorem Rests.answered (rests : Rests config asked x) :
    (Host.step x .get).1.state = .settled (Host.step x .get).1.generation (answer x) ∧
      Published config (Host.step x .get).1.generation (Host.step x .get).2 (answer x) := by
  cases asked with
  | true =>
    obtain ⟨kept, settled, published⟩ := rests.settled rfl
    obtain ⟨stepped, answered⟩ := step_get_settled settled
    rw [stepped, answered]
    exact ⟨settled, published⟩
  | false =>
    obtain ⟨done, ran, stepped, answered⟩ := step_get_idle (rests.idle rfl) rests.configured
    rw [stepped, answered, ← ran]
    exact ⟨rfl, published_outcome _ _ _⟩

theorem run_settled {kept : HostAnswer} (settled : x.1.state = .settled generation kept) (closed : .close ∉ calls) :
    (calls.foldl Host.step x).1 = x.1 := by
  induction calls generalizing x with
  | nil => rfl
  | cons c calls ih =>
    have stays : (Host.step x c).1 = x.1 := by
      cases c with
      | get => rw [(step_get_settled settled).1]
      | close => simp at closed
      | use domain work => rfl
    exact (ih (by rw [stays]; exact settled) (by simpa using fun mem => closed (List.mem_cons_of_mem _ mem))).trans stays

theorem after_append : after config w (calls ++ more) = more.foldl step (after config w calls) := List.foldl_append

/-- The answer to the next call that asks is what the host keeps then. -/
theorem told_kept (config : HostConfig) (w : Workspace) (calls : List HostCall) :
    (after config w (calls ++ [.get])).1.state =
        .settled (after config w (calls ++ [.get])).1.generation (told config w calls) ∧
      Published config (after config w (calls ++ [.get])).1.generation (after config w (calls ++ [.get])).2
        (told config w calls) := by
  rw [after_append]
  exact (rests_after config w calls).1.answered

theorem told_handle (handed : told config w calls = .ok handle) :
    handle.generation = (after config w (calls ++ [.get])).1.generation ∧
      handle.domain.store < (after config w (calls ++ [.get])).2.stores.size ∧ handle.domain.ownIdentity = none := by
  have published := (told_kept config w calls).2
  rw [handed] at published
  exact published.2

theorem told_refused (refused : config.compile.run = .error cause) :
    told config w calls = .error (.initialization cause) := by
  have published := (told_kept config w calls).2
  cases answered : told config w calls with
  | ok handle =>
    rw [answered] at published
    obtain ⟨⟨p, compiled⟩, _⟩ := published
    cases refused.symm.trans compiled
  | error error =>
    rw [answered] at published
    obtain ⟨cause', refused', rfl⟩ := published
    cases refused.symm.trans refused'
    rfl

theorem told_compiled (compiled : config.compile.run = .ok p) : ∃ handle, told config w calls = .ok handle := by
  have published := (told_kept config w calls).2
  cases answered : told config w calls with
  | ok handle => exact ⟨handle, rfl⟩
  | error error =>
    rw [answered] at published
    obtain ⟨cause, refused, _⟩ := published
    cases compiled.symm.trans refused

theorem store_of_first (compiled : config.compile.run = .ok p) (closed : asks false calls = false)
    (handed : told config w calls = .ok handle) : storeOf (after config w (calls ++ [.get])) handle = some p.store := by
  have rests := (rests_after config w calls).1
  obtain ⟨done, ran, stepped, answered⟩ := step_get_idle (rests.idle closed) rests.configured
  rw [outcome_ok compiled] at ran
  rw [after_append, List.foldl_cons, List.foldl_nil, stepped, ← ran]
  cases handed.symm.trans (answered.trans (congrArg Prod.fst ran.symm))
  exact Array.getElem?_push_size

/-- After the host was closed a program is handed out whose store was not there before. -/
theorem store_of_renewed {n : Nat} (grown : n ≤ (after config w calls).2.stores.size) (closed : .close ∈ more)
    (handed : told config w (calls ++ more) = .ok handle) : n ≤ handle.domain.store := by
  obtain ⟨earlier, later, rfl⟩ := List.append_of_mem closed
  have rests := (rests_after config w (calls ++ earlier ++ [.close])).1
  have recent : Recent n (after config w (calls ++ earlier ++ [.close])) := by
    have grows := (rests_after config w calls).1.run_size (earlier ++ [.close])
    rw [← after_append, ← List.append_assoc] at grows
    refine ⟨grown.trans grows, ?_⟩
    rw [after_append]
    rintro _ ⟨⟩
  have kept := (recent.run rests (later ++ [.get])).2
  rw [← after_append] at kept
  refine kept handle ?_
  have settled := (told_kept config w (calls ++ (earlier ++ .close :: later))).1
  rw [handed, HostState.settled] at settled
  simpa using settled

end answers

theorem generation_renewed (closed : .close ∈ more) : (after config w (calls ++ [.get])).1.generation <
    (after config w (calls ++ .get :: more ++ [.get])).1.generation := by
  have both : calls ++ .get :: more ++ [.get] = (calls ++ [.get]) ++ (more ++ [.get]) := by simp
  have counts : starts false ((calls ++ [.get]) ++ (more ++ [.get])) = starts false (calls ++ [.get]) + _ := starts_append
  rw [(rests_after config w _).2, (rests_after config w _).2, both, counts]
  exact Nat.lt_add_of_pos_right (starts_of_close closed)

/-- A host does as its life cycle says. -/
theorem host_life_cycle (config : HostConfig) (w : Workspace) : LifeCycle config w where
  generation calls := (rests_after config w calls).2
  alike calls more closed := by
    have settled := (told_kept config w calls).1
    have kept : (after config w (calls ++ .get :: more)).1 = (after config w (calls ++ [.get])).1 := by
      rw [← List.singleton_append, ← List.append_assoc, after_append]
      exact run_settled settled closed
    rw [← kept] at settled
    exact (step_get_settled settled).2
  refused cause refused calls := told_refused refused
  handed p compiled calls := by
    obtain ⟨handle, handed⟩ : ∃ handle, told config w calls = .ok handle := told_compiled compiled
    exact ⟨handle, handed, (told_handle handed).1, fun closed => store_of_first compiled closed handed⟩
  renewed calls more closed := generation_renewed closed
  apart calls more handle handle' closed handed handed' := by
    obtain ⟨same, there, shared⟩ := told_handle handed
    obtain ⟨same', _, shared'⟩ := told_handle handed'
    have later : (after config w (calls ++ [.get])).2.stores.size ≤ handle'.domain.store := by
      refine store_of_renewed (Nat.le_refl _) closed ?_
      simpa using handed'
    have other : handle.domain.store ≠ handle'.domain.store := Nat.ne_of_lt (Nat.lt_of_lt_of_le there later)
    refine ⟨same ▸ same' ▸ generation_renewed closed, other, ?_⟩
    simp [Domain.same, Domain.identity, shared, shared', other]
  lasting calls handle handed := by
    obtain ⟨_, there, _⟩ := told_handle handed
    refine ⟨_, Array.getElem?_eq_getElem there, fun more => ?_⟩
    have rests := (rests_after config w (calls ++ [.get])).1
    have run := rests.run_store more (Array.getElem?_eq_getElem there)
    rw [← after_append] at run
    simpa [storeOf] using run
  idle calls closed := by
    have idle := (rests_after config w calls).1.idle closed
    rw [after_append]
    refine Prod.ext ?_ rfl
    change { (after config w calls).1 with state := .idle } = _
    rw [← idle]

end Host

end Nominal
