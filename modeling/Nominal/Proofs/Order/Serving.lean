import Nominal.Proofs.Order.Completing
/-!
Once a completion is over, what it added is explained by the store to compare with as well. So a completion that may
ask for all that it needs tells of its element what that store says, however many others it completes on the way.
-/

namespace Nominal

open Completion

variable {out : Outset}

def Pairing.settle (w : Pairing out) : Renaming where
  element a b := w.known.element a b ∨ w.own.element a b
  type t u := w.known.type t u ∨ w.own.type t u

def Outset.pairing (out : Outset) : Pairing out where
  known := out.known
  own := ⟨fun _ _ => False, fun _ _ => False⟩
  bound _ _ := False

namespace Store

open Reference

variable {s₀ : Store} {R : Reference s₀ s₀.HasElement} {x : ElementId} {w v : Pairing out} {s r : Store} {again : Again}
  {a b e : ElementId} {t u : TypeId} {q : ElementRecord} {slot : Slot}

theorem Reference.near_le_settle (w : Pairing out) : R.near x w ≤ w.settle :=
  ⟨fun same => same.elim .inr fun known => .inl known.1, fun same => same.elim .inr fun known => .inl known.1⟩

section apart

variable (R)

theorem Reference.adds_once (there : s₀.HasElement x) (there' : s₀.HasElement e) (adds : R.Adds x b)
    (adds' : R.Adds e b) : e = x := by
  by_contra other
  rcases R.apart x e there there' (Ne.symm other) with earlier | earlier
  · exact adds'.1 (Nat.lt_of_lt_of_le adds.2 earlier.1)
  · exact adds.1 (Nat.lt_of_lt_of_le adds'.2 earlier.1)

theorem Reference.adds_type_once (there : s₀.HasElement x) (there' : s₀.HasElement e) (adds : R.AddsType x u)
    (adds' : R.AddsType e u) : e = x := by
  by_contra other
  rcases R.apart x e there there' (Ne.symm other) with earlier | earlier
  · exact adds'.1 (Nat.lt_of_lt_of_le adds.2 earlier.2)
  · exact adds.1 (Nat.lt_of_lt_of_le adds'.2 earlier.2)

theorem Reference.usage_before (there : s₀.HasElement x) (usage : R.store.objectUsage = some u) : (R.before x).HasType u := by
  obtain ⟨_, _, shape⟩ := (R.turn x there).consistent.object u ((R.usage x there).trans usage)
  exact has_type_iff.mpr ⟨_, shape⟩

end apart

section settling

theorem Reference.Abreast.adds (ab : R.Abreast x v s r) (ends : ∀ b, r.HasElement b → (R.after x).HasElement b)
    (own : v.own.element a b) : R.Adds x b := ⟨(ab.fresh own).1, ends b (ab.there own).2⟩

theorem Reference.Abreast.adds_type (ab : R.Abreast x v s r) (ends : ∀ u, r.HasType u → (R.after x).HasType u)
    (own : v.own.type t u) : R.AddsType x u := ⟨(ab.freshType own).1, ends u (ab.type_there own).2⟩

theorem Reference.Abreast.known_apart (ab : R.Abreast x v s r) (known : v.known.element a b) : ¬ R.Adds x b := by
  intro adds
  rcases ab.explains.origin known with entered | ⟨e, entered, complete, adds'⟩
  · cases ab.explains.entered_eq known entered
    exact adds.1 ((R.turn x ab.entered).underlies.there entered)
  · obtain rfl := R.adds_once ab.entered entered adds adds'
    obtain ⟨q, complete⟩ := isComplete_iff_record.mp complete
    exact not_open_of_record complete ab.busy

theorem Reference.Abreast.known_type_apart (ab : R.Abreast x v s r) (known : v.known.type t u) :
    ¬ R.AddsType x u := by
  intro adds
  rcases ab.explains.typeOrigin known with entered | usage | ⟨e, entered, complete, adds'⟩
  · have initial : u = t := ((ab.explains.once.type (ab.explains.initial t entered) known).mp rfl).symm
    obtain ⟨shape, found⟩ := has_type_iff.mp entered
    exact adds.1 (initial ▸ has_type_iff.mpr ⟨shape, (R.turn x ab.entered).underlies.types t shape found⟩)
  · exact adds.1 (R.usage_before ab.entered usage)
  · obtain rfl := R.adds_type_once ab.entered entered adds adds'
    obtain ⟨q, complete⟩ := isComplete_iff_record.mp complete
    exact not_open_of_record complete ab.busy

theorem Reference.Abreast.settle_once (ab : R.Abreast x v s r)
    (ends : ∀ b, r.HasElement b → (R.after x).HasElement b) (endsType : ∀ u, r.HasType u → (R.after x).HasType u) :
    v.settle.OneToOne := by
  constructor
  · rintro a b a' b' (known | own) (known' | own')
    · exact ab.explains.once.element known known'
    · exact iff_of_false (fun same => (ab.fresh own').2 b (same ▸ known)) fun same =>
        ab.known_apart known (same ▸ ab.adds ends own')
    · exact iff_of_false (fun same => (ab.fresh own).2 b' (same ▸ known')) fun same =>
        ab.known_apart known' (same ▸ ab.adds ends own)
    · exact ab.once.element own own'
  · rintro t u t' u' (known | own) (known' | own')
    · exact ab.explains.once.type known known'
    · exact iff_of_false (fun same => (ab.freshType own').2 u (same ▸ known)) fun same =>
        ab.known_type_apart known (same ▸ ab.adds_type endsType own')
    · exact iff_of_false (fun same => (ab.freshType own).2 u' (same ▸ known')) fun same =>
        ab.known_type_apart known' (same ▸ ab.adds_type endsType own)
    · exact ab.once.type own own'

theorem Reference.Abreast.settles (poised : s₀.Poised) (ab : R.Abreast x v s r) (closed : ∀ e, r.Open e → e = x)
    (ends : R.after x = served r x (R.record x)) (like : (R.near x v).Record q (R.record x)) :
    R.Explains v.settle (served s x q) := by
  have le := near_le_settle (R := R) (x := x) v
  have known_le : v.known ≤ v.settle := ⟨.inl, .inl⟩
  have entered := ab.entered
  have there := ab.explains.under.there entered
  have elements (b : ElementId) (there : r.HasElement b) : (R.after x).HasElement b := by
    rw [ends]
    exact served_there.mpr there
  have types (u : TypeId) (there : r.HasType u) : (R.after x).HasType u := by
    rw [ends]
    exact there
  have complete {e : ElementId} (done : s.isComplete e) : (served s x q).isComplete e := by
    by_cases here : e = x
    · rw [here, isComplete, record?_served there]
      rfl
    · rwa [isComplete, record?_served_ne here]
  -- Whatever the completion added in the store to compare with is complete there.
  have published {a b : ElementId} (own : v.own.element a b) :
      ∃ q₁ q₂, s.record? a = some q₁ ∧ R.store.record? b = some q₂ ∧ (R.near x v).Record q₁ q₂ := by
    obtain ⟨slot, slot', found, found', same, _⟩ := ab.element own
    have states := same.state
    have apart : b ≠ x := fun here => (ab.fresh own).1 (here ▸ (R.turn x entered).underlies.there entered)
    generalize state : slot.state = now at states
    generalize state' : slot'.state = now' at states
    cases states with
    | completing => exact absurd (closed b ⟨slot', found', state'⟩) apart
    | @complete q₁ q₂ alike =>
      refine ⟨q₁, q₂, record?_eq_some_iff.mpr ⟨slot, found, state⟩, ?_, alike⟩
      refine (R.endures x entered).records b q₂ ?_
      change (R.after x).record? b = some q₂
      rw [ends, record?_served_ne apart]
      exact record?_eq_some_iff.mpr ⟨slot', found', state'⟩
  have own_ne {a b : ElementId} (own : v.own.element a b) : a ≠ x := (ab.ne_own own entered).symm
  exact
    { under := ab.explains.under.served _ q
      once := ab.settle_once elements types
      entered := fun e there => .inl (ab.explains.entered e there)
      initial := fun t there => .inl (ab.explains.initial t there)
      record := by
        rintro a b q₁ (known | own) found
        · by_cases here : a = x
          · subst here
            cases ab.explains.entered_eq known entered
            cases (record?_served there).symm.trans found
            have alike := like.mono le
            exact ⟨_, R.complete poised entered, alike.outline (.inl (ab.explains.initial _ poised.sound.has_none)), fun _ => alike⟩
          · rw [record?_served_ne here] at found
            obtain ⟨q₂, found', alike, same⟩ := ab.explains.record known found
            exact ⟨q₂, found', alike.mono known_le, fun new => (same new).mono known_le⟩
        · obtain ⟨q₁', q₂, found', found₂, alike⟩ := published own
          rw [record?_served_ne (own_ne own)] at found
          cases found.symm.trans found'
          have alike := alike.mono le
          exact ⟨q₂, found₂, alike.outline (.inl (ab.explains.initial _ poised.sound.has_none)), fun _ => alike⟩
      complete := by
        rintro a b (known | own) new
        · exact complete (ab.explains.complete known new)
        · obtain ⟨q₁, _, found, _⟩ := published own
          exact complete (isComplete_iff_record.mpr ⟨q₁, found⟩)
      shape := by
        rintro t u (known | own)
        · obtain ⟨shape, shape', found, found', same⟩ := ab.explains.shape known
          exact ⟨shape, shape', found, found', same.mono known_le⟩
        · obtain ⟨shape, shape', found, found', same⟩ := ab.type own
          refine ⟨shape, shape', found, (R.endures x entered).shapes u shape' ?_, same.mono le⟩
          change (R.after x).shape? u = _
          rw [ends]
          exact found'
      origin := by
        rintro a b (known | own)
        · refine (ab.explains.origin known).imp_right fun ⟨e, there, done, adds⟩ => ⟨e, there, complete done, adds⟩
        · exact .inr ⟨x, entered, isComplete_iff_record.mpr ⟨q, record?_served there⟩, ab.adds elements own⟩
      typeOrigin := by
        rintro t u (known | own)
        · refine (ab.explains.typeOrigin known).imp_right (Or.imp_right ?_)
          exact fun ⟨e, there, done, adds⟩ => ⟨e, there, complete done, adds⟩
        · exact .inr (.inr ⟨x, entered, isComplete_iff_record.mpr ⟨q, record?_served there⟩, ab.adds_type types own⟩)
      object := fun t usage => by
        obtain ⟨u, usage', same⟩ := ab.explains.object t usage
        exact ⟨u, usage', .inl same⟩
      spare := by
        rintro unused t u usage (known | own)
        · exact ab.explains.spare unused usage known
        · exact (ab.freshType own).1 (R.usage_before entered usage) }

end settling

section step

variable {π : Renaming} {h : TypeHeader}

theorem record?_of_pending (found : s.slot? e = some slot) (waits : slot.isPending) : s.record? e = none := by
  rw [Option.eq_none_iff_forall_ne_some]
  intro q complete
  obtain ⟨slot', found', state⟩ := record?_eq_some_iff.mp complete
  cases found.symm.trans found'
  simp [Slot.isPending, state] at waits

theorem Underlies.pending (under : s₀.Underlies s) (found : s.slot? x = some slot) (waits : slot.isPending)
    (entered : s₀.HasElement x) : s₀.slot? x = some slot := by
  obtain ⟨slot₀, found₀⟩ := has_element_iff.mp entered
  obtain ⟨state, found', same⟩ := under.slots x slot₀ found₀
  cases found.symm.trans found'
  cases state with
  | pending work => rw [found₀, ← same work rfl]
  | completing => cases waits
  | complete q => cases waits

theorem Reference.Explains.begin (ex : R.Explains π s) (found : s.slot? x = some slot) (waits : slot.isPending)
    (entered : s₀.HasElement x) (opens : ∀ f, s₀.HasElement f → s.Open f → s₀.rank x < s₀.rank f) :
    R.Abreast x (Outset.pairing ⟨s, π⟩) (s.setState x .completing) ((R.before x).setState x .completing) := by
  have found₀ := ex.under.pending found waits entered
  have turn := (R.turn x entered).underlies
  have busy : (s.setState x .completing).Open x := ⟨_, slot?_setState _ found, rfl⟩
  have unfinished : (s.setState x .completing).record? x = s.record? x := by
    rw [record?_of_pending found waits, Option.eq_none_iff_forall_ne_some]
    exact fun q complete => not_open_of_record complete busy
  exact
    { explains := by
        refine ex.restate (ex.under.begin x) (fun a _ _ => ?_) (fun _ _ _ => rfl) rfl
        by_cases here : a = x
        · rw [here, unfinished]
        · exact record?_congr (slot?_setState_ne _ here)
      busy
      opens := fun e there isOpen => by
        refine or_iff_not_imp_left.mpr fun other => opens e there ?_
        obtain ⟨slot, found, state⟩ := isOpen
        exact ⟨slot, (slot?_setState_ne _ other).symm.trans found, state⟩
      within :=
        { slot := ⟨slot, found₀, waits, slot?_setState _ (R.waited x slot entered found₀)⟩
          spares := spares_setState _ fun apart => apart rfl
          shapes := fun _ _ => id
          typeElements := turn.typeElements
          usage := R.usage x entered }
      leads :=
        { elements := fun there => by simpa [HasElement, Store.setState] using there
          types := id
          element := fun same => .inl (same.resolve_right id)
          type := fun same => .inl (same.resolve_right id) }
      once := ⟨nofun, nofun⟩
      element := nofun
      fresh := nofun
      type := nofun
      freshType := nofun
      binds := nofun }

theorem Reference.Abreast.learns (poised : s₀.Poised) {w : Pairing ⟨s, π⟩} {s' : Store}
    (le : Outset.pairing ⟨s, π⟩ ≤ w) (ab : R.Abreast x w s' r)
    (closed : ∀ e, r.Open e → e = x) (ends : R.after x = served r x (R.record x))
    (like : (R.near x w).Record q (R.record x)) :
    ∃ π', R.Learns π s π' (served s' x q) ∧ π'.Outline q (R.record x) := by
  refine ⟨w.settle,
    ⟨⟨fun same => .inl (le.1.1 same), fun same => .inl (le.1.2 same)⟩, ab.settles poised closed ends like, ?_, ?_⟩,
    (like.mono (near_le_settle w)).outline (.inl (ab.explains.initial _ poised.sound.has_none))⟩
  · exact ab.leads.element
  · exact ab.leads.type

theorem Reference.closed_before (R : Reference s₀ s₀.HasElement) (entered : s₀.HasElement x) {r' : Store}
    (keeps : ((R.before x).setState x .completing).Keeps r') : ∀ e, r'.Open e → e = x := by
  intro e isOpen
  by_contra other
  obtain ⟨slot, found, state⟩ := ((keeps.opens e).mp isOpen).resolve_right id
  exact (R.turn x entered).closed e ⟨slot, (slot?_setState_ne _ other).symm.trans found, state⟩

theorem Reference.Explains.serves_container (poised : s₀.Poised) (ex : R.Explains π s) (entered : s₀.HasElement x)
    (opens : ∀ f, s₀.HasElement f → s.Open f → s₀.rank x < s₀.rank f) (found : s.slot? x = some slot)
    (state : slot.state = .pending .container) :
    ∃ π', R.Learns π s π' (step again x s).2 ∧ π'.Outline (step again x s).1 (R.record x) := by
  have waits : slot.isPending := by simp [Slot.isPending, state]
  have found₀ := ex.under.pending found waits entered
  have ab := ex.begin found waits entered opens
  have turn : step recollect x (R.before x) = _ := step_of_container (R.waited x slot entered found₀) state
  have record : R.record x = containerRecord x slot := congrArg Prod.fst turn
  have there {e : ElementId} (entered : s₀.HasElement e) := ab.near_entered entered
  rw [step_of_container found state]
  refine ab.learns poised (Pairing.le_refl _) (R.closed_before entered (.refl _)) ?_ ?_
  · rw [record]
    exact congrArg Prod.snd turn
  · rw [record]
    exact
      { id := there entered, kind := rfl, simpleName := rfl, qualifiedName := rfl
        enclosing := by
          cases around : slot.enclosing with
          | none =>
            rw [containerRecord, around]
            exact .none
          | some o =>
            rw [containerRecord, around]
            exact .some (there (poised.around x slot o found₀ around))
        enclosed := List.forall₂_same.mpr fun c mem => by
          obtain ⟨_, kind, _⟩ := (poised.sound.slots x slot found₀).children c mem
          obtain ⟨slot', found', _⟩ := kind?_eq_some_iff.mp kind
          exact there (has_element_iff.mpr ⟨slot', found'⟩)
        modifiers := rfl, nesting := rfl
        asType := by
          unfold containerRecord
          dsimp only
          split <;> exact ab.near_initial (poised.sound.has_initial (by decide))
        annotations := .nil, erroneous := rfl, detail := .plain }

theorem Reference.Explains.serves_type (poised : s₀.Poised) (untangled : s₀.Untangled)
    (serves : R.Serves again (s₀.rank x)) (ex : R.Explains π s) (entered : s₀.HasElement x)
    (opens : ∀ f, s₀.HasElement f → s.Open f → s₀.rank x < s₀.rank f) (found : s.slot? x = some slot)
    (state : slot.state = .pending (.type h)) :
    ∃ π', R.Learns π s π' (step again x s).2 ∧ π'.Outline (step again x s).1 (R.record x) := by
  have waits : slot.isPending := by simp [Slot.isPending, state]
  have found₀ := ex.under.pending found waits entered
  have turn : step recollect x (R.before x) = _ := step_of_type (R.waited x slot entered found₀) state rfl
  have record : R.record x = _ := congrArg Prod.fst turn
  obtain ⟨v, le, ab, like⟩ := (ex.begin found waits entered opens).completeType poised untangled serves found₀ state
  rw [step_of_type found state rfl]
  refine ab.learns poised le (R.closed_before entered (keeping_completeType recollect_keeps x slot h _)) ?_ ?_
  · rw [record]
    exact congrArg Prod.snd turn
  · rw [record]
    exact like

theorem Reference.Explains.serves_step (poised : s₀.Poised) (untangled : s₀.Untangled)
    (serves : R.Serves again (s₀.rank x)) (ex : R.Explains π s) (entered : s₀.HasElement x)
    (opens : ∀ f, s₀.HasElement f → s.Open f → s₀.rank x < s₀.rank f) :
    ∃ π', R.Learns π s π' (step again x s).2 ∧ π'.Outline (step again x s).1 (R.record x) := by
  obtain ⟨slot, found⟩ := has_element_iff.mp (ex.under.there entered)
  cases state : slot.state with
  | complete q =>
    rw [step_of_complete found state]
    obtain ⟨q', complete, like, _⟩ := ex.record (ex.entered x entered) (record?_eq_some_iff.mpr ⟨slot, found, state⟩)
    cases (R.complete poised entered).symm.trans complete
    exact ⟨π, ex.learns, like⟩
  | completing => exact absurd (opens x entered ⟨slot, found, state⟩) (Nat.lt_irrefl _)
  | pending work =>
    cases work with
    | container => exact ex.serves_container poised entered opens found state
    | type h => exact ex.serves_type poised untangled serves entered opens found state

end step

section nested

theorem step_idle (again : Again) (found : s.slot? e = some slot) (settled : ¬ slot.isPending) :
    step again e s = recollect e s := by
  cases state : slot.state with
  | complete q => rw [step_of_complete found state, recollect_of_complete (record?_eq_some_iff.mpr ⟨slot, found, state⟩)]
  | completing => rw [step_of_completing found state, recollect_of_completing found state]
  | pending work => simp [Slot.isPending, state] at settled

theorem Reference.serves_stepN (R : Reference s₀ s₀.HasElement) (poised : s₀.Poised) (untangled : s₀.Untangled)
    (n : Nat) : R.Serves (stepN n) (n + 1) := by
  induction n with
  | zero =>
    refine
      { idle := step_idle _
        keeps := fun e s => (stepN_settles 0 s e).1
        serves := fun {π _ e} ex entered lower _ => ⟨π, ?_⟩ }
    -- What has no rank waits for nothing.
    have settled : ¬ s₀.isPending e := fun waits => absurd (rank_pos waits) (Nat.not_lt_of_le (Nat.le_of_lt_succ lower))
    obtain ⟨q, complete⟩ := isComplete_iff_record.mp (ex.complete (ex.entered e entered) settled)
    obtain ⟨q', complete', like, _⟩ := ex.record (ex.entered e entered) complete
    cases (R.complete poised entered).symm.trans complete'
    obtain ⟨slot, found, state⟩ := record?_eq_some_iff.mp complete
    rw [stepN, step_of_complete found state]
    exact ⟨ex.learns, like⟩
  | succ n ih =>
    refine
      { idle := step_idle _
        keeps := fun e s => (stepN_settles (n + 1) s e).1
        serves := fun {_ _ e} ex entered lower opens => ?_ }
    have serves : R.Serves (stepN n) (s₀.rank e) :=
      { ih with serves := fun ex entered lower' => ih.serves ex entered (lower'.trans_le (Nat.le_of_lt_succ lower)) }
    exact ex.serves_step poised untangled serves entered opens

theorem Underlies.size_le (under : s₀.Underlies s) : s₀.elements.size ≤ s.elements.size := by
  by_contra fewer
  exact absurd (under.there (e := ⟨s.elements.size⟩) (Nat.lt_of_not_le fewer)) (Nat.lt_irrefl _)

theorem Reference.Explains.complete_entered {π : Renaming} (poised : s₀.Poised) (untangled : s₀.Untangled)
    (ex : R.Explains π s) (entered : s₀.HasElement e) (closed : ∀ f, ¬ s.Open f) :
    ∃ π', R.Explains π' (StoreM.complete e s).2 ∧ (StoreM.complete e s).2.isComplete e := by
  have bound : s₀.rank e < s.elements.size + 1 := Nat.lt_succ_of_le ((rank_le_size entered).trans ex.under.size_le)
  obtain ⟨π', learns, _⟩ := (R.serves_stepN poised untangled s.elements.size).serves ex entered bound
    fun f _ isOpen => absurd isOpen (closed f)
  have published := (StoreM.complete_settles s e).2 (ex.under.there entered) (closed e)
  exact ⟨π', learns.explains, isComplete_iff_record.mpr ⟨_, published⟩⟩

end nested

end Store

end Nominal
