import Nominal.Proofs.Store.Exhausting
import Nominal.Proofs.Store.Scoping
/-!
The main statement about the scopes of type variables, for every store that one comes to by asking. Whatever request has
a type completed, the record says what the header says, and what is entered later into an executable of the type means
the same by the same names.
-/

namespace Nominal

open Completion

namespace Store

variable {s s' : Store} {e m : ElementId} {slot : Slot} {h : TypeHeader} {r : ElementRecord}

section sound

theorem exists_lends {ps : List ElementId} (each : ∀ p ∈ ps, ∃ v, s.LendsOne p v) : ∃ vs, s.Lends ps vs := by
  induction ps with
  | nil => exact ⟨[], .nil⟩
  | cons p ps ih =>
    obtain ⟨v, one⟩ := each p List.mem_cons_self
    obtain ⟨vs, rest⟩ := ih fun p mem => each p (List.mem_cons_of_mem _ mem)
    exact ⟨v :: vs, .cons one rest⟩

/-- Where nothing is half done the type parameters of what is complete are complete. -/
theorem Sound.lent (sound : s.Sound) : s.Lent := by
  intro e r complete _
  obtain ⟨slot, _, fits⟩ := sound.fits complete
  refine exists_lends fun p mem => ?_
  rw [fits.typeParameters] at mem
  obtain ⟨slot', found', _, _, isParameter⟩ := mem_ownedOf.mp mem
  have kind : slot'.kind = .typeParameter := by simpa using isParameter
  obtain ⟨r', complete'⟩ := sound.record_of_owned (kind?_eq_some_iff.mpr ⟨slot', found', kind⟩) rfl
  obtain ⟨_, found'', fits'⟩ := sound.fits complete'
  cases found'.symm.trans found''
  obtain ⟨_, _, upper, shape, _⟩ := fits'.bound kind
  exact ⟨(r'.simpleName, r'.asType), ⟨upper, shape⟩, r', complete', fits'.kind.trans kind, rfl, rfl⟩

theorem Sound.clear (sound : s.Sound) (shows : s.ShowsOnlyEnums) : s.Clear where
  orderly := sound.toConsistent.orderly
  listed name e named := by
    obtain ⟨slot, found, _⟩ := (sound.typeElements name e).mp named
    exact has_element_iff.mpr ⟨slot, found⟩
  initial := sound.initial
  lent := sound.lent
  shows := shows
  housed e slot h o k found state enclosing known := by
    have fits := (sound.slots e slot found).state
    simp only [StateFits, state] at fits
    obtain ⟨o', k', around, _, known', admits⟩ :=
      (sound.slots e slot found).placed (ElementKind.isType_not_container fits.1)
    cases enclosing.symm.trans around
    cases known.symm.trans known'
    have isType := fits.1
    revert isType admits
    generalize slot.kind = k'
    cases k <;> cases k' <;> decide

end sound

def Pursues (s s' : Store) : Prop := s.Keeps s' ∧ (s.Clear → (∀ e, ¬ s.Open e) → s.Course Nothing s')

def Defers (s s' : Store) : Prop := s.SameHeadings s' ∧ s.waiting ⊆ s'.waiting

end Store

open Store

instance : Tame Pursues where
  refl s := ⟨.refl s, fun _ _ => .refl s⟩
  trans first second := by
    refine ⟨Calm.trans first.1 second.1, fun clear closed => ?_⟩
    have course := first.2 clear closed
    refine course.trans (second.2 (course.clear clear) fun e isOpen => ?_)
    exact ((first.1.opens e).mp isOpen).elim (closed e) id
  aside elements types completions indexes reuses :=
    ⟨Mild.aside elements types completions indexes reuses, fun _ _ => Mild.aside elements types completions indexes reuses⟩
  pushType s shape := ⟨Mild.pushType s shape, fun _ _ => Mild.pushType s shape⟩
  complete e s := ⟨(StoreM.complete_settles s e).1, fun clear closed =>
    complete_goes _ s e clear (Nat.le_refl _) (.inr (.inr fun a isOpen => absurd isOpen (closed a)))⟩

instance : Hosting Defers where
  refl s := ⟨fun _ slot found => ⟨slot, found, rfl⟩, Finset.Subset.refl _⟩
  trans first second := ⟨first.1.trans second.1, first.2.trans second.2⟩
  internName _ _ := ⟨(follows_aside rfl).headings, (waiting_congr rfl).superset⟩
  headings := And.left
  listed elements _ _ _ := ⟨(follows_aside elements).headings, (waiting_congr elements).superset⟩
  pushPending {s slot work} state tidy fits placed := by
    refine ⟨(follows_pushSlot fits fun _ => placed).headings, fun e mem => ?_⟩
    obtain ⟨old, found, pending⟩ := (Option.any_eq_true _ _).mp (mem_waiting.mp mem)
    have there : s.HasElement e := has_element_iff.mpr ⟨old, found⟩
    rw [mem_waiting, isPending_of_slot (spares_pushSlot (p := s.HasElement) slot e old there found), pending]
  addChild s parent child := by
    refine ⟨(follows_addChild parent child).headings, fun e mem => ?_⟩
    obtain ⟨slot, found, pending⟩ := (Option.any_eq_true _ _).mp (mem_waiting.mp mem)
    rw [mem_waiting, isPending]
    change ((s.updateSlot parent (Slot.addChild child)).slot? e).any (·.isPending) = true
    rw [slot?_update, found]
    split
    · rw [Option.map_some, Option.any_some, Slot.isPending]
      rcases addChild_state child slot with same | ⟨_, again⟩
      · rwa [same]
      · rw [again]
    · exact pending

instance : Receptive Conserves where
  refl s := .refl s
  trans := .trans
  aside elements types completions indexes reuses :=
    KeepsBut.conserves (Mild.aside (R := Keeps) elements types completions indexes reuses) (follows_aside elements)
  pushType s shape := KeepsBut.conserves (Mild.pushType (R := Keeps) s shape) (follows_aside rfl)
  pushSettled state plain simple fits :=
    KeepsBut.conserves (Gentle.pushSettled (R := Keeps) state plain simple fits)
      (Gentle.pushSettled (R := Follows) state plain simple fits)
  complete e s := KeepsBut.conserves (Attentive.complete (R := Keeps) e s) (Attentive.complete (R := Follows) e s)
  headings move := move.headings
  listed elements types completions usage :=
    KeepsBut.conserves (Hosting.listed (R := Keeps) elements types completions usage) (follows_aside elements)
  pushPending state tidy fits placed :=
    KeepsBut.conserves (Hosting.pushPending (R := Keeps) state tidy fits placed)
      (Hosting.pushPending (R := Follows) state tidy fits placed)
  addChild s parent child :=
    KeepsBut.conserves (Hosting.addChild (R := Keeps) s parent child) (Hosting.addChild (R := Follows) s parent child)

section locals

variable {s : Store} {m : ElementId}

theorem scopeWithin_reads (clear : s.Clear) (closed : ∀ e, ¬ s.Open e) {r : ElementRecord} (complete : s.record? m = some r)
    (executable : r.kind.isExecutable) : Ensures (Course Nothing) s (StoreM.scopeWithin m) fun sc s' =>
      ∀ x, s'.Binds m x (inSight? sc.visible x) := by
  obtain ⟨slot, found, _⟩ := record?_eq_some_iff.mp complete
  have generic : s.IsGeneric m :=
    ⟨r.kind, clear.orderly.kind_of_record complete, by rw [ElementKind.isParameterizable, executable, Bool.or_true]⟩
  have seen := visibleVariables_seen (complete_goes _) clear (Nat.le_refl _) (fun a isOpen => absurd isOpen (closed a))
    (has_element_iff.mpr ⟨slot, found⟩)
  refine .get (seen.bind fun vs s' course seen => .pure (.refl s') ?_)
  exact seen.binds (generic.follow course.conserves.toFollows)

theorem Ensures.conserving {α : Type} {c : StoreM α} {P : α → Store → Prop} (h : Ensures (Course Nothing) s c P) :
    Ensures Conserves s c fun a s' => P a s' ∧ s.Course Nothing s' :=
  ⟨h.1.conserves, h.2, h.1⟩

/-- What is local to an executable is entered unless this is refused, and its type is what is written, where names mean
what they mean in the executable. -/
theorem enterLocal_reads (clear : s.Clear) (closed : ∀ e, ¬ s.Open e) (there : s.HasElement m) (kind : ElementKind)
    (name : String) (t : TypeExpr) : Ensures Conserves s (StoreM.enterLocal m kind name t).run fun
      | .error _, s' => s.Course Nothing s' ∧ (kind.isLocal → ∀ r, s.record? m = some r → ¬ r.kind.isExecutable)
      | .ok id, s' => (∃ s₁, s.Course Nothing s₁ ∧ s' = s₁.addChild m id) ∧
          ∃ r, s'.record? id = some r ∧ r.kind = kind ∧ s'.Reads (s'.Binds m) t r.asType := by
  unfold StoreM.enterLocal
  refine .except_guard (.refl s) (fun other => ⟨.refl s, fun isLocal => ?_⟩) fun isLocal => ?_
  · simp [isLocal] at other
  have asked := complete_seen (complete_goes _) clear (Nat.le_refl _) (fun a isOpen => absurd isOpen (closed a)) there
  refine (Ensures.conserving asked).except_step ?_
  rintro r s₁ _ ⟨⟨complete, keeps⟩, course₁⟩
  have closed₁ (e : ElementId) : ¬ s₁.Open e := fun isOpen => ((keeps.opens e).mp isOpen).elim (closed e) id
  have clear₁ := course₁.clear clear
  refine .except_guard (.refl s₁) (fun other => ⟨course₁, fun _ r' complete' executable => ?_⟩) fun executable => ?_
  · have generic : r'.kind.isParameterizable := by rw [ElementKind.isParameterizable, executable, Bool.or_true]
    have same := course₁.conserves.record clear.orderly complete' (ElementKind.parameterizable_not_container generic)
    cases complete.symm.trans same
    simp [executable] at other
  have scope := scopeWithin_reads clear₁ closed₁ complete (by simpa using executable)
  refine (Ensures.conserving scope).except_step ?_
  rintro sc s₂ _ ⟨sight, course₂⟩
  refine (Ensures.conserving (resolve_reads t sc s₂)).except_step ?_
  rintro ⟨u, sc'⟩ s₃ _ ⟨⟨reads, _⟩, course₃⟩
  obtain ⟨plain, simple⟩ : ¬ kind.isContainer ∧ ¬ kind.isParameterizable := by
    revert isLocal
    cases kind <;> decide
  let record (id : ElementId) : ElementRecord :=
    { id, kind, simpleName := name, enclosing := some m, asType := u, nesting := .body, erroneous := 0 < sc'.unresolved }
  have added : Ensures (Course Nothing) s₃ (StoreM.newComplete record) fun id s' => s'.record? id = some (record id) :=
    ⟨keeping_newComplete (fun _ => rfl) (fun _ => plain) (fun _ => simple) s₃,
      record?_eq_some_iff.mpr ⟨_, (slot?_push _).trans (if_pos rfl), rfl⟩⟩
  refine (Ensures.conserving added).except_step ?_
  rintro id s₄ _ ⟨new, course₄⟩
  have child : s₄.Conserves (s₄.addChild m id) := Hosting.addChild s₄ m id
  have from₂ := course₃.trans course₄
  have clear₂ := course₂.clear clear₁
  have orderly₄ := from₂.conserves.orderly clear₂.orderly
  refine ⟨child, ⟨s₄, course₁.trans (course₂.trans from₂), rfl⟩, record id, child.record orderly₄ new plain, rfl, ?_⟩
  refine Reads.mono ?_ (course₄.conserves.trans child).shapes t reads
  rintro x _ rfl
  exact (sight x).conserve (from₂.conserves.trans child) clear₂.orderly

end locals

namespace Store

/-- What was declared of the element, if that still waits. -/
def header? (s : Store) (e : ElementId) : Option TypeHeader := (s.slot? e).bind fun slot =>
  match slot.state with
  | .pending (.type h) => some h
  | _ => none

def IsExecutableOf (s : Store) (e m : ElementId) : Prop :=
  ∃ q, s.record? m = some q ∧ q.kind.isExecutable ∧ q.enclosing = some e

/-- Names of type variables mean what the declarations around them say, in all that was declared of a type as well as in
what is entered into its executables. -/
structure LexicallyScoped (s : Store) (e : ElementId) (h : TypeHeader) (r : ElementRecord) : Prop where
  reads : s.ReadsHeader s.Binds e h r
  names : ∀ m, m = e ∨ s.IsExecutableOf e m → ∀ x, (∃! b, s.Binds m x b) ∧ ∀ t, s.Binds m x (some t) → ∃ p, s.IsVariable p t
  locals : s.ShowsOnlyEnums → ∀ m, s.IsExecutableOf e m → ∀ kind, kind.isLocal → ∀ name t, ∃ id s' q,
    (StoreM.enterLocal m kind name t).run s = (.ok id, s') ∧ s'.record? id = some q ∧ q.kind = kind ∧
      s'.Reads (s.Binds m) t q.asType

section requests

variable {s s' : Store} {e : ElementId} {slot : Slot} {h : TypeHeader} {r : ElementRecord}

theorem header?_eq_some_iff : s.header? e = some h ↔ ∃ slot, s.slot? e = some slot ∧ slot.state = .pending (.type h) := by
  rw [header?, Option.bind_eq_some_iff]
  refine exists_congr fun slot => and_congr_right fun _ => ?_
  split <;> rename_i state
  · rw [state]
    exact ⟨fun same => by cases same; rfl, fun same => by cases same; rfl⟩
  · exact ⟨nofun, fun same => absurd same (state h)⟩

theorem Course.understood {mine : ElementId → Prop} {s₁ : Store} (course : s.Course mine s₁) (orderly : s.Orderly)
    (found : s.slot? e = some slot) (state : slot.state = .pending (.type h)) (move : s₁.Conserves s') (defers : s₁.Defers s')
    (complete : s'.record? e = some r) : s'.Understood e h r := by
  rcases course.understands orderly e slot h found state with waits | ⟨r', understood⟩
  · have pending : s'.isPending e := by
      refine mem_waiting.mp (defers.2 (mem_waiting.mpr ?_))
      rw [isPending_of_slot waits, Slot.isPending, state]
    obtain ⟨slot', found', done⟩ := record?_eq_some_iff.mp complete
    simp [isPending_of_slot found', Slot.isPending, done] at pending
  · have later := understood.conserve move (course.conserves.orderly orderly)
    cases complete.symm.trans later.complete
    exact later

theorem request_course (sound : s.Sound) (shows : s.ShowsOnlyEnums) (q : Request) (inRange : q.InRange s) :
    ∃ s₁, s.Course Nothing s₁ ∧ s₁.Conserves (q.run s).2 ∧ s₁.Defers (q.run s).2 := by
  have clear := sound.clear shows
  have enters (defers : s.Defers (q.run s).2) : ∃ s₁, s.Course Nothing s₁ ∧ s₁.Conserves (q.run s).2 ∧ s₁.Defers (q.run s).2 :=
    ⟨s, .refl s, q.keeping_run s, defers⟩
  by_cases asks : q.asks
  · have pursues : s.Pursues (q.run s).2 := q.keeping_run_asks asks s
    exact ⟨_, pursues.2 clear sound.settled, .refl _, Calm.refl _⟩
  cases q with
  | enterModule name => exact enters (keeping_discard (StoreM.keeping_enterModule name) s)
  | enterPackage module name => exact enters (keeping_discard (StoreM.keeping_enterPackage module name) s)
  | enterType package d => exact enters (keeping_discard (keeping_checked_run (StoreM.keeping_enterType package d)) s)
  | enterDeclarations p => exact enters (keeping_discard (StoreM.keeping_enterDeclarations p) s)
  | enterLocal owner kind name t =>
    have there : s.HasElement owner := inRange.elements owner (by simp [Request.elements])
    have entered := (enterLocal_reads clear sound.settled there kind name t).2
    change ∃ s₁, s.Course Nothing s₁ ∧ s₁.Conserves ((StoreM.enterLocal owner kind name t).run s).2 ∧
      s₁.Defers ((StoreM.enterLocal owner kind name t).run s).2
    cases result : ((StoreM.enterLocal owner kind name t).run s).1 with
    | error f =>
      rw [result] at entered
      exact ⟨_, entered.1, .refl _, Calm.refl _⟩
    | ok id =>
      rw [result] at entered
      obtain ⟨s₁, course, same⟩ := entered.1
      rw [same]
      exact ⟨s₁, course, Hosting.addChild s₁ owner id, Hosting.addChild s₁ owner id⟩
  | _ => exact absurd rfl asks

/-- Whatever request has a declaration completed, the declaration is understood. -/
theorem understood_of_request (sound : s.Sound) (shows : s.ShowsOnlyEnums) (q : Request) (inRange : q.InRange s)
    (waits : s.header? e = some h) (complete : (q.run s).2.record? e = some r) : (q.run s).2.Understood e h r := by
  obtain ⟨slot, found, state⟩ := header?_eq_some_iff.mp waits
  obtain ⟨s₁, course, move, defers⟩ := request_course sound shows q inRange
  exact course.understood sound.toConsistent.orderly found state move defers complete

theorem LeadsTo.conserves (leads : s.LeadsTo s') : s.Conserves s' := by
  induction leads with
  | rest => exact .refl s
  | @ask s' r _ _ ih => exact ih.trans (r.keeping_run s')

/-- Inside the executables of a type that is understood every name has a meaning as well. -/
theorem Understood.means_inside {m : ElementId} (understood : s.Understood e h r) (orderly : s.Orderly) (lent : s.Lent)
    (inside : s.IsExecutableOf e m) (x : String) : ∃ b, s.Binds m x b := by
  obtain ⟨q, complete, executable, enclosing⟩ := inside
  have generic : q.kind.isParameterizable := by rw [ElementKind.isParameterizable, executable, Bool.or_true]
  obtain ⟨vs, lends⟩ := lent m q complete generic
  have sees : s.SeesAround q e :=
    ⟨enclosing, ⟨r.kind, orderly.kind_of_record understood.complete, understood.generic⟩, .inl executable⟩
  cases own : inSight? vs.reverse x with
  | some t => exact ⟨some t, .own complete generic lends own⟩
  | none =>
    obtain ⟨b, binds⟩ := understood.means x
    exact ⟨b, .around complete generic lends own sees binds⟩

/-- Type variables are scoped lexically, in every declaration that is completed where annotations show constants of
enumerations only. -/
theorem lexicallyScoped_of_reachable (reachable : s.Reachable) (shows : s.ShowsOnlyEnums) (q : Request) (inRange : q.InRange s)
    (waits : s.header? e = some h) (complete : (q.run s).2.record? e = some r) (leads : (q.run s).2.LeadsTo s') :
    s'.LexicallyScoped e h r := by
  have answered : (q.run s).2.Reachable := LeadsTo.ask q reachable inRange
  have sound' : s'.Sound := Reachable.sound (answered.trans leads)
  have orderly' := sound'.toConsistent.orderly
  have understood : s'.Understood e h r :=
    (understood_of_request reachable.sound shows q inRange waits complete).conserve leads.conserves
      answered.sound.toConsistent.orderly
  refine ⟨understood.reads, fun m place x => ?_, fun shows' m inside kind isLocal name t => ?_⟩
  · obtain ⟨b, binds⟩ : ∃ b, s'.Binds m x b := by
      rcases place with rfl | inside
      · exact understood.means x
      · exact understood.means_inside orderly' sound'.lent inside x
    exact ⟨⟨b, binds, fun b' binds' => binds'.unique binds⟩, fun t binds => binds.isVariable⟩
  · have ⟨q, known, executable, _⟩ := inside
    obtain ⟨slot, found, _⟩ := record?_eq_some_iff.mp known
    obtain ⟨move, entered⟩ :=
      enterLocal_reads (sound'.clear shows') sound'.settled (has_element_iff.mpr ⟨slot, found⟩) kind name t
    cases result : ((StoreM.enterLocal m kind name t).run s').1 with
    | error f =>
      rw [result] at entered
      exact absurd executable (entered.2 isLocal q known)
    | ok id =>
      rw [result] at entered
      obtain ⟨_, record, complete, same, reads⟩ := entered
      refine ⟨id, _, record, leaves result, complete, same, Reads.mono (fun x b binds => ?_) (fun _ _ kept _ => kept) t reads⟩
      obtain ⟨b', binds'⟩ := understood.means_inside orderly' sound'.lent inside x
      exact (binds'.conserve move orderly').unique binds ▸ binds'

theorem showsOnlyEnums_iff : s.ShowsOnlyEnums ↔ ∀ e ∈ s.ids, ∀ slot ∈ s.slot? e, ∀ h ∈ s.header? e, ∀ t ∈ h.shown,
    ∀ a ∈ (s.scopeOf e slot).element? s t, s.kind? a = some .enumType := by
  constructor
  · intro shows e _ slot found h waits t mem a named
    obtain ⟨slot', found', state⟩ := header?_eq_some_iff.mp waits
    cases found'.symm.trans found
    exact shows e slot h found state t mem a named
  · intro shows e slot h found state t mem a named
    exact shows e (mem_ids.mpr (has_element_iff.mpr ⟨slot, found⟩)) slot found h
      (header?_eq_some_iff.mpr ⟨slot, found, state⟩) t mem a named

instance : Decidable s.ShowsOnlyEnums := decidable_of_iff' _ showsOnlyEnums_iff

end requests

section nested

def nestedHeader : TypeHeader :=
  { kind := .classType, name := "Inner", typeParameters := [{ name := "U", bounds := [.var "T"] }]
    members :=
      [.field "content" (.var "T") [],
        .method { name := "swap", typeParameters := [{ name := "T", bounds := [.var "U"] }], returnType := .var "U"
                  parameters := [("near", .var "T"), ("far", .var "W")] }] }

def nestedProgram : PackageDecl :=
  { package := commonPackage
    types :=
      [.mk { kind := .classType, name := "Object" } [],
        .mk { kind := .classType, name := "Outer", typeParameters := [{ name := "T" }] } [.mk nestedHeader []]] }

@[irreducible] def nestedSample : Store := (Request.run (.enterDeclarations nestedProgram) .empty).2

theorem reachable_nestedSample : nestedSample.Reachable := by
  unfold nestedSample
  exact .ask (.enterDeclarations nestedProgram) .rest ⟨nofun, nofun⟩

theorem nestedSample_lexicallyScoped : nestedSample.Reachable ∧ nestedSample.ShowsOnlyEnums ∧
    nestedSample.header? ⟨3⟩ = some nestedHeader ∧ ∃ r, ((Request.complete ⟨3⟩).run nestedSample).2.record? ⟨3⟩ = some r ∧
      ((Request.complete ⟨3⟩).run nestedSample).2.LexicallyScoped ⟨3⟩ nestedHeader r := by
  have shows : nestedSample.ShowsOnlyEnums := by decide +kernel
  have waits : nestedSample.header? ⟨3⟩ = some nestedHeader := by with_unfolding_all rfl
  have there : nestedSample.HasElement ⟨3⟩ := show 3 < nestedSample.elements.size by decide +kernel
  have inRange : (Request.complete ⟨3⟩).InRange nestedSample := ⟨by simpa [Request.elements] using there, nofun⟩
  have completes : (((Request.complete ⟨3⟩).run nestedSample).2.record? ⟨3⟩).isSome := by decide +kernel
  obtain ⟨r, complete⟩ := Option.isSome_iff_exists.mp completes
  exact ⟨reachable_nestedSample, shows, waits, r, complete,
    lexicallyScoped_of_reachable reachable_nestedSample shows _ inRange waits complete .rest⟩

end nested

end Store

end Nominal
