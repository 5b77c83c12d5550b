import Nominal.Proofs.Store.Arranged
/-!
Completion puts what a type declares inside it, and nothing inside anything else that does not wait for it. Once a
type is complete its record lists what lies inside it, and no later completion puts anything there.
-/

namespace Nominal

open Store

namespace Store

/-- On the way from `s` to `s'` everything stayed where it is, and nothing was put into modules or packages, into what
did not wait or into what still waits, except for the elements of `mine`. -/
structure Lodged (mine : ElementId → Prop) (s s' : Store) : Prop where
  arranged : s'.Arranged
  slots : ∀ e slot, s.slot? e = some slot → ∃ state, s'.slot? e = some { slot with state } ∧
    (∀ work, state = .pending work → slot.state = .pending work) ∧
    (slot.kind.isType → slot.state = .completing → state = .completing)
  inside : ∀ e slot, s.slot? e = some slot → slot.kind.isContainer ∨ ¬ slot.isPending ∨ s'.isPending e → ¬ mine e →
    s'.inside e = s.inside e

def Lodges (mine : ElementId → Prop) (s s' : Store) : Prop := s.Arranged → s.Lodged mine s'

variable {mine : ElementId → Prop} {s s' s'' : Store} {e o : ElementId} {slot : Slot} {k : ElementKind}

theorem Slot.isPending_iff : slot.isPending ↔ ∃ work, slot.state = .pending work := by
  rw [Slot.isPending]
  cases slot.state <;> simp

theorem Arranged.lodged (h : s.Arranged) : s.Lodged mine s :=
  ⟨h, fun _ slot found => ⟨slot.state, found, fun _ => id, fun _ => id⟩, fun _ _ _ _ _ => rfl⟩

namespace Lodged

theorem headings (l : s.Lodged mine s') : s.SameHeadings s' := by
  intro e slot found
  obtain ⟨_, found', _⟩ := l.slots e slot found
  exact ⟨_, found', rfl⟩

theorem waits (l : s.Lodged mine s') (found : s.slot? e = some slot) (waits : s'.isPending e) : slot.isPending := by
  obtain ⟨state, found', waited, _⟩ := l.slots e slot found
  rw [isPending_of_slot found', Slot.isPending_iff] at waits
  obtain ⟨work, same⟩ := waits
  exact Slot.isPending_iff.mpr ⟨work, waited work same⟩

theorem trans {more : ElementId → Prop} (first : s.Lodged mine s') (second : s'.Lodged more s'')
    (within : ∀ e, s.HasElement e → more e → mine e) : s.Lodged mine s'' where
  arranged := second.arranged
  slots e slot found := by
    obtain ⟨state, found', waited, opened⟩ := first.slots e slot found
    obtain ⟨state', found'', waited', opened'⟩ := second.slots e _ found'
    refine ⟨state', found'', fun work same => waited work (waited' work same), fun isType same => ?_⟩
    exact opened' isType (opened isType same)
  inside e slot found free apart := by
    obtain ⟨state, found', _⟩ := first.slots e slot found
    have still (waits : s''.isPending e) : s'.isPending e := by
      rw [isPending_of_slot found']
      exact second.waits found' waits
    have settled (free : ¬ slot.isPending) : ¬ { slot with state }.isPending := fun waits =>
      free (first.waits found (by rwa [isPending_of_slot found']))
    have there : s.HasElement e := has_element_iff.mpr ⟨slot, found⟩
    rw [second.inside e _ found' (free.imp_right (.imp_left settled)) fun own => apart (within e there own),
      first.inside e slot found (free.imp_right (.imp_right still)) apart]

theorem hosts (l : s.Lodged mine s') (hosts : s.Hosts o k) : s'.Hosts o k := by
  obtain ⟨slot, found, rfl, plain, settled, opened⟩ := hosts
  obtain ⟨state, found', _, same⟩ := l.slots o slot found
  refine ⟨_, found', rfl, plain, fun waits => settled (l.waits found ?_), fun isType => same isType (opened isType)⟩
  rwa [isPending_of_slot found']

theorem inside_host (l : s.Lodged mine s') (hosts : s.Hosts o k) (other : ¬ mine o) : s'.inside o = s.inside o := by
  obtain ⟨slot, found, _, _, settled, _⟩ := hosts
  exact l.inside o slot found (.inr (.inl settled)) other

end Lodged

section steps

theorem Arranged.lodged_aside (h : s.Arranged) (elements : s'.elements = s.elements) (indexes : s'.indexes = s.indexes) :
    s.Lodged mine s' where
  arranged := h.aside elements indexes
  slots e slot found := ⟨slot.state, by rw [slot?, elements]; exact found, fun _ => id, fun _ => id⟩
  inside _ _ _ _ _ := inside_congr elements

theorem Arranged.lodged_push (h : s.Arranged) (hosts : s.Hosts o k) (place : slot.enclosing = some o)
    (settled : ¬ slot.isPending) (plain : ¬ slot.kind.isContainer) (other : ¬ slot.kind.isType)
    (own : mine o ∨ slot.kind = .typeParameter) : s.Lodged mine (s.pushSlot slot) where
  arranged := h.push hosts place settled plain other
  slots e old found := by
    have there : e.index < s.elements.size := has_element_iff.mpr ⟨old, found⟩
    exact ⟨old.state, by rw [slot?_push, if_neg (Nat.ne_of_lt there), found], fun _ => id, fun _ => id⟩
  inside e _ _ _ apart := by
    refine inside_push_other fun place' => own.resolve_left fun own => apart ?_
    cases place.symm.trans place'
    exact own

theorem Arranged.lodged_setState (h : s.Arranged) (found : s.slot? e = some slot) {state : SlotState}
    (begun : ∀ work, state ≠ .pending work) (opened : slot.kind.isType → slot.state = .completing → state = .completing)
    (enclosed : ∀ r, slot.kind.isContainer ∨ slot.kind.isType → state = .complete r → r.enclosed.Perm (s.inside e)) :
    s.Lodged mine (s.setState e state) where
  arranged := by
    refine h.update found (fun _ => rfl) (fun work same => absurd same (begun work)) (fun kind => ?_) enclosed
    refine h.children e slot found (kind.imp_right fun waits => ?_)
    obtain ⟨work, same⟩ := Slot.isPending_iff.mp waits
    exact absurd same (begun work)
  slots e' slot' found' := by
    by_cases here : e' = e
    · subst here
      cases found.symm.trans found'
      exact ⟨state, slot?_update.trans (by rw [if_pos rfl, found]; rfl), fun work same => absurd same (begun work), opened⟩
    · exact ⟨slot'.state, slot?_update.trans (by rw [if_neg here, found']), fun _ => id, fun _ => id⟩
  inside _ _ _ _ _ := inside_update e fun _ => rfl

theorem Lodged.publish (l : s.Lodged (· = e) s') (found : s.slot? e = some slot) (plain : ¬ slot.kind.isContainer)
    (waited : slot.isPending) {r : ElementRecord} (enclosed : r.enclosed.Perm (s'.inside e)) :
    s.Lodged Nothing (s'.setState e (.complete r)) := by
  obtain ⟨state, found', _⟩ := l.slots e slot found
  have updated (e' : ElementId) : (s'.setState e (.complete r)).slot? e' =
      if e' = e then (s'.slot? e').map ({ · with state := .complete r }) else s'.slot? e' := slot?_update
  have done : (s'.setState e (.complete r)).slot? e = some { slot with state := .complete r } := by
    rw [updated, if_pos rfl, found', Option.map_some]
  have settled : ¬ (s'.setState e (.complete r)).isPending e := by
    rw [isPending_of_slot done]
    nofun
  refine ⟨?_, fun e' slot' there => ?_, fun e' slot' there free _ => ?_⟩
  · refine l.arranged.update found' (fun _ => rfl) nofun (fun kind => (kind.elim plain nofun).elim) fun r' _ same => ?_
    cases same
    exact enclosed
  · by_cases here : e' = e
    · subst here
      cases found.symm.trans there
      refine ⟨.complete r, done, nofun, fun _ busy => ?_⟩
      rw [Slot.isPending, busy] at waited
      cases waited
    · obtain ⟨state', there', conditions⟩ := l.slots e' slot' there
      exact ⟨state', by rw [updated, if_neg here, there'], conditions⟩
  · rw [show (s'.setState e (.complete r)).inside e' = s'.inside e' from inside_update e fun _ => rfl]
    by_cases here : e' = e
    · subst here
      cases found.symm.trans there
      exact (free.elim plain fun free => free.elim (· waited) settled).elim
    · refine l.inside e' slot' there (free.imp_right (.imp_right fun waits => ?_)) here
      rw [isPending, updated, if_neg here] at waits
      exact waits

end steps

end Store

instance {mine : ElementId → Prop} : Mild (Lodges mine) where
  refl _ h := h.lodged
  trans first second h := (first h).trans (second (first h).arranged) fun _ _ => id
  aside elements _ _ indexes _ h := h.lodged_aside elements indexes
  pushType _ _ h := h.lodged_aside rfl rfl

section lodging

variable {α β : Type} {o : ElementId} {k : ElementKind} {l : List ElementId}

def Lodging (o : ElementId) (k : ElementKind) (l : List ElementId) (x : ResolveM α) (q : α → List ElementId → Prop) :
    Prop :=
  ∀ sc s, s.Arranged → s.Hosts o k → s.inside o = l →
    s.Lodged (· = o) (x sc s).2 ∧ q (x sc s).1.1 ((x sc s).2.inside o)

namespace Lodging

variable {x : ResolveM α} {q : α → List ElementId → Prop} {r : β → List ElementId → Prop}

theorem returns (a : α) (known : q a l) : Lodging o k l (Pure.pure a) q := by
  rintro sc s h _ rfl
  exact ⟨h.lodged, known⟩

theorem bind {f : α → ResolveM β} (first : Lodging o k l x q) (next : ∀ a l', q a l' → Lodging o k l' (f a) r) :
    Lodging o k l (x >>= f) r := by
  intro sc s h hosts same
  obtain ⟨move, known⟩ := first sc s h hosts same
  obtain ⟨move', known'⟩ := next _ _ known _ _ move.arranged (move.hosts hosts) rfl
  exact ⟨move.trans move' fun _ _ => id, known'⟩

theorem passes (passes : ∀ sc (s : Store), s.Arranged → s.Hosts o k → s.Lodged Nothing (x sc s).2) :
    Lodging o k l x fun _ l' => l' = l := by
  rintro sc s h hosts rfl
  have move := passes sc s h hosts
  exact ⟨h.lodged.trans move fun _ _ => False.elim, move.inside_host hosts id⟩

theorem past {f : α → ResolveM β} (first : Lodging o k l x fun _ l' => l' = l) (next : ∀ a, Lodging o k l (f a) r) :
    Lodging o k l (x >>= f) r :=
  first.bind fun a _ same => same ▸ next a

theorem keeping (keeping : Keeping (Lodges Nothing) x) : Lodging o k l x fun _ l' => l' = l :=
  passes fun sc s h _ => keeping sc s h

theorem scope {f : Scope → ResolveM β} (next : ∀ sc, Lodging o k l (f sc) r) : Lodging o k l (get >>= f) r :=
  fun sc => next sc sc

theorem block (lodging : Lodging o k l x q) : Lodging o k l (ResolveM.block x) q := lodging

theorem ite {y : ResolveM α} {c : Prop} [Decidable c] (yes : Lodging o k l x q) (no : Lodging o k l y q) :
    Lodging o k l (if c then x else y) q := by
  split
  · exact yes
  · exact no

theorem mapM_from {f : α → ResolveM β} (I : List β → List ElementId → Prop)
    (each : ∀ a done l, I done l → Lodging o k l (f a) fun b => I (done ++ [b])) (as : List α) {done : List β}
    (start : I done l) : Lodging o k l (as.mapM f) fun bs => I (done ++ bs) := by
  induction as generalizing done l with
  | nil => exact .returns [] (by rwa [List.append_nil])
  | cons a as ih =>
    rw [List.mapM_cons]
    refine (each a done l start).bind fun b l' known => (ih known).bind fun bs l'' known' => .returns (b :: bs) ?_
    simpa using known'

theorem mapM {f : α → ResolveM β} (I : List β → List ElementId → Prop)
    (each : ∀ a done l, I done l → Lodging o k l (f a) fun b => I (done ++ [b])) (as : List α) (start : I [] l) :
    Lodging o k l (as.mapM f) I :=
  mapM_from I each as start

end Lodging

end lodging

def Given.lodged (e : ElementId) (k : ElementKind) : Given (Lodges Nothing) where
  holds s := s.Arranged ∧ s.kind? e = some k
  lasts move holds := by
    obtain ⟨slot, found, rfl⟩ := kind?_eq_some_iff.mp holds.2
    obtain ⟨_, found', _⟩ := (move holds.1).slots e slot found
    exact ⟨(move holds.1).arranged, kind?_eq_some_iff.mpr ⟨_, found', rfl⟩⟩

namespace Completion

open ResolveM StoreM

variable {o : ElementId} {k : ElementKind} {l : List ElementId} {again : Again} {s : Store}

theorem publish_lodges {r : ElementRecord} (plain : ¬ k.isContainer) (other : ¬ k.isType) (h : s.Arranged)
    (known : s.kind? r.id = some k) : s.Lodged Nothing (StoreM.publish r s).2 := by
  obtain ⟨slot, found, rfl⟩ := kind?_eq_some_iff.mp known
  exact h.lodged_setState found nofun (fun isType => absurd isType other) fun _ kind => (kind.elim plain other).elim

section parameters

theorem lodges_completeTypeParameter (owner : ElementId) (p : TypeParameterDecl) (e : ElementId) (t : TypeId) :
    CoincideIn (.lodged e .typeParameter) (completeTypeParameter owner p e t) (completeTypeParameter owner p e t) := by
  refine CoincideIn.bind (.keeping (ResolveM.keeping_resolveAll p.bounds)) fun bounds => ?_
  have publishes (r : ElementRecord) (same : r.id = e) :
      CoincideIn (.lodged e .typeParameter) (liftM (StoreM.publish r)) (liftM (StoreM.publish r)) := by
    subst same
    exact .lift (.same fun s holds _ => publish_lodges (by decide) (by decide) holds.1 holds.2)
  have settles (upper : TypeId) : Keeping (Lodges Nothing) (StoreM.setShape t (.typeVariable e upper)) :=
    fun s h => h.lodged_aside rfl rfl
  rcases bounds with _ | ⟨b, _ | ⟨b', rest⟩⟩
  all_goals
    refine CoincideIn.bind (.keeping (by grind)) fun upper => ?_
    exact CoincideIn.bind (.keeping (keeping_lift (settles upper))) fun _ => publishes _ rfl

theorem lodges_completeAll (owner : ElementId) {pairs : List (TypeParameterDecl × ElementId × TypeId)}
    (h : s.Arranged) (parameters : ∀ x ∈ pairs, s.kind? x.2.1 = some .typeParameter) (sc : Scope) :
    s.Lodged Nothing (pairs.forM (fun (p, e, t) => completeTypeParameter owner p e t) sc s).2 := by
  induction pairs generalizing s sc with
  | nil => exact h.lodged
  | cons x pairs ih =>
    obtain ⟨p, e, t⟩ := x
    have first := (lodges_completeTypeParameter owner p e t sc s ⟨h, parameters _ List.mem_cons_self⟩).2 h
    have rest := ih first.arranged
      (fun x mem => SameHeadings.kind first.headings (parameters x (List.mem_cons_of_mem _ mem))) (completeTypeParameter owner p e t sc s).1.2
    exact first.trans rest fun _ _ => id

theorem lodges_reserveAll (owner : ElementId) (ps : List TypeParameterDecl) (h : s.Arranged) (hosts : s.Hosts owner k)
    (sc : Scope) : s.Lodged Nothing (ps.mapM (reserveTypeParameter owner) sc s).2 := by
  induction ps generalizing s sc with
  | nil => exact h.lodged
  | cons p ps ih =>
    rw [List.mapM_cons]
    have pushed : s.Lodged Nothing (s.pushSlot (parameterHeading owner p)) :=
      h.lodged_push hosts rfl nofun nofun nofun (.inr rfl)
    have first : s.Lodged Nothing (reserveTypeParameter owner p sc s).2 :=
      pushed.trans (pushed.arranged.lodged_aside rfl rfl) fun _ _ => id
    exact first.trans (ih first.arranged (first.hosts hosts) _) fun _ _ => id

theorem lodging_enterTypeParameters (owner : ElementId) (ps : List TypeParameterDecl) :
    Lodging owner k l (enterTypeParameters owner ps) fun _ l' => l' = l := by
  refine .passes fun sc s h hosts => ?_
  have reserved := lodges_reserveAll owner ps h hosts sc
  obtain ⟨_, entered⟩ := reserveAll_accounts owner ps sc s
  refine reserved.trans (lodges_completeAll owner reserved.arranged (fun x mem => ?_) _) fun _ _ => id
  obtain ⟨slot, found, same, _⟩ := List.forall₂_zip entered mem
  exact kind?_eq_some_iff.mpr ⟨slot, found, (congrArg Slot.kind same :)⟩

end parameters

section members

theorem lodging_newVariable (kind : ElementKind) (plain : ¬ kind.isContainer) (other : ¬ kind.isType)
    (inner : kind ≠ .typeParameter) (name : String) (t : TypeId) (nesting : Nesting) (modifiers : List Modifier) :
    Lodging o k l (newVariable o kind name t nesting modifiers) fun e l' => l' = l ++ [e] := by
  rintro sc s h hosts rfl
  exact ⟨h.lodged_push hosts rfl nofun plain other (.inl rfl), inside_push rfl inner⟩

theorem lodging_enterParameter (name : String) (t : TypeExpr) :
    Lodging o k l (enterParameter o name t) fun _ _ => True := by
  refine .past (.keeping (ResolveM.keeping_resolve t)) fun t => ?_
  refine Lodging.bind (lodging_newVariable .parameter (by decide) (by decide) (by decide) name t _ _) fun e _ _ => ?_
  exact .returns _ trivial

theorem lodging_newSlot {β : Type} {heading : Slot} {f : ElementId → ResolveM β} {e : β → ElementId}
    (place : heading.enclosing = some o) (completing : heading.state = .completing) (plain : ¬ heading.kind.isContainer)
    (other : ¬ heading.kind.isType) (inner : heading.kind ≠ .typeParameter)
    (next : ∀ id l, Lodging id heading.kind l (f id) fun b _ => e b = id) :
    Lodging o k l (liftM (StoreM.newSlot heading) >>= f) fun b l' => l' = l ++ [e b] := by
  rintro sc s h hosts rfl
  have settled : ¬ heading.isPending := by simp [Slot.isPending, completing]
  have entered : s.Lodged (· = o) (s.pushSlot heading) := h.lodged_push hosts place settled plain other (.inl rfl)
  have hostsNew : (s.pushSlot heading).Hosts ⟨s.elements.size⟩ heading.kind :=
    ⟨heading, (slot?_push heading).trans (if_pos rfl), rfl, plain, settled, fun _ => completing⟩
  obtain ⟨move, same⟩ := next ⟨s.elements.size⟩ _ sc _ entered.arranged hostsNew rfl
  have outside : o ≠ ⟨s.elements.size⟩ := by
    rintro rfl
    obtain ⟨slot, found, _⟩ := hosts
    cases slot?_at_size.symm.trans found
  refine ⟨entered.trans move fun e there same => ?_, ?_⟩
  · obtain ⟨slot, found⟩ := has_element_iff.mp there
    cases same
    cases slot?_at_size.symm.trans found
  · refine (move.inside_host (entered.hosts hosts) outside).trans ((inside_push place inner).trans ?_)
    exact congrArg (s.inside o ++ [·]) same.symm

theorem lodging_enterExecutable (asks : ∀ e, Keeping (Lodges Nothing) (again e)) (ownerType : TypeId)
    {kind : ElementKind} (plain : ¬ kind.isContainer) (other : ¬ kind.isType) (inner : kind ≠ .typeParameter)
    (d : ExecutableDecl) : Lodging o k l (enterExecutable again o ownerType kind d) fun e l' => l' = l ++ [e] := by
  refine lodging_newSlot (e := id) rfl rfl plain other inner fun id l => .scope fun before => ?_
  refine Lodging.bind (q := fun _ _ => True) (.block ?_) fun _ _ _ => .returns id rfl
  have publishes (l : List ElementId) (f : Scope → ElementRecord) (same : ∀ sc, (f sc).id = id) :
      Lodging id kind l (get >>= fun sc => liftM (StoreM.publish (f sc))) fun _ _ => True := by
    rintro sc s h ⟨slot, found, known, _⟩ rfl
    have known : s.kind? (f sc).id = some kind := kind?_eq_some_iff.mpr ⟨slot, by rw [same, found], known⟩
    exact ⟨h.lodged.trans (publish_lodges plain other h known) fun _ _ => False.elim, trivial⟩
  refine .past (lodging_enterTypeParameters id d.typeParameters) fun typeParameters => .ite ?_ ?_
  all_goals
    refine .past (.keeping (by grind)) fun returnType => ?_
    refine Lodging.bind (.mapM (fun _ _ => True) (fun | (name, t), _, _, _ => lodging_enterParameter name t) d.parameters trivial)
      fun parameters l _ => ?_
    refine .past (.keeping (by grind)) fun thrown => ?_
    refine .past (.keeping (by grind)) fun annotations => ?_
    refine .past (.keeping (by grind)) fun asType => ?_
    exact publishes l _ fun _ => rfl

theorem lodging_enterMember (asks : ∀ e, Keeping (Lodges Nothing) (again e)) (ownerType : TypeId) (d : MemberDecl) :
    Lodging o k l (enterMember again o ownerType d) fun e l' => l' = l ++ [e] := by
  cases d with
  | field name t modifiers =>
    refine .past (.keeping (ResolveM.keeping_resolve t)) fun t => ?_
    exact lodging_newVariable .field (by decide) (by decide) (by decide) name t _ _
  | enumConstant name => exact lodging_newVariable .enumConstant (by decide) (by decide) (by decide) name ownerType _ _
  | method d => exact lodging_enterExecutable asks ownerType (by decide) (by decide) (by decide) d
  | constructor d => exact lodging_enterExecutable asks ownerType (by decide) (by decide) (by decide) d
  | recordComponent name t =>
    refine .past (.keeping (ResolveM.keeping_resolve t)) fun t => ?_
    exact lodging_newVariable .recordComponent (by decide) (by decide) (by decide) name t _ _

theorem lodging_typeRecord (asks : ∀ e, Keeping (Lodges Nothing) (again e)) (slot : Slot) (h : TypeHeader)
    (nesting : Nesting) :
    Lodging o k l (typeRecord again o slot h nesting) fun r l' =>
      ∃ members, r.enclosed = members ++ slot.children ∧ l' = l ++ members := by
  refine .past (lodging_enterTypeParameters o h.typeParameters) fun typeParameters => ?_
  refine .past (.keeping (ResolveM.keeping_newType _)) fun asType => ?_
  refine .past (.keeping (keeping_superclassOf h slot.qualifiedName asType)) fun superclass => ?_
  refine .past (.keeping (keeping_interfacesOf h)) fun interfaces => ?_
  have members : Lodging o k l (h.members.mapM (enterMember again o asType)) fun es l' => l' = l ++ es := by
    refine .mapM (fun es l' => l' = l ++ es) (fun d done l' same => ?_) h.members (List.append_nil l).symm
    subst same
    simpa only [List.append_assoc] using lodging_enterMember (l := l ++ done) asks asType d
  refine members.bind fun es l' same => ?_
  refine .past (.keeping (keeping_mapM fun a => keeping_resolveAnnotationUse asks a)) fun annotations => ?_
  exact .scope fun _ => .returns _ ⟨es, rfl, same⟩

end members

section completing

variable {e : ElementId} {slot : Slot}

theorem lodges_completeType (asks : ∀ e, Keeping (Lodges Nothing) (again e)) (h : TypeHeader) (arranged : s.Arranged)
    (hosts : s.Hosts e k) :
    s.Lodged (· = e) (completeType again e slot h s).2 ∧ ∃ members,
      (completeType again e slot h s).1.enclosed = members ++ slot.children ∧
        (completeType again e slot h s).2.inside e = s.inside e ++ members := by
  let Lists (s₀ : Store) (m : StoreM ElementRecord) : Prop :=
    s₀.Lodged (· = e) (m s₀).2 ∧ ∃ members, (m s₀).1.enclosed = members ++ slot.children ∧
      (m s₀).2.inside e = s₀.inside e ++ members
  have runs (nesting : Nesting) (sc : Scope) {s₀ : Store} (arranged : s₀.Arranged) (hosts : s₀.Hosts e k) :
      Lists s₀ ((typeRecord again e slot h nesting).run' sc) :=
    lodging_typeRecord asks slot h nesting sc s₀ arranged hosts rfl
  unfold completeType
  refine iteInduction (motive := Lists s) (fun _ => ?_) fun _ => runs _ _ arranged hosts
  have visible := keeping_visibleVariables asks slot.enclosing s arranged
  obtain ⟨move, members, lists, same⟩ := runs _ _ visible.arranged (visible.hosts hosts)
  have passed : s.Lodged (· = e) (visibleVariables again slot.enclosing s).2 :=
    arranged.lodged.trans visible fun _ _ => False.elim
  exact ⟨passed.trans move fun _ _ => id, members, lists, same.trans (by rw [visible.inside_host hosts id])⟩

theorem lodges_step (asks : ∀ e, Keeping (Lodges Nothing) (again e)) (e : ElementId) :
    Keeping (Lodges Nothing) (step again e) := by
  intro s arranged
  cases found : s.slot? e with
  | none =>
    rw [step_of_absent found]
    exact arranged.lodged
  | some slot =>
    cases state : slot.state with
    | complete r =>
      rw [step_of_complete found state]
      exact arranged.lodged
    | completing =>
      rw [step_of_completing found state]
      exact arranged.lodged
    | pending work =>
      have waits : slot.isPending := Slot.isPending_iff.mpr ⟨work, state⟩
      have suits := arranged.suits e slot work found state
      have lists := arranged.children e slot found (.inr waits)
      cases work with
      | container =>
        rw [step_of_container found state]
        have published : s.Lodged Nothing (s.setState e (.complete (containerRecord e slot))) := by
          refine arranged.lodged_setState found nofun (fun _ busy => by cases state.symm.trans busy) fun r _ same => ?_
          cases same
          exact lists
        exact published.trans (published.arranged.lodged_aside (setState_setState _ _) rfl) fun _ _ => id
      | type h =>
        have plain : ¬ slot.kind.isContainer := ElementKind.isType_not_container suits
        have begun : s.Lodged (· = e) (s.setState e .completing) :=
          arranged.lodged_setState found nofun (fun _ _ => rfl) fun _ _ same => by cases same
        have hosts : (s.setState e .completing).Hosts e slot.kind :=
          ⟨{ slot with state := .completing }, slot?_update.trans (by rw [if_pos rfl, found]; rfl), rfl, plain, nofun,
            fun _ => rfl⟩
        obtain ⟨move, members, enclosed, inside⟩ := @lodges_completeType _ _ _ _ slot asks h begun.arranged hosts
        rw [step_of_type found state rfl]
        generalize completeType again e slot h (s.setState e .completing) = x at move enclosed inside ⊢
        obtain ⟨r, s₂⟩ := x
        let s₃ : Store := { s₂ with completions := s₂.completions + 1 }
        have moved : s.Lodged (· = e) s₂ := begun.trans move fun _ _ => id
        have counted : s.Lodged (· = e) s₃ := moved.trans (moved.arranged.lodged_aside rfl rfl) fun _ _ => id
        have before : (s.setState e .completing).inside e = s.inside e := inside_update e fun _ => rfl
        -- What was entered inside the type stands behind the members in the record, and before them in the store.
        have all : r.enclosed.Perm (s₃.inside e) := by
          change r.enclosed.Perm (s₂.inside e)
          rw [enclosed, inside, before]
          exact List.perm_append_comm.trans (lists.append_right members)
        exact counted.publish found plain waits all

theorem lodges_stepN (fuel : Nat) (e : ElementId) : Keeping (Lodges Nothing) (stepN fuel e) := by
  induction fuel generalizing e with
  | zero => exact lodges_step (fun _ => Keeper.pure _) e
  | succ fuel ih => exact lodges_step ih e

end completing

end Completion

instance : Tame (Lodges Nothing) where
  complete e s := Completion.lodges_stepN s.elements.size e s

end Nominal
