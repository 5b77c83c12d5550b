import Nominal.Proofs.Order.Walking
/-!
What a completion asks of other elements, side by side in two stores: in the one an element may have to be
completed for it, in the other it is at hand.
-/

namespace Nominal

open Completion

def Scope.Admits (home : Scope) (s₀ : Store) (x : ElementId) (ts : List TypeExpr) : Prop :=
  ∀ t ∈ ts, ∀ e, home.element? s₀ t = some e → s₀.HasElement e ∧ (e = x ∨ s₀.rank e < s₀.rank x)

namespace Store

variable {s₀ : Store}

structure Reference.Serves (R : Reference s₀ s₀.HasElement) (again : Again) (n : Nat) : Prop where
  idle : ∀ {s : Store} {e slot}, s.slot? e = some slot → ¬ slot.isPending → again e s = recollect e s
  keeps : ∀ e, Keeping Keeps (again e)
  serves : ∀ {π s e}, R.Explains π s → s₀.HasElement e → s₀.rank e < n →
    (∀ f, s₀.HasElement f → s.Open f → s₀.rank e < s₀.rank f) →
      ∃ π', R.Learns π s π' (again e s).2 ∧ π'.Outline (again e s).1 (R.record e)

open Reference

variable {R : Reference s₀ s₀.HasElement} {x : ElementId} {home : Scope} {out : Outset} {w v : Pairing out} {s r : Store} {again : Again}
  {a b e e' : ElementId}

section records

variable {q q' : ElementRecord} {k : ElementKind}

theorem record_kind (fits : s.Consistent) (complete : s.record? e = some q) (kind : s.kind? e = some k) : q.kind = k := by
  obtain ⟨slot, found, state⟩ := record?_eq_some_iff.mp complete
  obtain ⟨_, again, rfl⟩ := kind?_eq_some_iff.mp kind
  cases found.symm.trans again
  have fits := (fits.slots e slot found).state
  simp only [StateFits, state] at fits
  exact fits.kind

theorem Consistent.not_waiting (fits : s.Consistent) (kind : s.kind? e = some k) (owned : k.isOwned) : ¬ s.isPending e := by
  obtain ⟨slot, found, rfl⟩ := kind?_eq_some_iff.mp kind
  have fits := (fits.slots e slot found).state
  rw [isPending_of_slot found, Slot.isPending]
  cases state : slot.state with
  | pending work =>
    cases work with
    | container =>
      simp only [StateFits, state] at fits
      exact absurd fits.1 (ElementKind.isOwned_not_container owned)
    | type h =>
      simp only [StateFits, state] at fits
      exact absurd fits.1 (ElementKind.isOwned_not_type owned)
  | completing => exact Bool.false_ne_true
  | complete r => exact Bool.false_ne_true

theorem enclosed_there (fits : s.Consistent) (complete : s.record? e = some q) : ∀ b ∈ q.enclosed, s.HasElement b := by
  obtain ⟨slot, found, state⟩ := record?_eq_some_iff.mp complete
  have fits := (fits.slots e slot found).state
  simp only [StateFits, state] at fits
  obtain ⟨rest, enclosed, free⟩ := fits.enclosed
  intro b mem
  rw [enclosed] at mem
  rcases List.mem_append.mp mem with owned | mem
  · obtain ⟨slot', found', _⟩ := mem_ownedOf.mp owned
    exact has_element_iff.mpr ⟨slot', found'⟩
  · obtain ⟨k, kind, _⟩ := free b mem
    obtain ⟨slot', found', _⟩ := kind?_eq_some_iff.mp kind
    exact has_element_iff.mpr ⟨slot', found'⟩

theorem Reference.before_record (there : s₀.HasElement x) (complete : (R.before x).record? b = some q) :
    R.store.record? b = some q := (R.start_endures there).records b q complete

theorem Reference.Within.record (within : R.Within x r) (complete : (R.before x).record? b = some q) :
    r.record? b = some q := by
  obtain ⟨slot, found, state⟩ := record?_eq_some_iff.mp complete
  have other : b ≠ x := by
    rintro rfl
    obtain ⟨slot₀, found₀, waits, _⟩ := within.slot
    cases (R.waited b slot₀ (has_element_iff.mpr ⟨_, found₀⟩) found₀).symm.trans found
    simp [Slot.isPending, state] at waits
  exact record?_eq_some_iff.mpr ⟨slot, within.spares b slot other found, state⟩

theorem Reference.Within.record_before (within : R.Within x r) (there : (R.before x).HasElement b)
    (complete : r.record? b = some q) : (R.before x).record? b = some q := by
  obtain ⟨slot, found⟩ := has_element_iff.mp there
  obtain ⟨slot', found', state⟩ := record?_eq_some_iff.mp complete
  by_cases here : b = x
  · subst here
    obtain ⟨_, _, _, now⟩ := within.slot
    cases now.symm.trans found'
    cases state
  · cases (within.spares b slot here found).symm.trans found'
    exact record?_eq_some_iff.mpr ⟨slot, found, state⟩

theorem Steady.sound (steady : s₀.Steady s) : s.Sound := ⟨steady.consistent, steady.closed⟩

theorem Reference.Abreast.not_waiting (poised : s₀.Poised) (ab : R.Abreast x w s r) (known : w.known.element a b)
    (kind : (R.before x).kind? b = some k) (owned : k.isOwned) : ¬ s₀.isPending a := by
  intro waits
  have entered := there_of_waiting waits
  cases ab.explains.entered_eq known entered
  obtain ⟨slot, found⟩ := has_element_iff.mp entered
  have kind₀ : s₀.kind? a = some slot.kind := kind?_eq_some_iff.mpr ⟨slot, found, rfl⟩
  have same : slot.kind = k := Option.some.inj (((R.turn x ab.entered).underlies.kind kind₀).symm.trans kind)
  exact poised.sound.toConsistent.not_waiting kind₀ (same ▸ owned) waits

theorem Reference.Abreast.constants (poised : s₀.Poised) (ab : R.Abreast x w s r) (name : String)
    (same : (R.near x w).element a b) : isConstantNamed s name a = isConstantNamed r name b := by
  have alike {q q' : ElementRecord} (complete : s.record? a = some q) (complete' : r.record? b = some q')
      (kind : q.kind = q'.kind) (named : q.simpleName = q'.simpleName) : isConstantNamed s name a = isConstantNamed r name b := by
    rw [isConstantNamed, isConstantNamed, complete, complete']
    dsimp only
    rw [kind, named]
  have other {s : Store} {e : ElementId} (never : ∀ q, s.record? e = some q → q.kind ≠ .enumConstant) :
      isConstantNamed s name e = false := by
    unfold isConstantNamed
    cases complete : s.record? e with
    | none => rfl
    | some q => simp [never q complete]
  rcases same with own | ⟨known, there⟩
  · obtain ⟨slot, slot', found, found', like, _⟩ := ab.element own
    have states := like.state
    generalize state : slot.state = now at states
    generalize state' : slot'.state = now' at states
    cases states with
    | completing =>
      rw [other fun q complete => ?_, other fun q complete => ?_]
      · exact absurd ⟨slot', found', state'⟩ (not_open_of_record complete)
      · exact absurd ⟨slot, found, state⟩ (not_open_of_record complete)
    | complete like =>
      exact alike (record?_eq_some_iff.mpr ⟨slot, found, state⟩) (record?_eq_some_iff.mpr ⟨slot', found', state'⟩) like.kind like.simpleName
  · have steady := R.turn x ab.entered
    obtain ⟨slot, found⟩ := has_element_iff.mp there
    have kind : (R.before x).kind? b = some slot.kind := kind?_eq_some_iff.mpr ⟨slot, found, rfl⟩
    by_cases owned : slot.kind.isOwned
    · obtain ⟨q', complete'⟩ := steady.sound.record_of_owned kind owned
      have settled := ab.not_waiting poised known kind owned
      obtain ⟨q, complete⟩ := isComplete_iff_record.mp (ab.explains.complete known settled)
      obtain ⟨q'', complete'', like, _⟩ := ab.explains.record known complete
      cases (before_record ab.entered complete').symm.trans complete''
      exact alike complete (ab.within.record complete') like.kind like.simpleName
    · have never (q : ElementRecord) (same : q.kind = slot.kind) : q.kind ≠ .enumConstant := by
        rintro constant
        rw [← same, constant] at owned
        exact owned rfl
      rw [other fun q complete => ?_, other fun q complete => ?_]
      · exact never q (record_kind steady.consistent (ab.within.record_before there complete) kind)
      · obtain ⟨q', complete', like, _⟩ := ab.explains.record known complete
        have kind' := (R.start_endures ab.entered).kinds b _ kind
        exact never q (like.kind.trans (record_kind R.steady.consistent complete' kind'))

end records

section asking

variable {n : Nat}

theorem Reference.recorded (R : Reference s₀ s₀.HasElement) (poised : s₀.Poised) (entered : s₀.HasElement x)
    (there : s₀.HasElement e) (lower : s₀.rank e < s₀.rank x) : (R.before x).record? e = some (R.record e) := by
  obtain ⟨q, complete⟩ := isComplete_iff_record.mp (R.ranked x e entered there lower)
  rw [complete, ← R.complete poised there, before_record entered complete]

theorem Reference.Abreast.asks (poised : s₀.Poised) (serves : R.Serves again (s₀.rank x)) (ab : R.Abreast x w s r)
    (there : s₀.HasElement e) (lower : s₀.rank e < s₀.rank x) :
    R.Alongside x w s r (again e) (recollect e) fun v q q' => q' = R.record e ∧ v.known.Outline q q' := by
  have recollected := recollect_of_complete (ab.within.record (R.recorded poised ab.entered there lower))
  obtain ⟨π, learns, like⟩ := serves.serves ab.explains there lower fun f entered isOpen =>
    (ab.opens f entered isOpen).elim (fun same => same ▸ lower) lower.trans
  refine ⟨w.learn π, ⟨learns.le, ⟨id, id⟩, id⟩, ?_, ?_⟩
  · rw [recollected]
    exact ab.learn learns (serves.keeps e s)
  · rw [recollected]
    exact ⟨rfl, like⟩

theorem Reference.Abreast.asks_idle {P : Pairing out → ElementRecord → ElementRecord → Prop}
    (serves : R.Serves again n) (ab : R.Abreast x w s r) {slot : Slot} (found : s.slot? e = some slot)
    (settled : ¬ slot.isPending) (holds : P w (recollect e s).1 (recollect e' r).1) :
    R.Alongside x w s r (again e) (recollect e') P := by
  refine ⟨w, w.le_refl, ?_, ?_⟩
  · rw [serves.idle found settled, recollect_stays, recollect_stays]
    exact ab
  · rw [serves.idle found settled]
    exact holds

theorem Reference.Abreast.asks_enclosed (poised : s₀.Poised) (serves : R.Serves again (s₀.rank x))
    (ab : R.Abreast x w s r) (asks : R.Asks x w e e') :
    R.Alongside x w s r (again e) (recollect e') fun v q q' =>
      List.Forall₂ (R.near x v).element q.enclosed q'.enclosed := by
  have steady := R.turn x ab.entered
  have near {v : Pairing out} {q q' : ElementRecord} (like : v.known.Outline q q') (complete : (R.before x).record? e' = some q') :
      List.Forall₂ (R.near x v).element q.enclosed q'.enclosed := by
    have there := enclosed_there steady.consistent complete
    refine (List.forall₂_iff_zip.mpr ⟨like.enclosed.length_eq, fun {a b} mem => ?_⟩)
    exact .inr ⟨(List.forall₂_iff_zip.mp like.enclosed).2 mem, there b (List.of_mem_zip mem).2⟩
  rcases asks with ⟨rfl, there, rfl | lower⟩ | own | ⟨known, new, complete⟩
  · obtain ⟨slot, found, state⟩ := ab.busy
    obtain ⟨slot₀, _, _, found'⟩ := ab.within.slot
    refine ab.asks_idle serves found (by simp [Slot.isPending, state]) ?_
    rw [recollect_of_completing found state, recollect_of_completing found' rfl]
    exact .nil
  · refine (ab.asks poised serves there lower).imp fun v q q' _ ⟨same, like⟩ => near like ?_
    rw [same]
    exact R.recorded poised ab.entered there lower
  · obtain ⟨slot, slot', found, found', like, _⟩ := ab.element own
    have states := like.state
    generalize state : slot.state = now at states
    generalize state' : slot'.state = now' at states
    cases states with
    | completing =>
      refine ab.asks_idle serves found (by simp [Slot.isPending, state]) ?_
      rw [recollect_of_completing found state, recollect_of_completing found' state']
      exact .nil
    | complete like =>
      refine ab.asks_idle serves found (by simp [Slot.isPending, state]) ?_
      rw [recollect_of_complete (record?_eq_some_iff.mpr ⟨slot, found, state⟩),
        recollect_of_complete (record?_eq_some_iff.mpr ⟨slot', found', state'⟩)]
      exact like.enclosed
  · obtain ⟨q, complete₁⟩ := isComplete_iff_record.mp (ab.explains.complete known new)
    obtain ⟨q', complete₂⟩ := isComplete_iff_record.mp complete
    obtain ⟨q'', complete₃, like, _⟩ := ab.explains.record known complete₁
    cases (before_record ab.entered complete₂).symm.trans complete₃
    obtain ⟨slot, found, state⟩ := record?_eq_some_iff.mp complete₁
    refine ab.asks_idle serves found (by simp [Slot.isPending, state]) ?_
    rw [recollect_of_complete complete₁, recollect_of_complete (ab.within.record complete₂)]
    exact near like complete₂

end asking

section shapes

open ResolveM

variable {t : TypeExpr} {sc : Scope}

theorem Consistent.element_initial (fits : s₀.Consistent) (under : s₀.Underlies s) {i : Nat} (small : i < 13) :
    (s.shape ⟨i⟩).element? = none := by
  have listed : i < TypeShape.initial.length := small
  have plain : ∀ shape ∈ TypeShape.initial, shape.element? = none := by decide
  rw [shape_of_shape? (under.types _ _ (fits.initial i _ (List.getElem?_eq_getElem listed)))]
  exact plain _ (List.getElem_mem listed)

theorem resolve_element (poised : s₀.Poised) (under : s₀.Underlies s) (t : TypeExpr) (sc : Scope)
    (unbound : ∀ name, t = .var name → sc.boundVariable? name = none) :
    ((resolve t sc s).2.shape (resolve t sc s).1.1).element? = sc.element? s₀ t := by
  have unresolved (name : String) : ((unresolvedType name sc s).2.shape (unresolvedType name sc s).1.1).element? = none :=
    congrArg TypeShape.element? (newType_shape (.error name) { sc with unresolved := sc.unresolved + 1 } s)
  cases t with
  | primitive k =>
    rw [resolve]
    cases k.primitive? with
    | none => exact unresolved k.name
    | some p => exact poised.sound.toConsistent.element_initial under (by cases p <;> decide)
  | void => exact poised.sound.toConsistent.element_initial under (by decide)
  | var name =>
    rw [resolve, scope_bind, unbound name rfl]
    exact unresolved name
  | named name args =>
    rw [resolve, store_bind, scope_bind, under.typeElement, Scope.element?]
    cases named : sc.typeElement? s₀ name with
    | none => exact unresolved name
    | some e =>
      dsimp only
      rw [under.arity (typeElement_there poised.sound.toConsistent named), Option.filter_some]
      cases fits : args.isEmpty || args.length == s₀.arity e with
      | true =>
        rw [if_neg (by simpa [imp_iff_or_not, or_comm] using fits), bind_newType_shape (resolveAll args) (.declared .none e)]
        rfl
      | false =>
        rw [if_pos (by simpa using fits)]
        exact unresolved name
  | array c =>
    rw [resolve, bind_newType_shape (resolve c) .array]
    rfl
  | wildcard upper lower =>
    rw [resolve, bind_apply, bind_newType_shape]
    rfl

end shapes

section annotations

open ResolveM

def membersOf (again : Again) : Option ElementId → ResolveM (List ElementId)
  | some e => do
    let r ← (again e : StoreM ElementRecord)
    return r.enclosed
  | none => return []

def pick (name : String) (members : List ElementId) : ResolveM AnnotationValue := do
  match members.find? (isConstantNamed (← ResolveM.store) name) with
  | some constant => return .enumConstant constant
  | none =>
    countUnresolved
    return .str name

theorem resolveConstant_eq (again : Again) (t : TypeId) (name : String) :
    resolveConstant again t name = (do
      let members ← membersOf again ((← ResolveM.store).shape t).element?
      pick name members) := by
  rw [resolveConstant]
  refine bind_congr fun s => ?_
  cases (s.shape t).element? with
  | none => rfl
  | some e => rfl

theorem find_related {S : ElementId → ElementId → Prop} {p p' : ElementId → Bool} (same : ∀ a b, S a b → p a = p' b)
    {as bs : List ElementId} (all : List.Forall₂ S as bs) : Option.Rel S (as.find? p) (bs.find? p') := by
  induction all with
  | nil => exact .none
  | cons head _ ih =>
    rw [List.find?_cons, List.find?_cons, same _ _ head]
    split
    · exact .some head
    · exact ih

theorem walks_pick (poised : s₀.Poised) (name : String) {members members' : List ElementId}
    (all : List.Forall₂ (R.near x w).element members members') :
    R.Walks x home w (pick name members) (pick name members') fun v => (R.near x v).Value := by
  refine .store fun v s r le ab => ?_
  have found := find_related (fun a b same => ab.constants poised name same) (Renaming.le_elements (near_mono le) all)
  generalize members.find? (isConstantNamed s name) = constant at found
  generalize members'.find? (isConstantNamed r name) = constant' at found
  cases found with
  | some same => exact .pure fun _ _ _ le' _ => .enumConstant ((near_mono le').1 same)
  | none =>
    refine Walks.bind (P := fun _ _ _ => True) (.rescope fun _ _ _ _ sees => ?_) fun _ _ _ _ _ => .pure fun _ _ _ _ _ => .str name
    exact { sees with unresolved := congrArg (· + 1) sees.unresolved }

theorem resolve_bound {name : String} {t : TypeId} {sc : Scope} (bound : sc.boundVariable? name = some t) (s : Store) :
    resolve (.var name) sc s = ((t, sc), s) := by
  rw [resolve, scope_bind, bound]
  rfl

theorem Reference.Abreast.asked (poised : s₀.Poised) (ab : R.Abreast x w s r) {sc sc' : Scope} (sees : home.Sees w sc sc')
    {t : TypeExpr} (admits : home.Admits s₀ x [t]) :
    Option.Rel (R.Asks x w) ((resolve t sc s).2.shape (resolve t sc s).1.1).element?
      ((resolve t sc' r).2.shape (resolve t sc' r).1.1).element? := by
  by_cases bound : ∃ name y, t = .var name ∧ sc.boundVariable? name = some y
  · obtain ⟨name, y, rfl, found⟩ := bound
    have same := sees.boundVariable name
    rw [found] at same
    generalize found' : sc'.boundVariable? name = other at same
    cases same with
    | some same =>
      obtain ⟨_, p, p', upper, upper', shape, shape', asks⟩ := ab.binds same
      rw [resolve_bound found, resolve_bound found']
      dsimp only
      rw [shape_of_shape? shape, shape_of_shape? shape']
      exact .some asks
  · have unbound (name : String) (same : t = .var name) : sc.boundVariable? name = none := by
      cases found : sc.boundVariable? name with
      | none => rfl
      | some y => exact absurd ⟨name, y, same, found⟩ bound
    have unbound' (name : String) (same : t = .var name) : sc'.boundVariable? name = none := by
      have rel := sees.boundVariable name
      rw [unbound name same] at rel
      generalize sc'.boundVariable? name = other at rel
      cases rel
      rfl
    rw [resolve_element poised ab.explains.under t sc unbound, resolve_element poised ab.within.under t sc' unbound',
      (sees.element s₀ t).1, (sees.element s₀ t).2]
    cases meant : home.element? s₀ t with
    | none => exact .none
    | some e =>
      obtain ⟨there, lower⟩ := admits t (List.mem_singleton.mpr rfl) e meant
      exact .some (.inl ⟨rfl, there, lower⟩)

theorem walks_membersOf (poised : s₀.Poised) (serves : R.Serves again (s₀.rank x)) {e e' : Option ElementId} (asked : Option.Rel (R.Asks x w) e e') :
    R.Walks x home w (membersOf again e) (membersOf recollect e') fun v => List.Forall₂ (R.near x v).element := by
  cases asked with
  | none => exact .pure fun _ _ _ _ _ => .nil
  | some asks =>
    refine Walks.bind (Walks.lift fun v s r le ab => ab.asks_enclosed poised serves (asks.mono le)) fun v q q' le all => ?_
    exact .pure fun _ _ _ le' _ => Renaming.le_elements (near_mono le') all

theorem walks_enumConstant (poised : s₀.Poised) (serves : R.Serves again (s₀.rank x)) {t : TypeExpr}
    (admits : home.Admits s₀ x [t]) (name : String) :
    R.Walks x home w (resolve t >>= (resolveConstant again · name)) (resolve t >>= (resolveConstant recollect · name))
      fun v => (R.near x v).Value := fun v s r sc sc' le ab sees => by
  refine Walks.bindAt (walks_resolve poised w t v s r sc sc' le ab sees) fun u le' ab' ⟨sees', _⟩ => ?_
  have asked := Renaming.rel_mono (Asks.mono le') (ab.asked poised sees admits)
  rw [resolveConstant_eq, resolveConstant_eq]
  have members : R.Walks x home u _ _ _ := walks_membersOf poised serves asked
  have walks := members.bind fun _ _ _ _ all => walks_pick poised name all
  exact .store (walks u _ _ _ _ u.le_refl ab' sees')

mutual

theorem walks_resolveValue (poised : s₀.Poised) (serves : R.Serves again (s₀.rank x)) (w : Pairing out) : (value : ValueExpr) → home.Admits s₀ x value.shown →
    R.Walks x home w (resolveValue again value) (resolveValue recollect value) fun v => (R.near x v).Value
  | .bool b, _ => .pure fun _ _ _ _ _ => .bool b
  | .int n, _ => .pure fun _ _ _ _ _ => .int n
  | .str text, _ => .pure fun _ _ _ _ _ => .str text
  | .type t, _ => by
    rw [resolveValue, resolveValue]
    exact (walks_resolve poised w t).map fun _ _ _ _ same => .type same
  | .enumConstant t name, admits => by
    rw [resolveValue, resolveValue]
    exact walks_enumConstant poised serves admits name
  | .array values, admits => by
    rw [resolveValue, resolveValue]
    exact (walks_resolveValues poised serves w values admits).map fun _ _ _ _ all => .array all

theorem walks_resolveValues (poised : s₀.Poised) (serves : R.Serves again (s₀.rank x)) (w : Pairing out) : (values : List ValueExpr) → home.Admits s₀ x (ValueExpr.allShown values) →
    R.Walks x home w (resolveValues again values) (resolveValues recollect values)
      fun v => List.Forall₂ (R.near x v).Value
  | [], _ => by
    rw [resolveValues, resolveValues]
    exact .pure fun _ _ _ _ _ => .nil
  | value :: rest, admits => by
    rw [resolveValues, resolveValues]
    refine Walks.bind (walks_resolveValue poised serves w value fun t mem => admits t (List.mem_append_left _ mem)) fun v a a' _ same => ?_
    refine Walks.bind (walks_resolveValues poised serves v rest fun t mem => admits t (List.mem_append_right _ mem)) fun u as as' le all => ?_
    exact .pure fun _ _ _ le' _ => .cons (Renaming.Value.mono (near_mono (Pairing.le_trans le le')) _ _ same)
      (all.imp fun _ _ => Renaming.Value.mono (near_mono le') _ _)

end

theorem walks_resolveAnnotationUse (poised : s₀.Poised) (serves : R.Serves again (s₀.rank x)) (a : AnnotationDecl)
    (admits : home.Admits s₀ x a.shown) :
    R.Walks x home w (resolveAnnotationUse again a) (resolveAnnotationUse recollect a) fun v => (R.near x v).Use := by
  refine Walks.bind (walks_resolve poised w a.type) fun v t t' _ same => ?_
  refine Walks.bind (Walks.mapM_same (Q := fun v => ByName.Entry (R.near x v).Value) a.values ?_ ?_) fun u as as' le all => ?_
  · exact fun _ _ _ _ le entry => ⟨entry.1, Renaming.Value.mono (near_mono le) _ _ entry.2⟩
  · rintro u _ ⟨name, value⟩ mem
    refine Walks.bind (walks_resolveValue poised serves u value fun t shown => admits t ?_) fun u' b b' _ same => ?_
    · exact List.mem_flatMap.mpr ⟨(name, value), mem, shown⟩
    · exact .pure fun _ _ _ le _ => ⟨rfl, Renaming.Value.mono (near_mono le) _ _ same⟩
  · refine .pure fun u' _ _ le' _ => ⟨(near_mono (Pairing.le_trans le le')).2 same, ByName.ofList_entries ?_⟩
    exact all.imp fun _ _ entry => ⟨entry.1, Renaming.Value.mono (near_mono le') _ _ entry.2⟩

theorem walks_resolveAnnotations (poised : s₀.Poised) (serves : R.Serves again (s₀.rank x)) (as : List AnnotationDecl)
    (admits : home.Admits s₀ x (as.flatMap (·.shown))) :
    R.Walks x home w (as.mapM (resolveAnnotationUse again)) (as.mapM (resolveAnnotationUse recollect))
      fun v => List.Forall₂ (R.near x v).Use := by
  refine Walks.mapM_same as (fun _ _ _ _ le => Renaming.Use.mono (near_mono le)) fun v _ a mem => ?_
  exact walks_resolveAnnotationUse poised serves a fun t shown => admits t (List.mem_flatMap.mpr ⟨a, mem, shown⟩)

end annotations

end Store

end Nominal
