import Nominal.Store.Display
import Nominal.Text.Quoted
import Nominal.Workspace.Basic
/-!
Views of elements. Two views are the same if they show the same element of the same domain, however
they came about.
-/

namespace Nominal.ElementView

open WorkM

def new (d : Domain) (e : ElementId) : WorkM ElementView :=
  modifyGet fun w =>
    (⟨d, e, w.elementMemos.size⟩, { w with elementMemos := w.elementMemos.push none })

def seen? (v : ElementView) : WorkM (Option ElementRecord) := return ((← get).elementMemos[v.cell]?).join

def isBound (v : ElementView) : WorkM Bool := return (← v.seen?).isSome

/-- The record of the element, completed when the view is first used. -/
def record (v : ElementView) : WorkM ElementRecord := do
  match ← v.seen? with
  | some r => return r
  | none =>
    let r ← within v.domain (StoreM.complete v.id)
    modify fun w => { w with elementMemos := w.elementMemos.setIfInBounds v.cell (some r) }
    return r

def same (a b : ElementView) : Bool := a.id == b.id && a.domain.same b.domain

def key (v : ElementView) : DomainIdentity × ElementId := (v.domain.identity, v.id)

def text (v : ElementView) : WorkM String := look v.domain (·.elementText v.id)

def detail (v : ElementView) : WorkM String := do
  let known := match ← v.seen? with
    | some r => s!", {r.kind.name}, {quoted r.simpleName}"
    | none => ""
  return s!"UniversalElement({v.id.detail}{known})"

def findNamed (d : Domain) (name : String) : List ElementId → WorkM (Option ElementView)
  | [] => return none
  | e :: rest => do
    let v ← new d e
    if (← v.record).simpleName = name then return some v else findNamed d name rest

def enclosed? (v : ElementView) (name : String) : WorkM (Option ElementView) := do
  findNamed v.domain name (← v.record).enclosed

end Nominal.ElementView
