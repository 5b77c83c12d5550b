import Nominal.Store.Basic
/-!
Types and elements as text, in the manner of a program. Nothing is completed for it: a constructor
or method shows its parameter types only if it is complete already.
-/

namespace Nominal.Store

def nameText (s : Store) (e : ElementId) : String :=
  match s.slot? e with
  | some slot => if slot.kind.isQualified then slot.qualifiedName else slot.simpleName
  | none => s!"<unknown {e.text}>"

def commaSeparated (texts : List String) : String := ", ".intercalate texts

def typeTextStep (s : Store) (text : TypeId → String) (t : TypeId) : String :=
  let listed (ts : List TypeId) := commaSeparated (ts.map text)
  match s.shape t with
  | .primitive p => p.keyword
  | .noType n => n.keyword
  | .null => "null"
  | .array c => text c ++ "[]"
  | .declared enclosing e args =>
    let name :=
      if enclosing = .none then s.nameText e
      else text enclosing ++ "." ++ ((s.slot? e).map (·.simpleName)).getD "?"
    if args.isEmpty then name else name ++ "<" ++ listed args ++ ">"
  | .error name => name
  | .typeVariable e _ => s.nameText e
  | .wildcard upper lower =>
    "?" ++ ((upper.map fun b => " extends " ++ text b).getD "")
      ++ ((lower.map fun b => " super " ++ text b).getD "")
  | .executable sig =>
    (if sig.typeVariables.isEmpty then "" else "<" ++ listed sig.typeVariables ++ ">")
      ++ "(" ++ listed sig.parameters ++ ")" ++ text sig.result
      ++ (if sig.thrown.isEmpty then "" else " throws " ++ listed sig.thrown)
  | .union ts => " | ".intercalate (ts.map text)
  | .intersection ts => " & ".intercalate (ts.map text)

def typeTextN (s : Store) : Nat → TypeId → String
  | 0 => fun _ => "..."
  | fuel + 1 => s.typeTextStep (s.typeTextN fuel)

def typeText (s : Store) (t : TypeId) : String := s.typeTextN s.chainBound t

def parameterText (s : Store) (e : ElementId) : String :=
  match s.record? e with
  | some r => s.typeText r.asType
  | none => "?"

def elementText (s : Store) (e : ElementId) : String :=
  match s.kind? e, s.record? e with
  | some k, some r =>
    if k.isExecutable then
      s.nameText e ++ "(" ++ commaSeparated (r.parameters.map s.parameterText) ++ ")"
    else s.nameText e
  | _, _ => s.nameText e

def detail (s : Store) : String :=
  s!"Model \x7b elements: {s.elements.size}, types: {s.types.size}, completions: {s.completions} \x7d"

end Nominal.Store
