import Nominal.Store.Basic
/-!
Substitution: the variables of some type parameters are replaced by types. A usage or array in
which nothing changes stays the same type; the type that encloses a usage and the type variables
of a signature are left alone.
-/

namespace Nominal

structure Instantiation where
  parameters : List ElementId
  types : List TypeId

namespace Instantiation

def get? (i : Instantiation) (e : ElementId) : Option TypeId := (i.parameters.idxOf? e).bind (i.types[·]?)

end Instantiation

namespace StoreM

def substituteStep (i : Instantiation) (again : TypeId → StoreM TypeId) (t : TypeId) : StoreM TypeId := do
  match (← get).shape t with
  | .typeVariable e _ => return (i.get? e).getD t
  | .declared enclosing e args =>
    let args' ← args.mapM again
    if args' = args then return t else newType (.declared enclosing e args')
  | .array c =>
    let c' ← again c
    if c' = c then return t else newType (.array c')
  | .wildcard upper lower =>
    let upper ← upper.mapM again
    let lower ← lower.mapM again
    newType (.wildcard upper lower)
  | .executable sig =>
    let parameters ← sig.parameters.mapM again
    let result ← again sig.result
    let thrown ← sig.thrown.mapM again
    let receiver ← again sig.receiver
    newType (.executable { typeVariables := sig.typeVariables, receiver, parameters, result, thrown })
  | .intersection bounds => do newType (.intersection (← bounds.mapM again))
  | .union alternatives => do newType (.union (← alternatives.mapM again))
  | _ => return t

def substituteN (i : Instantiation) : Nat → TypeId → StoreM TypeId
  | 0 => fun t => return t
  | fuel + 1 => substituteStep i (substituteN i fuel)

def substitute (i : Instantiation) (t : TypeId) : StoreM TypeId := do
  if i.parameters.isEmpty then return t
  substituteN i (← get).chainBound t

end StoreM

end Nominal
