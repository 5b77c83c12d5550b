import Nominal.Store.Basic
/-!
Erasure: what is left of a type without type arguments, type variables and wildcards. What is
erased already is its own erasure, signatures apart.
-/

namespace Nominal.StoreM

/-- How many levels of bounds and parts are followed before a type counts as the top type. -/
def boundDepth : Nat := 65

def eraseN : Nat → TypeId → StoreM TypeId
  | 0, _ => objectType
  | depth + 1, t => do
    match (← get).shape t with
    | .declared enclosing e args =>
      let outer ← if enclosing = .none then pure .none else eraseN depth enclosing
      if args.isEmpty && outer == enclosing then return t else newType (.declared outer e [])
    | .array c =>
      let erased ← eraseN depth c
      if erased = c then return t else newType (.array erased)
    | .typeVariable _ upper => eraseN depth upper
    | .wildcard (some b) _ => eraseN depth b
    | .wildcard none _ => objectType
    | .intersection (b :: _) | .union (b :: _) => eraseN depth b
    | .executable sig =>
      let receiver ← eraseN depth sig.receiver
      let parameters ← sig.parameters.mapM (eraseN depth)
      let result ← eraseN depth sig.result
      let thrown ← sig.thrown.mapM (eraseN depth)
      newType (.executable { typeVariables := [], receiver, parameters, result, thrown })
    | _ => return t

def erase (t : TypeId) : StoreM TypeId := eraseN boundDepth t

end Nominal.StoreM
