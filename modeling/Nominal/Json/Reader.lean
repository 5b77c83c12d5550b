import Nominal.Json.Value
/-!
Reading JSON text: one value and nothing after it but blanks. A value that is well formed but of
no use (see `Json.unreadable`) is read as such, with everything inside it.

Each reader takes characters off the front and returns what is left. `fuel` bounds the number of
nested readers; the length of the text is always enough.
-/

namespace Nominal.Json

def isBlank (c : Char) : Bool := c == ' ' || c == '\n' || c == '\t' || c == '\r'

def skipBlanks (cs : List Char) : List Char := cs.dropWhile isBlank

def hexDigit? (c : Char) : Option Nat :=
  if '0' ≤ c ∧ c ≤ '9' then some (c.toNat - '0'.toNat)
  else if 'a' ≤ c ∧ c ≤ 'f' then some (c.toNat - 'a'.toNat + 10)
  else if 'A' ≤ c ∧ c ≤ 'F' then some (c.toNat - 'A'.toNat + 10)
  else none

def unit? (a b c d : Char) : Option Nat :=
  return (((← hexDigit? a) * 16 + (← hexDigit? b)) * 16 + (← hexDigit? c)) * 16 + (← hexDigit? d)

def isHighSurrogate (n : Nat) : Bool := 0xD800 ≤ n && n < 0xDC00

def isLowSurrogate (n : Nat) : Bool := 0xDC00 ≤ n && n < 0xE000

def pairChar (high low : Nat) : Char :=
  .ofNat (0x10000 + (high - 0xD800) * 0x400 + (low - 0xDC00))

def escape? : Char → Option Char
  | '"' => some '"'
  | '\\' => some '\\'
  | '/' => some '/'
  | 'b' => some '\x08'
  | 'f' => some '\x0c'
  | 'n' => some '\n'
  | 'r' => some '\r'
  | 't' => some '\t'
  | _ => none

/-- A text is made of characters and of escaped 16-bit units. -/
inductive TextPart where
  | char (c : Char)
  | unit (n : Nat)

def readText : List Char → Option (List TextPart × List Char)
  | [] => none
  | '"' :: rest => some ([], rest)
  | '\\' :: 'u' :: a :: b :: c :: d :: rest => do
    let n ← unit? a b c d
    let (parts, left) ← readText rest
    some (.unit n :: parts, left)
  | '\\' :: c :: rest => do
    let c ← escape? c
    let (parts, left) ← readText rest
    some (.char c :: parts, left)
  | c :: rest => do
    if c.toNat < 0x20 then none
    else
      let (parts, left) ← readText rest
      some (.char c :: parts, left)

/-- Units stand for the characters they encode; half a surrogate pair encodes none. -/
def joinText? : List TextPart → Option (List Char)
  | [] => some []
  | .char c :: rest => (c :: ·) <$> joinText? rest
  | .unit n :: rest =>
    if isHighSurrogate n then
      match rest with
      | .unit low :: rest => if isLowSurrogate low then (pairChar n low :: ·) <$> joinText? rest else none
      | _ => none
    else if isLowSurrogate n then none
    else (.ofNat n :: ·) <$> joinText? rest

def digits (cs : List Char) : List Char × List Char :=
  (cs.takeWhile (·.isDigit), cs.dropWhile (·.isDigit))

def readFraction (cs : List Char) : Option (Bool × List Char) := do
  let (dotted, cs) ← match cs with
    | '.' :: rest =>
      let (ds, left) := digits rest
      if ds.isEmpty then none else some (true, left)
    | _ => some (false, cs)
  match cs with
  | 'e' :: rest | 'E' :: rest =>
    let rest := match rest with
      | '+' :: r | '-' :: r => r
      | r => r
    let (ds, left) := digits rest
    if ds.isEmpty then none else some (true, left)
  | _ => some (dotted, cs)

/-- Integers from here on are too large to be numbers at all. -/
def numberBound : Nat := (1 <<< 1024) - (1 <<< 970)

/-- A number has no leading zeros. Minus zero counts as a fraction. -/
def readNumber (cs : List Char) : Option (Json × List Char) := do
  let (negative, cs) := match cs with
    | '-' :: rest => (true, rest)
    | _ => (false, cs)
  let (ds, cs) := digits cs
  if ds.isEmpty || (ds.head? == some '0' && ds.length != 1) then none
  else
    let (fractional, cs) ← readFraction cs
    let n := Nat.ofDigitChars 10 ds 0
    if fractional || (negative && n == 0) then some (fraction, cs)
    else if numberBound ≤ n then some (unreadable, cs)
    else some (int (if negative then -n else n), cs)

def readWord (word : List Char) (j : Json) (cs : List Char) : Option (Json × List Char) :=
  if word.isPrefixOf cs then some (j, cs.drop word.length) else none

def textJson (parts : List TextPart) : Json := ((joinText? parts).map fun cs => str (.ofList cs)).getD unreadable

def objJson (members : List (List TextPart × Json)) : Json :=
  ((members.mapM fun m => (joinText? m.1).map fun cs => (String.ofList cs, m.2)).map obj).getD unreadable

mutual

/-- One value. `room` is how many more arrays and objects may be opened. -/
def readValue : Nat → Nat → List Char → Option (Json × List Char)
  | 0, _, _ => none
  | fuel + 1, room, cs =>
    match skipBlanks cs with
    | '{' :: rest => do
      let (members, left) ← match skipBlanks rest with
        | '}' :: left => some ([], left)
        | _ => readMembers fuel (room - 1) rest
      some (if room = 0 then unreadable else objJson members, left)
    | '[' :: rest => do
      let (items, left) ← match skipBlanks rest with
        | ']' :: left => some ([], left)
        | _ => readItems fuel (room - 1) rest
      some (if room = 0 then unreadable else arr items, left)
    | '"' :: rest => do
      let (parts, left) ← readText rest
      some (textJson parts, left)
    | 'n' :: rest => readWord ['u', 'l', 'l'] null rest
    | 't' :: rest => readWord ['r', 'u', 'e'] (bool true) rest
    | 'f' :: rest => readWord ['a', 'l', 's', 'e'] (bool false) rest
    | cs => readNumber cs

def readItems : Nat → Nat → List Char → Option (List Json × List Char)
  | 0, _, _ => none
  | fuel + 1, room, cs => do
    let (j, cs) ← readValue fuel room cs
    match skipBlanks cs with
    | ']' :: left => some ([j], left)
    | ',' :: rest =>
      let (items, left) ← readItems fuel room rest
      some (j :: items, left)
    | _ => none

def readMembers : Nat → Nat → List Char → Option (List (List TextPart × Json) × List Char)
  | 0, _, _ => none
  | fuel + 1, room, cs =>
    match skipBlanks cs with
    | '"' :: rest => do
      let (name, cs) ← readText rest
      match skipBlanks cs with
      | ':' :: rest =>
        let (j, cs) ← readValue fuel room rest
        match skipBlanks cs with
        | '}' :: left => some ([(name, j)], left)
        | ',' :: rest =>
          let (members, left) ← readMembers fuel room rest
          some ((name, j) :: members, left)
        | _ => none
      | _ => none
    | _ => none

end

def maxNesting : Nat := 127

/-- Reads a text that is one value; what stands inside more than `nesting` brackets is unreadable. -/
def ofTextWithin? (nesting : Nat) (text : String) : Option Json :=
  let cs := text.toList
  match readValue (cs.length + 1) nesting cs with
  | some (j, rest) => if (skipBlanks rest).isEmpty then some j else none
  | none => none

def ofText? (text : String) : Option Json := ofTextWithin? maxNesting text

end Nominal.Json
