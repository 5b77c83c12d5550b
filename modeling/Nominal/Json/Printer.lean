import Nominal.Json.Value
/-!
Writing JSON text: no blanks, members in their own order, and in a text only what must be escaped.
-/

namespace Nominal.Json

def hexChar (n : Nat) : Char := if n < 10 then .ofNat ('0'.toNat + n) else .ofNat ('a'.toNat + (n - 10))

def escaped : Char → List Char
  | '"' => ['\\', '"']
  | '\\' => ['\\', '\\']
  | '\x08' => ['\\', 'b']
  | '\x0c' => ['\\', 'f']
  | '\n' => ['\\', 'n']
  | '\r' => ['\\', 'r']
  | '\t' => ['\\', 't']
  | c => if c.toNat < 0x20 then ['\\', 'u', '0', '0', hexChar (c.toNat / 16), hexChar (c.toNat % 16)]
    else [c]

def writeText (text : String) (after : List Char) : List Char :=
  '"' :: (text.toList.flatMap escaped ++ '"' :: after)

def intChars : Int → List Char
  | .ofNat n => Nat.toDigits 10 n
  | .negSucc n => '-' :: Nat.toDigits 10 (n + 1)

mutual

/-- A value in front of what follows it. Fractions and what cannot be read have no text of their own
and are written as `null`. -/
def write : Json → List Char → List Char
  | null, after | fraction, after | unreadable, after => 'n' :: 'u' :: 'l' :: 'l' :: after
  | bool true, after => 't' :: 'r' :: 'u' :: 'e' :: after
  | bool false, after => 'f' :: 'a' :: 'l' :: 's' :: 'e' :: after
  | int n, after => intChars n ++ after
  | str text, after => writeText text after
  | arr [], after => '[' :: ']' :: after
  | arr (j :: rest), after => '[' :: write j (writeItems rest after)
  | obj [], after => '{' :: '}' :: after
  | obj ((name, j) :: rest), after => '{' :: writeText name (':' :: write j (writeMembers rest after))

def writeItems : List Json → List Char → List Char
  | [], after => ']' :: after
  | j :: rest, after => ',' :: write j (writeItems rest after)

def writeMembers : List (String × Json) → List Char → List Char
  | [], after => '}' :: after
  | (name, j) :: rest, after => ',' :: writeText name (':' :: write j (writeMembers rest after))

end

def render (j : Json) : String := .ofList (j.write [])

end Nominal.Json
