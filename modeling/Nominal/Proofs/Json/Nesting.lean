import Nominal.Json.Printer
import Nominal.Json.Reader
/-!
How deeply brackets stand inside one another in a text, counted on its characters alone. A value is
written with as many brackets open at once as it has levels of arrays and objects.
-/

namespace Nominal.Json

inductive Escape (c : Char) : List Char → Prop where
  | plain : c ≠ '"' → c ≠ '\\' → 0x20 ≤ c.toNat → Escape c [c]
  | letter (d : Char) : d ≠ 'u' → escape? d = some c → Escape c ['\\', d]
  | unit (high low : Nat) : high < 16 → low < 16 → c.toNat = high * 16 + low → c.toNat < 0x20 →
      Escape c ['\\', 'u', '0', '0', hexChar high, hexChar low]

theorem escape_escaped (c : Char) : Escape c (escaped c) := by
  unfold escaped
  split
  case h_8 quote backslash _ _ _ _ _ =>
    split
    case isTrue control => exact .unit _ _ (by omega) (by omega) (by omega) control
    case isFalse printed => exact .plain quote backslash (by omega)
  all_goals exact .letter _ (by decide) rfl

/-- Where one is in a text: outside quotes, between them, or between them after a backslash. -/
inductive Place where
  | outside | quoted | escaping

namespace Place

def next : Place → Char → Place
  | outside, c => if c = '"' then quoted else outside
  | quoted, c => if c = '"' then outside else if c = '\\' then escaping else quoted
  | escaping, _ => quoted

def opened : Place → Nat → Char → Nat
  | outside, n, c =>
    if c = '[' ∨ c = '{' then n + 1 else if c = ']' ∨ c = '}' then n - 1 else n
  | quoted, n, _ | escaping, n, _ => n

end Place

def nestingFrom (p : Place) (n : Nat) : List Char → Nat
  | [] => n
  | c :: cs => max n (nestingFrom (p.next c) (p.opened n c) cs)

/-- The most brackets open at once in a text. -/
def nesting (text : String) : Nat := nestingFrom .outside 0 text.toList

section Nesting

variable {n : Nat} {cs : List Char}

theorem le_nestingFrom (p : Place) (n : Nat) (cs : List Char) : n ≤ nestingFrom p n cs := by
  cases cs with
  | nil => exact Nat.le_refl n
  | cons c cs => exact Nat.le_max_left ..

theorem nestingFrom_skip {p : Place} {c : Char} (same : p.opened n c = n) :
    nestingFrom p n (c :: cs) = nestingFrom (p.next c) n cs := by
  rw [nestingFrom, same, Nat.max_eq_right (le_nestingFrom ..)]

theorem nestingFrom_quoted (c : Char) :
    nestingFrom .quoted n (c :: cs) = nestingFrom (Place.quoted.next c) n cs :=
  nestingFrom_skip rfl

theorem nestingFrom_escaping (c : Char) :
    nestingFrom .escaping n (c :: cs) = nestingFrom .quoted n cs :=
  nestingFrom_skip rfl

theorem nestingFrom_bare (word : List Char) (bare : ∀ c ∈ word, c ∉ ['"', '[', ']', '{', '}']) :
    nestingFrom .outside n (word ++ cs) = nestingFrom .outside n cs := by
  induction word with
  | nil => rfl
  | cons c word ih =>
    have plain := bare c List.mem_cons_self
    simp only [List.mem_cons, List.not_mem_nil, or_false, not_or] at plain
    rw [List.cons_append, nestingFrom_skip (by simp [Place.opened, plain])]
    simp only [Place.next, plain.1, ↓reduceIte]
    exact ih fun d mem => bare d (List.mem_cons_of_mem c mem)

theorem nestingFrom_escaped (c : Char) :
    nestingFrom .quoted n (escaped c ++ cs) = nestingFrom .quoted n cs := by
  have digit : ∀ d < 16, hexChar d ≠ '"' ∧ hexChar d ≠ '\\' := by decide
  have escape := escape_escaped c
  generalize escaped c = written at escape
  cases escape with
  | plain quote backslash => simp [nestingFrom_quoted, Place.next, quote, backslash]
  | letter d => simp [nestingFrom_quoted, nestingFrom_escaping, Place.next]
  | unit high low highDigit lowDigit =>
    simp [nestingFrom_quoted, nestingFrom_escaping, Place.next, digit high highDigit, digit low lowDigit]

theorem nestingFrom_writeText (text : String) :
    nestingFrom .outside n (writeText text cs) = nestingFrom .outside n cs := by
  have quoted (letters : List Char) :
      nestingFrom .quoted n (letters.flatMap escaped ++ '"' :: cs) = nestingFrom .outside n cs := by
    induction letters with
    | nil => exact nestingFrom_quoted '"'
    | cons c letters ih => rw [List.flatMap_cons, List.append_assoc, nestingFrom_escaped, ih]
  rw [writeText, nestingFrom_skip (by simp [Place.opened]), Place.next, if_pos rfl, quoted]

theorem nestingFrom_intChars (i : Int) :
    nestingFrom .outside n (intChars i ++ cs) = nestingFrom .outside n cs := by
  have digits (m : Nat) : ∀ c ∈ Nat.toDigits 10 m, c ∉ ['"', '[', ']', '{', '}'] := by
    intro c mem out
    have digit := Nat.isDigit_of_mem_toDigits (by decide) (by decide) mem
    simp only [List.mem_cons, List.not_mem_nil, or_false] at out
    rcases out with rfl | rfl | rfl | rfl | rfl <;> exact absurd digit (by decide)
  cases i with
  | ofNat m => exact nestingFrom_bare _ (digits m)
  | negSucc m =>
    refine nestingFrom_bare _ fun c mem => ?_
    rcases List.mem_cons.mp mem with rfl | mem
    · decide
    · exact digits (m + 1) c mem

theorem nestingFrom_mark {c : Char} (mark : c = ',' ∨ c = ':') :
    nestingFrom .outside n (c :: cs) = nestingFrom .outside n cs := by
  rcases mark with rfl | rfl <;> exact nestingFrom_skip rfl

theorem nestingFrom_open {c : Char} (bracket : c = '[' ∨ c = '{') :
    nestingFrom .outside n (c :: cs) = nestingFrom .outside (n + 1) cs := by
  have after := le_nestingFrom .outside (n + 1) cs
  rcases bracket with rfl | rfl <;> simp [nestingFrom, Place.next, Place.opened] <;> omega

theorem nestingFrom_close {c : Char} (bracket : c = ']' ∨ c = '}') :
    nestingFrom .outside (n + 1) (c :: cs) = max (n + 1) (nestingFrom .outside n cs) := by
  rcases bracket with rfl | rfl <;> simp [nestingFrom, Place.next, Place.opened]

theorem max_flat {j : Json} (flat : j.depth = 0) :
    max (n + j.depth) (nestingFrom .outside n cs) = nestingFrom .outside n cs := by
  rw [flat, Nat.add_zero, Nat.max_eq_right (le_nestingFrom ..)]

end Nesting

mutual

theorem nestingFrom_write (n : Nat) (after : List Char) : (j : Json) →
    nestingFrom .outside n (j.write after) = max (n + j.depth) (nestingFrom .outside n after)
  | null | fraction | unreadable =>
    (nestingFrom_bare ['n', 'u', 'l', 'l'] (by simp)).trans (max_flat rfl).symm
  | bool true => (nestingFrom_bare ['t', 'r', 'u', 'e'] (by simp)).trans (max_flat rfl).symm
  | bool false => (nestingFrom_bare ['f', 'a', 'l', 's', 'e'] (by simp)).trans (max_flat rfl).symm
  | int i => (nestingFrom_intChars i).trans (max_flat rfl).symm
  | str text => (nestingFrom_writeText text).trans (max_flat rfl).symm
  | arr [] => (nestingFrom_open (.inl rfl)).trans (nestingFrom_close (.inl rfl))
  | arr (j :: rest) => by
    rw [write, nestingFrom_open (.inl rfl), nestingFrom_write, nestingFrom_writeItems, depth, itemsDepth]
    omega
  | obj [] => (nestingFrom_open (.inr rfl)).trans (nestingFrom_close (.inr rfl))
  | obj ((name, j) :: rest) => by
    rw [write, nestingFrom_open (.inr rfl), nestingFrom_writeText, nestingFrom_mark (.inr rfl),
      nestingFrom_write, nestingFrom_writeMembers, depth, membersDepth]
    omega

theorem nestingFrom_writeItems (n : Nat) (after : List Char) : (items : List Json) →
    nestingFrom .outside (n + 1) (writeItems items after) =
      max (n + 1 + itemsDepth items) (nestingFrom .outside n after)
  | [] => nestingFrom_close (.inl rfl)
  | j :: rest => by
    rw [writeItems, nestingFrom_mark (.inl rfl), nestingFrom_write, nestingFrom_writeItems, itemsDepth]
    omega

theorem nestingFrom_writeMembers (n : Nat) (after : List Char) : (members : List (String × Json)) →
    nestingFrom .outside (n + 1) (writeMembers members after) =
      max (n + 1 + membersDepth members) (nestingFrom .outside n after)
  | [] => nestingFrom_close (.inr rfl)
  | (name, j) :: rest => by
    rw [writeMembers, nestingFrom_mark (.inl rfl), nestingFrom_writeText, nestingFrom_mark (.inr rfl),
      nestingFrom_write, nestingFrom_writeMembers, membersDepth]
    omega

end

theorem nesting_render (j : Json) : nesting j.render = j.depth := by
  rw [nesting, render, String.toList_ofList, nestingFrom_write, nestingFrom]
  omega

end Nominal.Json
