/-! JSON values as the program writes them, and their two written forms: one line without
blanks, or one line for each item with two blanks for each level. Fields stand in the order
in which they are given. A value is written in front of the text that follows it, character
by character, which is how a reader takes it apart again. -/

namespace Predictive

inductive Json where
  | null
  | number (n : Nat)
  | text (s : String)
  | list (items : List Json)
  | object (fields : List (String × Json))

namespace Json

inductive Style where
  | compact
  | spread

namespace Style

def gap (level : Nat) : Style → List Char
  | compact => []
  | spread => '\n' :: List.replicate (2 * level) ' '

def colon : Style → List Char
  | compact => [':']
  | spread => [':', ' ']

end Style

def hexDigit (n : Nat) : Char := Nat.digitChar (n % 16)

def escape (c : Char) : List Char :=
  match c with
  | '"' => ['\\', '"']
  | '\\' => ['\\', '\\']
  | '\x08' => ['\\', 'b']
  | '\x0c' => ['\\', 'f']
  | '\n' => ['\\', 'n']
  | '\r' => ['\\', 'r']
  | '\t' => ['\\', 't']
  | _ =>
    if c.toNat < 0x20 then ['\\', 'u', '0', '0', hexDigit (c.toNat / 16), hexDigit c.toNat]
    else [c]

def quote (s : String) (after : List Char) : List Char :=
  '"' :: (s.toList.flatMap escape ++ '"' :: after)

def comma {α : Type} (others : List α) (after : List Char) : List Char :=
  if others.isEmpty then after else ',' :: after

mutual

def write (style : Style) (level : Nat) : Json → List Char → List Char
  | null, after => 'n' :: 'u' :: 'l' :: 'l' :: after
  | number n, after => Nat.toDigits 10 n ++ after
  | text s, after => quote s after
  | list items, after =>
    if items.isEmpty then '[' :: ']' :: after
    else '[' :: writeItems style (level + 1) items (style.gap level ++ ']' :: after)
  | object fields, after =>
    if fields.isEmpty then '{' :: '}' :: after
    else '{' :: writeFields style (level + 1) fields (style.gap level ++ '}' :: after)

def writeItems (style : Style) (level : Nat) : List Json → List Char → List Char
  | [], after => after
  | j :: rest, after =>
    style.gap level ++ write style level j (comma rest (writeItems style level rest after))

def writeFields (style : Style) (level : Nat) : List (String × Json) → List Char → List Char
  | [], after => after
  | (k, j) :: rest, after =>
    style.gap level ++ quote k (style.colon ++
      write style level j (comma rest (writeFields style level rest after)))

end

def compact (j : Json) : String := .ofList (write .compact 0 j [])

def spread (j : Json) : String := .ofList (write .spread 0 j [])

end Json

end Predictive
