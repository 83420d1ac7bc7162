import Predictive.Json.Numeral
import Predictive.Symbol.Reader

/-! JSON text as a reader finds it, up to the first place where it is no JSON. An outline is
a value in which that place is a torn leaf, or a list or object that does not close; what
follows a tear is not looked at. A reader that wants a certain shape walks the outline in
the order of the text, so it meets its own complaints and the tear in the right order.
Values that a reader passes over are judged more leniently than those it reads, so a tear
says what it means to either. -/

namespace Predictive.Json

/-- What is wrong with a text: it is no JSON, it ends too early, or it is JSON of another
shape than the one asked for, possibly because a symbol in it was refused. -/
inductive Fault where
  | malformed
  | ended
  | shape (cause : Option GrammarError)
deriving DecidableEq

structure Tear where
  read : Fault
  passed : Fault
deriving DecidableEq

namespace Tear

def malformed : Tear := ⟨.malformed, .malformed⟩

def ended : Tear := ⟨.ended, .ended⟩

/-- A number that ends where a digit must follow; only a reader tells the two cases apart. -/
def digitMissing : List Char → Tear
  | [] => ⟨.ended, .malformed⟩
  | _ :: _ => malformed

end Tear

/-- A text is absent if it holds half of a surrogate pair, which may be passed over but not
read. A list or object that closes has no tear of its own. -/
inductive Outline where
  | null
  | boolean
  | number (n : Numeral)
  | text (s : Option String)
  | list (items : List Outline) (tear : Option Tear)
  | object (fields : List (Option String × Outline)) (tear : Option Tear)
  | torn (tear : Tear)

/-- The characters read of a text, the latest first. The first half of a surrogate pair
waits for the second; without it the text is spoilt. -/
inductive Spelling where
  | sound (done : List Char)
  | waiting (half : Nat) (done : List Char)
  | spoilt

namespace Spelling

def isFirstHalf (u : Nat) : Bool := 0xd800 ≤ u && u < 0xdc00

def isSecondHalf (u : Nat) : Bool := 0xdc00 ≤ u && u < 0xe000

def addChar (c : Char) : Spelling → Spelling
  | sound done => sound (c :: done)
  | _ => spoilt

def addUnit (u : Nat) : Spelling → Spelling
  | sound done =>
    if isFirstHalf u then waiting u done
    else if isSecondHalf u then spoilt
    else sound (Char.ofNat u :: done)
  | waiting half done =>
    if isSecondHalf u then
      sound (Char.ofNat (0x10000 + (half - 0xd800) * 0x400 + (u - 0xdc00)) :: done)
    else spoilt
  | spoilt => spoilt

def close : Spelling → Option String
  | sound done => some (.ofList done.reverse)
  | _ => none

def unclosed : Spelling → Tear
  | spoilt => ⟨.malformed, .ended⟩
  | _ => .ended

end Spelling

def hexValue? (c : Char) : Option Nat :=
  if c.isDigit then some (c.toNat - '0'.toNat)
  else if 'a' ≤ c && c ≤ 'f' then some (c.toNat - 'a'.toNat + 10)
  else if 'A' ≤ c && c ≤ 'F' then some (c.toNat - 'A'.toNat + 10)
  else none

def unit? (a b c d : Char) : Option Nat := do
  return (← hexValue? a) * 0x1000 + (← hexValue? b) * 0x100 + (← hexValue? c) * 0x10 +
    (← hexValue? d)

def escaped? : Char → Option Char
  | '"' => some '"'
  | '\\' => some '\\'
  | '/' => some '/'
  | 'b' => some '\x08'
  | 'f' => some '\x0c'
  | 'n' => some '\n'
  | 'r' => some '\r'
  | 't' => some '\t'
  | _ => none

/-- Fewer than four characters are left for a character's number: four bytes of them are
still enough to see that they are no number. -/
def shortUnit (rest : List Char) (spelling : Spelling) : Tear :=
  if 4 ≤ rest.foldl (fun n c => n + c.utf8Size) 0 then .malformed else spelling.unclosed

def scanText (spelling : Spelling) : List Char → Except Tear (Option String × List Char)
  | [] => .error spelling.unclosed
  | '"' :: rest => .ok (spelling.close, rest)
  | '\\' :: 'u' :: a :: b :: c :: d :: rest =>
    match unit? a b c d with
    | some u => scanText (spelling.addUnit u) rest
    | none => .error .malformed
  | '\\' :: 'u' :: rest => .error (shortUnit rest spelling)
  | '\\' :: c :: rest =>
    match escaped? c with
    | some e => scanText (spelling.addChar e) rest
    | none => .error .malformed
  | '\\' :: [] => .error spelling.unclosed
  | c :: rest =>
    if c.toNat < 0x20 then .error .malformed else scanText (spelling.addChar c) rest

def isBlank (c : Char) : Bool := c == ' ' || c == '\n' || c == '\t' || c == '\r'

def skipBlanks (cs : List Char) : List Char := cs.dropWhile isBlank

def scanDigits (cs : List Char) : List Char × List Char := cs.span Char.isDigit

def scanExponent (cs : List Char) : Except Tear (Option Int × List Char) :=
  match cs with
  | [] => .ok (none, [])
  | c :: rest =>
    if c == 'e' || c == 'E' then
      let negative := rest.head? == some '-'
      let unsigned := if negative || rest.head? == some '+' then rest.tail else rest
      match scanDigits unsigned with
      | ([], rest) => .error (.digitMissing rest)
      | (ds, rest) =>
        let n : Int := Numeral.value ds
        .ok (some (if negative then -n else n), rest)
    else .ok (none, c :: rest)

def scanFraction (cs : List Char) : Except Tear (Option (List Char) × List Char) :=
  match cs with
  | '.' :: rest =>
    match scanDigits rest with
    | ([], rest) => .error (.digitMissing rest)
    | (ds, rest) => .ok (some ds, rest)
  | _ => .ok (none, cs)

def scanNumber (negative : Bool) (cs : List Char) : Except Tear (Numeral × List Char) := do
  match scanDigits cs with
  | ([], rest) => .error (.digitMissing rest)
  | ('0' :: _ :: _, _) => .error .malformed
  | (whole, rest) =>
    let (fraction, rest) ← scanFraction rest
    let (exponent, rest) ← scanExponent rest
    return (.ofParts negative whole fraction exponent, rest)

def scanWord : List Char → List Char → Except Tear (List Char)
  | [], cs => .ok cs
  | _ :: _, [] => .error .ended
  | w :: ws, c :: cs => if w = c then scanWord ws cs else .error .malformed

def leaf {α : Type} (f : α → Outline) :
    Except Tear (α × List Char) → Outline × Option (List Char)
  | .ok (a, rest) => (f a, some rest)
  | .error t => (.torn t, none)

mutual

def scanValue : Nat → List Char → Outline × Option (List Char)
  | 0, _ => (.torn .malformed, none)
  | fuel + 1, cs =>
    match skipBlanks cs with
    | [] => (.torn .ended, none)
    | '"' :: rest => leaf .text (scanText (.sound []) rest)
    | '[' :: rest =>
      let (items, tear, after) := scanItems fuel true rest
      (.list items tear, after)
    | '{' :: rest =>
      let (fields, tear, after) := scanFields fuel true rest
      (.object fields tear, after)
    | '-' :: rest => leaf .number (scanNumber true rest)
    | 'n' :: rest => leaf (fun _ => .null) ((scanWord "ull".toList rest).map ((), ·))
    | 't' :: rest => leaf (fun _ => .boolean) ((scanWord "rue".toList rest).map ((), ·))
    | 'f' :: rest => leaf (fun _ => .boolean) ((scanWord "alse".toList rest).map ((), ·))
    | c :: rest =>
      if c.isDigit then leaf .number (scanNumber false (c :: rest))
      else (.torn .malformed, none)

/-- The items up to the closing bracket; all but the first one follow a comma. A comma
without an item leaves a torn item. -/
def scanItems : Nat → Bool → List Char → List Outline × Option Tear × Option (List Char)
  | 0, _, _ => ([], some .malformed, none)
  | fuel + 1, first, cs =>
    match skipBlanks cs with
    | [] => ([], some .ended, none)
    | ']' :: rest => ([], none, some rest)
    | c :: rest =>
      if first then scanItem fuel (c :: rest)
      else if c = ',' then scanItem fuel rest
      else ([], some .malformed, none)

def scanItem : Nat → List Char → List Outline × Option Tear × Option (List Char)
  | 0, _ => ([], some .malformed, none)
  | fuel + 1, cs =>
    match scanValue fuel cs with
    | (item, none) => ([item], some .malformed, none)
    | (item, some rest) =>
      let (items, tear, after) := scanItems fuel false rest
      (item :: items, tear, after)

def scanFields :
    Nat → Bool → List Char → List (Option String × Outline) × Option Tear × Option (List Char)
  | 0, _, _ => ([], some .malformed, none)
  | fuel + 1, first, cs =>
    match skipBlanks cs with
    | [] => ([], some .ended, none)
    | '}' :: rest => ([], none, some rest)
    | c :: rest =>
      if first then scanField fuel (c :: rest)
      else if c = ',' then scanField fuel rest
      else ([], some .malformed, none)

def scanField :
    Nat → List Char → List (Option String × Outline) × Option Tear × Option (List Char)
  | 0, _ => ([], some .malformed, none)
  | fuel + 1, cs =>
    match skipBlanks cs with
    | [] => ([], some .ended, none)
    | '"' :: rest =>
      match scanText (.sound []) rest with
      | .error t => ([], some t, none)
      | .ok (key, rest) =>
        match skipBlanks rest with
        | ':' :: rest =>
          match scanValue fuel rest with
          | (value, none) => ([(key, value)], some .malformed, none)
          | (value, some rest) =>
            let (fields, tear, after) := scanFields fuel false rest
            ((key, value) :: fields, tear, after)
        | [] => ([(key, .torn .ended)], some .malformed, none)
        | _ :: _ => ([(key, .torn .malformed)], some .malformed, none)
    | _ :: _ => ([], some .malformed, none)

end

/-- Three steps of fuel are spent on each character at most. -/
def Outline.ofText (text : String) : Outline × Option (List Char) :=
  let cs := text.toList
  scanValue (3 * cs.length + 3) cs

end Predictive.Json
