/-! Numbers in JSON text. Only plain numerals below two to the 64th count as natural
numbers. Every other number is of no use to the program, but one whose size exceeds the
largest binary64 number is not accepted at all, so its size has to be judged: it is held as
a significand of at most 64 bits times a power of ten, both are rounded to 53 bits, and
their product must stay below what rounds to infinity. -/

namespace Predictive.Json

inductive Numeral where
  | natural (n : Nat)
  | other
  | excessive
deriving DecidableEq

namespace Numeral

def digit (c : Char) : Nat := c.toNat - '0'.toNat

def value (ds : List Char) : Nat := ds.foldl (fun n d => 10 * n + digit d) 0

/-- Reads digits into the significand while it fits in 64 bits, and leaves the others. -/
def gather (n : Nat) : List Char → Nat × List Char
  | [] => (n, [])
  | d :: ds =>
    if 10 * n + digit d < Nat.pow 2 64 then gather (10 * n + digit d) ds else (n, d :: ds)

/-- The nearest number of at most 53 significant bits; of two, the one with an even last
bit. -/
def nearest53 (n : Nat) : Nat :=
  if n < Nat.pow 2 53 then n
  else
    let unit := Nat.pow 2 (n.log2 - 52)
    let q := n / unit
    let r := n % unit
    if unit < 2 * r || (unit == 2 * r && q % 2 == 1) then (q + 1) * unit else q * unit

def isExcessive (significand : Nat) (exponent : Int) : Bool :=
  significand != 0 &&
    (308 < exponent ||
      (0 ≤ exponent &&
        Nat.pow 2 1024 - Nat.pow 2 970 ≤
          nearest53 significand * nearest53 (Nat.pow 10 exponent.toNat)))

def ofParts (negative : Bool) (whole : List Char) (fraction : Option (List Char))
    (exponent : Option Int) : Numeral :=
  let head := gather 0 whole
  let tail := gather head.1 (fraction.getD [])
  let shift : Int := head.2.length + tail.2.length - (fraction.getD []).length
  if !negative && fraction.isNone && exponent.isNone && head.2.isEmpty then .natural head.1
  else if isExcessive tail.1 (shift + exponent.getD 0) then .excessive
  else .other

end Numeral

end Predictive.Json
