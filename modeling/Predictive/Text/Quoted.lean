import Predictive.Text.Unprintable

/-! Text between quotes, as reports show it. Quotes and backslashes are escaped, and so are
the characters that could not be seen otherwise, most of them by their number. -/

namespace Predictive.Text

def hexadecimal (n : Nat) : String := .ofList (Nat.toDigits 16 n)

def quotedChar (c : Char) : String :=
  match c with
  | '\x00' => "\\0"
  | '\t' => "\\t"
  | '\n' => "\\n"
  | '\r' => "\\r"
  | '"' => "\\\""
  | '\\' => "\\\\"
  | _ => if isUnprintable c then "\\u\x7b" ++ hexadecimal c.toNat ++ "\x7d" else c.toString

def quoted (text : String) : String := "\"" ++ .join (text.toList.map quotedChar) ++ "\""

example : quoted "a\"\n" = "\"a\\\"\\n\"" := by decide +kernel

end Predictive.Text
