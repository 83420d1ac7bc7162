/-! Splitting text into words. Words are what stands between white space, which is the
Unicode property of that name. -/

namespace Predictive.Text

def isWhiteSpace (c : Char) : Bool :=
  let n := c.toNat
  (0x9 ≤ n && n ≤ 0xd) || n == 0x20 || n == 0x85 || n == 0xa0 || n == 0x1680 ||
    (0x2000 ≤ n && n ≤ 0x200a) || n == 0x2028 || n == 0x2029 || n == 0x202f ||
    n == 0x205f || n == 0x3000

def consWord (word : List Char) (rest : List String) : List String :=
  if word.isEmpty then rest else .ofList word.reverse :: rest

/-- The words of the characters, where `word` is what was read of the first one. -/
def wordsFrom (word : List Char) : List Char → List String
  | [] => consWord word []
  | c :: rest =>
    if isWhiteSpace c then consWord word (wordsFrom [] rest) else wordsFrom (c :: word) rest

def words (text : String) : List String := wordsFrom [] text.toList

example : words " a  bc\t" = ["a", "bc"] := by decide

end Predictive.Text
