/-!
# Blanks

White space as names and values see it: the characters with the Unicode property White_Space.

* `isBlank`: the property.
* `trim`: a text without blanks at either end; `words`: its maximal runs of other characters.
* `fold`: the words joined by one space, so that only the inner breaks count.
-/

namespace Directory.Text

/-- The characters with the property White_Space. -/
def isBlank (c : Char) : Bool :=
  let n := c.toNat
  (9 ≤ n && n ≤ 13) || n == 0x20 || n == 0x85 || n == 0xa0 || n == 0x1680 ||
    (0x2000 ≤ n && n ≤ 0x200a) || n == 0x2028 || n == 0x2029 || n == 0x202f || n == 0x205f ||
    n == 0x3000

/-- The list without blanks at either end. -/
def trimChars (cs : List Char) : List Char :=
  ((cs.dropWhile isBlank).reverse.dropWhile isBlank).reverse

/-- The text without blanks at either end. -/
def trim (s : String) : String := String.ofList (trimChars s.toList)

/-- The words of `cs`, where `word` holds the letters just read, last first. -/
def wordsFrom (word : List Char) : List Char → List (List Char)
  | [] => if word.isEmpty then [] else [word.reverse]
  | c :: cs =>
    if isBlank c then
      if word.isEmpty then wordsFrom [] cs else word.reverse :: wordsFrom [] cs
    else wordsFrom (c :: word) cs

/-- The maximal runs of characters that are not blank. -/
def words (cs : List Char) : List (List Char) := wordsFrom [] cs

/-- The words joined by single spaces. -/
def foldChars (cs : List Char) : List Char := [' '].intercalate (words cs)

/-- The text with its words joined by single spaces. -/
def fold (s : String) : String := String.ofList (foldChars s.toList)

end Directory.Text
