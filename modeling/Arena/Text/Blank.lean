/-
White space and lines. A blank is any of the twenty-nine Unicode characters that separate words;
`words` cuts a text at runs of blanks, `trim` drops them at both ends. `lines` cuts a text after
each line feed, with carriage returns read as line feeds.
-/

namespace Arena.Text

def isBlank (c : Char) : Bool :=
  let n := c.toNat
  (9 ≤ n && n ≤ 13) || (28 ≤ n && n ≤ 32) || n == 0x85 || n == 0xA0 || n == 0x1680 ||
    (0x2000 ≤ n && n ≤ 0x200A) || n == 0x2028 || n == 0x2029 || n == 0x202F || n == 0x205F ||
    n == 0x3000

/-- The words of a text; `word` holds the letters of the current word, last letter first. -/
def wordsFrom (word : List Char) : List Char → List (List Char)
  | [] => if word.isEmpty then [] else [word.reverse]
  | c :: rest =>
    if isBlank c then
      if word.isEmpty then wordsFrom [] rest else word.reverse :: wordsFrom [] rest
    else wordsFrom (c :: word) rest

def words (s : String) : List String :=
  (wordsFrom [] s.toList).map String.ofList

def dropLeft (p : Char → Bool) (s : List Char) : List Char := s.dropWhile p

def dropRight (p : Char → Bool) (s : List Char) : List Char := (s.reverse.dropWhile p).reverse

def stripOf (p : Char → Bool) (s : String) : String :=
  String.ofList (dropRight p (dropLeft p s.toList))

def trim (s : String) : String := stripOf isBlank s

def trimRight (s : String) : String := String.ofList (dropRight isBlank s.toList)

def unifyLineEndsList : List Char → List Char
  | [] => []
  | '\r' :: '\n' :: rest => '\n' :: unifyLineEndsList rest
  | c :: rest => (if c = '\r' then '\n' else c) :: unifyLineEndsList rest

def unifyLineEnds (s : String) : String := String.ofList (unifyLineEndsList s.toList)

/-- The lines of a text, each with its line feed; `line` holds the current line, reversed. -/
def linesFrom (line : List Char) : List Char → List (List Char)
  | [] => if line.isEmpty then [] else [line.reverse]
  | c :: rest =>
    if c = '\n' then (c :: line).reverse :: linesFrom [] rest else linesFrom (c :: line) rest

def lines (s : String) : List String := (linesFrom [] s.toList).map String.ofList

def isLineBreak (c : Char) : Bool :=
  let n := c.toNat
  (10 ≤ n && n ≤ 13) || (28 ≤ n && n ≤ 30) || n == 0x85 || n == 0x2028 || n == 0x2029

def brokenLinesFrom (line : List Char) : List Char → List (List Char)
  | [] => if line.isEmpty then [] else [line.reverse]
  | '\r' :: '\n' :: rest => line.reverse :: brokenLinesFrom [] rest
  | c :: rest =>
    if isLineBreak c then line.reverse :: brokenLinesFrom [] rest
    else brokenLinesFrom (c :: line) rest

def brokenLines (s : String) : List String := (brokenLinesFrom [] s.toList).map String.ofList

end Arena.Text
