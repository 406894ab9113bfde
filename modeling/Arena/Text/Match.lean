/-
Matchers: a matcher looks at a place of a text, given by the character before it and those from it
on, and answers what it found and the rest behind it. Searching goes from the left; matches never
overlap.
-/
import Arena.Text.Digit
import Arena.Text.Letter

namespace Arena.Text

/-- What is found at a place, and the rest of the text behind it. -/
abbrev Matcher (α : Type) := Option Char → List Char → Option (α × List Char)

namespace Matcher

variable {α : Type}

/-- Replaces every match; `skip` counts the characters of the current match still to be passed. -/
def replaceFrom (m : Matcher α) (new : α → List Char) : Nat → Option Char → List Char → List Char
  | skip + 1, _, c :: rest => replaceFrom m new skip (some c) rest
  | _ + 1, _, [] => []
  | 0, before, [] =>
    match m before [] with
    | some (a, _) => new a
    | none => []
  | 0, before, c :: rest =>
    match m before (c :: rest) with
    | none => c :: replaceFrom m new 0 (some c) rest
    | some (a, after) =>
      match rest.length + 1 - after.length with
      | 0 => new a ++ c :: replaceFrom m new 0 (some c) rest
      | n + 1 => new a ++ replaceFrom m new n (some c) rest

def replaceAll (m : Matcher α) (new : α → String) (s : String) : String :=
  String.ofList (replaceFrom m (fun a => (new a).toList) 0 none s.toList)

/-- Everything that is found in a text; `skip` counts the characters of the current match still to be
passed. -/
def allFrom (m : Matcher α) : Nat → Option Char → List Char → List α
  | _, _, [] => []
  | skip + 1, _, c :: rest => allFrom m skip (some c) rest
  | 0, before, c :: rest =>
    match m before (c :: rest) with
    | none => allFrom m 0 (some c) rest
    | some (a, after) => a :: allFrom m (rest.length - after.length) (some c) rest

def all (m : Matcher α) (s : String) : List α := allFrom m 0 none s.toList

def firstFrom (m : Matcher α) (passed : List Char) : List Char → Option (List Char × α × List Char)
  | [] => (m passed.head? []).map fun (a, after) => (passed.reverse, a, after)
  | c :: rest =>
    match m passed.head? (c :: rest) with
    | some (a, after) => some (passed.reverse, a, after)
    | none => firstFrom m (c :: passed) rest

def first? (m : Matcher α) (s : String) : Option (String × α × String) :=
  (firstFrom m [] s.toList).map fun (before, a, after) =>
    (String.ofList before, a, String.ofList after)

end Matcher

/-! ## Small matchers -/

def skipBlanks (s : List Char) : List Char := s.dropWhile isBlank

def expect? (c : Char) : List Char → Option (List Char)
  | [] => none
  | d :: rest => if c = d then some rest else none

def digits? (s : List Char) : Option (List Char × List Char) :=
  match s.takeWhile isDigit with
  | [] => none
  | ds => some (ds, s.dropWhile isDigit)

def isBoundary (before after : Option Char) : Bool :=
  before.any isWordChar != after.any isWordChar

def behind? : List Char → List Char → Option (List Char)
  | [], s => some s
  | c :: piece, s => (expect? c s).bind (behind? piece)

def wholeWord (piece : String) : Matcher Unit := fun before s => do
  let rest ← behind? piece.toList s
  let last := if piece.isEmpty then before else piece.toList.getLast?
  if isBoundary before s.head? && isBoundary last rest.head? then some ((), rest) else none

def isNumeral (s : String) : Bool := !s.isEmpty && s.toList.all isDigit

end Arena.Text
