/-
A quick look at a formula as it is typed. Words for operators become signs, the text is cut at the
signs, and each piece gets a kind. The outline tells whether the pieces may stand side by side; a
text with unbalanced brackets has none.
-/
import Arena.Text.Pieces

namespace Arena.Formula

inductive PieceKind where
  | operand
  | binary
  /-- A prefix operator or an opening bracket. -/
  | opening
  | closing
  deriving DecidableEq, Repr

namespace PieceKind

def name : PieceKind → String
  | operand => "AP"
  | binary => "D"
  | opening => "R"
  | closing => "L"

def mayPrecede : PieceKind → PieceKind → Bool
  | operand, k => k = binary || k = closing
  | closing, k => k = binary
  | _, k => k = operand || k = opening

end PieceKind

structure Outline where
  pieces : List String
  kinds : List PieceKind
  deriving DecidableEq, Repr

namespace Outline

/-- Words and signs with the signs that stand for them; blanks are dropped. -/
def spellings : List (String × String) :=
  [(" ", ""), ("||", "|"), ("&&", "&"), ("or", "|"), ("and", "&"), ("implies", ">"), ("->", ">"),
    ("next", "X"), ("eventually", "F"), ("always", "G")]

def signKind? (c : Char) : Option PieceKind :=
  if c == ')' || c == ']' then some .closing
  else if "XFG([".toList.contains c then some .opening
  else if "|&UR>".toList.contains c then some .binary
  else none

/-- Cuts a text at its signs; `word` is the current word, reversed. The last word is kept even if it
is empty. -/
def cut (word : List Char) : List Char → List (List Char)
  | [] => [word.reverse]
  | c :: rest =>
    if (signKind? c).isSome then
      (if word.isEmpty then [] else [word.reverse]) ++ [c] :: cut [] rest
    else cut (c :: word) rest

def kindOf : List Char → PieceKind
  | [c] => (signKind? c).getD .operand
  | _ => .operand

def balance (pieces : List (List Char)) : Int :=
  (pieces.map fun
    | ['('] => 1
    | ['['] => 1
    | [')'] => -1
    | [']'] => -1
    | _ => (0 : Int)).foldl (· + ·) 0

/-- The outline of a formula; none if its brackets do not balance. -/
def read? (formula : String) : Option Outline :=
  let s := spellings.foldl (fun s (old, new) => Text.replace old new s) formula
  let pieces := cut [] s.toList
  if balance pieces ≠ 0 then none
  else some ⟨pieces.map String.ofList, pieces.map kindOf⟩

def fitTogether : List PieceKind → Bool
  | a :: b :: rest => a.mayPrecede b && fitTogether (b :: rest)
  | _ => true

/-- Whether the pieces may stand beside each other, the first one at the beginning and the last one
at the end. -/
def isPlausible (o : Outline) : Bool :=
  (o.kinds.head?.any fun k => k = .operand || k = .closing) && fitTogether o.kinds &&
    (o.kinds.getLast?.any fun k => k = .operand || k = .closing)

end Outline

end Arena.Formula
