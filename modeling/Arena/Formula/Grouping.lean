/-
Sentences of words joined by `iff`, `implies`, `or`, `and` and `not`, and the same with parentheses.
The operators bind in this order, the last one tightest, and group to the left; `not` takes one
word. A missing word is written `None`.
-/
import Arena.Text.Blank
import Arena.Text.Pieces

namespace Arena.Formula.Grouping

/-- What has been grouped, if there was a word at all, and the words behind it. -/
abbrev Grouped := Option String × List String

def shown (g : Option String) : String := g.getD "None"

def word : List String → Grouped
  | [] => (none, [])
  | w :: rest => (some w, rest)

def negation : List String → Grouped
  | "not" :: rest =>
    let (g, rest) := word rest
    (some ("(not " ++ shown g ++ ")"), rest)
  | ws => word ws

def chain (operator : String) (next : List String → Grouped) : Nat → Option String → List String → Grouped
  | n + 1, g, w :: rest =>
    if w = operator then
      let (h, rest) := next rest
      chain operator next n (some ("(" ++ shown g ++ " " ++ operator ++ " " ++ shown h ++ ")")) rest
    else (g, w :: rest)
  | _, g, ws => (g, ws)

def group : List String → List String → Grouped
  | [], ws => negation ws
  | o :: os, ws =>
    let (g, rest) := group os ws
    chain o (group os) rest.length g rest

def operators : List String := ["iff", "implies", "or", "and"]

/-- A sentence with parentheses. What stands behind the first complete sentence is left out. -/
def parenthesize (sentence : String) : Option String := (group operators (Text.words sentence)).1

end Arena.Formula.Grouping
