/-
Markup documents: elements with a tag, the text before their first child, and children. Only well
formed ones are read: tags are closed in order, attributes are quoted and not repeated, references
are known, and names with a colon belong to a declared space of names.
-/
import Arena.Data.Expression
import Arena.Text.Match

namespace Arena.Markup

/-- An element. Of the texts between its children only the first is kept. -/
inductive Element where
  | mk (tag : String) (text : Option String) (children : List Element)

namespace Element

def tag : Element → String
  | mk t _ _ => t

def text : Element → Option String
  | mk _ s _ => s

def children : Element → List Element
  | mk _ _ cs => cs

def withTag (e : Element) (tag : String) : List Element := e.children.filter (·.tag == tag)

def child? (e : Element) (tag : String) : Option Element := e.children.find? (·.tag == tag)

end Element

/-! ## Characters and names -/

def isAllowed (c : Char) : Bool :=
  let n := c.toNat
  (32 ≤ n && n ≠ 0xfffe && n ≠ 0xffff) || n = 9 || n = 10 || n = 13

def isSpace (c : Char) : Bool := c == ' ' || c == '\t' || c == '\n' || c == '\r'

def skipSpace (s : List Char) : List Char := s.dropWhile isSpace

def startsName (c : Char) : Bool := c == '_' || c == ':' || Text.isLetter c

def isNameChar (c : Char) : Bool :=
  startsName c || c == '-' || c == '.' || c == '·' || Text.isLetterOrNumeral c

def name? (s : List Char) : Option (String × List Char) :=
  match s with
  | c :: _ =>
    if startsName c then some (String.ofList (s.takeWhile isNameChar), s.dropWhile isNameChar) else none
  | [] => none

def upTo? (mark : String) (s : List Char) : Option (List Char × List Char) :=
  Text.cutFrom mark.toList [] s

/-! ## References -/

def entities : List (String × Char) :=
  [("amp", '&'), ("lt", '<'), ("gt", '>'), ("quot", '"'), ("apos", '\'')]

def referenced? (body : List Char) : Option Char := do
  match body with
  | '#' :: 'x' :: ds =>
    if ds.isEmpty then none
    let n ← Expression.hexValue? ds
    if n.isValidChar && isAllowed (Char.ofNat n) then some (Char.ofNat n) else none
  | '#' :: ds =>
    if ds.isEmpty || !ds.all Char.isDigit then none
    let n ← (String.ofList ds).toNat?
    if n.isValidChar && isAllowed (Char.ofNat n) then some (Char.ofNat n) else none
  | body => (entities.find? (·.1 == String.ofList body)).map (·.2)

/-! ## Attributes -/

/-- The text of an attribute up to its closing quote, with references resolved. The number bounds the
characters. -/
def quoted? (quote : Char) : Nat → List Char → Option (List Char × List Char)
  | 0, _ => none
  | n + 1, s =>
    match s with
    | [] => none
    | '&' :: rest => do
      let (body, rest) ← upTo? ";" rest
      let c ← referenced? body
      let (more, rest) ← quoted? quote n rest
      return (c :: more, rest)
    | c :: rest =>
      if c = quote then some ([], rest)
      else if c = '<' || !isAllowed c then none
      else do
        let (more, rest) ← quoted? quote n rest
        return ((if isSpace c then ' ' else c) :: more, rest)

/-- The attributes of a tag, and the rest from its end on. The number bounds the attributes. -/
def attributes? : Nat → List (String × String) → List Char → Option (List (String × String) × List Char)
  | 0, _, _ => none
  | n + 1, done, s =>
    let rest := skipSpace s
    match name? rest with
    | none => some (done, rest)
    | some (key, rest) => do
      if !(s.head?.any isSpace) || done.any (·.1 == key) then none
      match skipSpace rest with
      | '=' :: rest =>
        match skipSpace rest with
        | q :: rest =>
          if q ≠ '"' && q ≠ '\'' then none
          let (value, rest) ← quoted? q (rest.length + 1) rest
          attributes? n (done ++ [(key, String.ofList value)]) rest
        | [] => none
      | _ => none

/-! ## Spaces of names -/

/-- Spaces of names by their marks; the empty mark stands for names without a colon. -/
abbrev Spaces := List (String × String)

def Spaces.inside (spaces : Spaces) (attributes : List (String × String)) : Spaces :=
  attributes.foldl (fun spaces (key, value) =>
    if key = "xmlns" then ("", value) :: spaces
    else match Text.cut? ":" key with
      | some ("xmlns", mark) => (mark, value) :: spaces
      | _ => spaces) spaces

def Spaces.resolve? (spaces : Spaces) (name : String) : Option String := do
  let find (mark : String) : Option String := (List.find? (·.1 == mark) spaces).map (·.2)
  match Text.cut? ":" name with
  | none =>
    match (find "").getD "" with
    | "" => some name
    | uri => some ("\x7b" ++ uri ++ "\x7d" ++ name)
  | some (mark, local_) =>
    if mark = "" || local_ = "" || Text.contains local_ ":" then none
    if mark = "xml" then some ("\x7bxml\x7d" ++ local_)
    else
      let uri ← find mark
      some ("\x7b" ++ uri ++ "\x7d" ++ local_)

/-! ## Remarks -/

def remark? (s : List Char) : Option (List Char) :=
  match s with
  | '<' :: '!' :: '-' :: '-' :: rest => do
    let (body, rest) ← upTo? "--" rest
    if !body.all isAllowed then none
    Text.expect? '>' rest
  | '<' :: '?' :: rest => do
    let (target, rest) ← name? rest
    if Text.contains target ":" || target.toList.map Char.toLower = ['x', 'm', 'l'] then none
    let (body, after) ← upTo? "?>" rest
    if !body.all isAllowed || !(body.isEmpty || body.head?.any isSpace) then none
    return after
  | _ => none

/-- The rest behind blanks and remarks. The number bounds the remarks. -/
def skipRemarks : Nat → List Char → List Char
  | 0, s => s
  | n + 1, s =>
    match remark? (skipSpace s) with
    | some rest => skipRemarks n rest
    | none => skipSpace s

/-! ## Elements -/

/-- What has been read of an element: its text so far, reversed, and its children so far, reversed. -/
structure Draft where
  text : List Char := []
  children : List Element := []

/-- Adds characters; behind a child they are dropped. -/
def Draft.addText (d : Draft) (cs : List Char) : Draft :=
  if d.children.isEmpty then { d with text := cs.reverse ++ d.text } else d

def Draft.finish (d : Draft) (tag : String) : Element :=
  .mk tag (if d.text.isEmpty then none else some (String.ofList d.text.reverse)) d.children.reverse

mutual

def element? : Nat → Spaces → List Char → Option (Element × List Char)
  | fuel + 1, spaces, '<' :: s => do
    let (name, rest) ← name? s
    let (attributes, rest) ← attributes? (rest.length + 1) [] rest
    let spaces := spaces.inside attributes
    let tag ← spaces.resolve? name
    let _ ← attributes.mapM fun (key, _) =>
      if key = "xmlns" || Text.startsWith key "xmlns:" || !Text.contains key ":" then some key
      else spaces.resolve? key
    match rest with
    | '/' :: '>' :: rest => return (.mk tag none [], rest)
    | '>' :: rest =>
      let (d, rest) ← content? fuel spaces name {} rest
      return (d.finish tag, rest)
    | _ => none
  | _, _, _ => none

def content? : Nat → Spaces → String → Draft → List Char → Option (Draft × List Char)
  | 0, _, _, _, _ => none
  | fuel + 1, spaces, name, d, s =>
    match s with
    | '<' :: '/' :: rest => do
      let (closing, rest) ← name? rest
      let rest ← Text.expect? '>' (skipSpace rest)
      if closing = name then some (d, rest) else none
    | '<' :: '!' :: '[' :: 'C' :: 'D' :: 'A' :: 'T' :: 'A' :: '[' :: rest => do
      let (body, rest) ← upTo? "]]>" rest
      if !body.all isAllowed then none
      content? fuel spaces name (d.addText body) rest
    | '<' :: '!' :: rest => do content? fuel spaces name d (← remark? ('<' :: '!' :: rest))
    | '<' :: '?' :: rest => do content? fuel spaces name d (← remark? ('<' :: '?' :: rest))
    | '<' :: rest => do
      let (e, rest) ← element? fuel spaces ('<' :: rest)
      content? fuel spaces name { d with children := e :: d.children } rest
    | '&' :: rest => do
      let (body, rest) ← upTo? ";" rest
      content? fuel spaces name (d.addText [← referenced? body]) rest
    | ']' :: ']' :: '>' :: _ => none
    | c :: rest => if isAllowed c then content? fuel spaces name (d.addText [c]) rest else none
    | [] => none

end

/-! ## Documents -/

def declaration? (s : List Char) : Option (List Char) :=
  match s with
  | '<' :: '?' :: 'x' :: 'm' :: 'l' :: rest =>
    if rest.head?.any isSpace then do
      let (attributes, rest) ← attributes? (rest.length + 1) [] rest
      if attributes.head?.map (·.1) ≠ some "version" then none
      Text.behind? ['?', '>'] rest
    else some s
  | _ => some s

def documentType? (s : List Char) : Option (List Char) :=
  match Text.behind? "<!DOCTYPE".toList s with
  | none => some s
  | some rest => do
    let (body, rest) ← upTo? ">" rest
    if body.any (fun c => c == '[' || c == '<') || !body.head?.any isSpace then none
    let _ ← name? (skipSpace body)
    return rest

def read? (document : String) : Option Element := do
  let s := (Text.unifyLineEnds document).toList
  let s := if s.head? = some (Char.ofNat 0xfeff) then s.tail else s
  let fuel := 2 * s.length + 2
  let s ← declaration? s
  let s ← documentType? (skipRemarks fuel s)
  let (e, rest) ← element? fuel [] (skipRemarks fuel s)
  if (skipRemarks fuel rest).isEmpty then some e else none

def read (document : String) : Outcome Element := orFault .markup (read? document)

end Arena.Markup
