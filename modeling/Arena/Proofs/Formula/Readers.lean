/-
Reading a text with the lexicon of another language. Texts of words, signs and parentheses in which no word begins with
a keyword are cut into the same tokens by all lexicons that have words. Beyond them the lexicon matters: each language
has a text that only its own lexicon reads as it should be read.
-/
import Arena.Proofs.Checker.Propositional
import Arena.Proofs.Text.Lines

namespace Arena.Formula

open List Logic Text

open Checker (IsPropositionalChar literal_none lower_bounds)

variable {c : Char} {w : String} {ws : List String} {s lexeme rest : List Char} {l reader : Logic} {p : Char → Bool}
  {kind : TokenKind} {language : Logic} {r : Rule}

/-! ## Words without keywords -/

/-- The words that some lexicon reads before it reads propositions. -/
def keywords : List String :=
  ["globally", "always", "implies", "eventually", "or", "and", "forall", "until", "exist", "next", "release", "false",
    "true", "weak", "kcap"]

def startsPlain (s : List Char) : Bool := keywords.all fun w => !w.toList.isPrefixOf s

/-- Whether no word of a text begins with a keyword; `inside` says whether a letter stands before the text. -/
def plainWords (inside : Bool) : List Char → Bool
  | [] => true
  | c :: rest => (inside || startsPlain (c :: rest)) && plainWords c.isLower rest

theorem plainWords_dropWhile : ∀ {s : List Char}, plainWords true s = true →
    plainWords true (s.dropWhile Char.isLower) = true
  | [], h => h
  | c :: s, h => by
    by_cases hc : c.isLower = true
    · have hs : plainWords true s = true := by simpa [plainWords, hc] using h
      rw [dropWhile_cons_of_pos hc]
      exact plainWords_dropWhile hs
    · rwa [dropWhile_cons_of_neg hc]

theorem startsPlain_of_not_lower (hc : c.isLower = false) (s : List Char) : startsPlain (c :: s) = true := by
  have hfirst : ∀ w ∈ keywords, w.toList.head?.any Char.isLower = true := by decide
  refine all_eq_true.2 fun w hw => ?_
  have hw := hfirst w hw
  cases hlist : w.toList with
  | nil =>
    rw [hlist] at hw
    cases hw
  | cons d ds =>
    rw [hlist] at hw
    have hd : d.isLower = true := hw
    have hne : d ≠ c := fun e => by simp [e, hc] at hd
    simp [isPrefixOf, hne]

theorem plainWords_outside : ∀ {s : List Char}, (∀ c ∈ s.head?, c.isLower = false) → plainWords true s = true →
    plainWords false s = true
  | [], _, h => h
  | c :: s, hc, h => by
    have hs : plainWords c.isLower s = true := by simpa [plainWords] using h
    simp only [plainWords, startsPlain_of_not_lower (hc c rfl), hs, Bool.false_or, Bool.and_true]

/-! ## Rules at the beginning of a word -/

/-- A matcher that reads nothing where a word begins. -/
def Silent (m : Matcher) : Prop :=
  ∀ c rest, c.isLower = true → startsPlain (c :: rest) = true → m (c :: rest) = none

/-- A matcher that reads a word of letters as it is. -/
def ReadsWord (m : Matcher) : Prop :=
  ∀ c rest, c.isLower = true → (∀ x ∈ c :: rest, IsPropositionalChar x) →
    ∃ behind, m (c :: rest) = some ((c :: rest).takeWhile Char.isLower, behind)

theorem literal_of_head (hw : w.toList.head?.any (fun d => !p d) = true) (hc : p c = true)
    (rest : List Char) : literal w (c :: rest) = none := by
  cases hlist : w.toList with
  | nil =>
    rw [hlist] at hw
    cases hw
  | cons d ds =>
    rw [hlist] at hw
    have hd : p d = false := by simpa using hw
    exact literal_none hlist (fun e => by simp [← e, hc] at hd) rest

theorem silent_literal (hw : w ∈ keywords ∨ w.toList.head?.any (fun d => !d.isLower) = true) : Silent (literal w) := by
  intro c rest hc hplain
  rcases hw with hw | hw
  · have hnot := all_eq_true.1 hplain w hw
    simp only [Bool.not_eq_true'] at hnot
    simp [literal, hnot]
  · exact literal_of_head hw hc rest

theorem silent_oneOf (h : ∀ w ∈ ws, w ∈ keywords ∨ w.toList.head?.any (fun d => !d.isLower) = true) :
    Silent (oneOf ws) := by
  intro c rest hc hplain
  refine firstOf_eq_none fun m hm => ?_
  obtain ⟨w, hw, rfl⟩ := mem_map.1 hm
  exact silent_literal (h w hw) c rest hc hplain

theorem silent_sequence (hw : w.toList.head?.any (fun d => !d.isLower) = true) (ms : List Matcher) :
    Silent (sequence (literal w :: ms)) := by
  intro c rest hc _
  simp only [sequence, literal_of_head hw hc rest]

theorem not_digit (hc : IsPropositionalChar c) : isDigit c = false := by
  have hsigns : ∀ d ∈ " ()!&|->".toList, isDigit d = false := by decide
  rcases hc with hc | hc
  · obtain ⟨hlow, hup⟩ := lower_bounds hc
    have hnot : ¬ (48 ≤ c.toNat ∧ c.toNat ≤ 57) := by omega
    simp [isDigit, digitValue?, show c.toNat < 128 by omega, hnot]
  · exact hsigns c hc

theorem not_ascii_digit (hc : IsPropositionalChar c) : c.isDigit = false := by
  have hdecimals : ∀ d ∈ decimals, isDigit d = true := by decide
  cases hd : c.isDigit with
  | false => rfl
  | true =>
    have hdigit := hdecimals c (mem_decimals hd)
    rw [not_digit hc] at hdigit
    exact hdigit.symm

theorem silent_digits : Silent (run Char.isDigit) := by
  intro c rest hc _
  simp [run, not_ascii_digit (.inl hc)]

theorem takeWhile_lower (hp : ∀ c, IsPropositionalChar c → p c = c.isLower)
    (hs : ∀ x ∈ s, IsPropositionalChar x) : s.takeWhile p = s.takeWhile Char.isLower := by
  induction s with
  | nil => rfl
  | cons x s ih =>
    obtain ⟨hx, hs⟩ := forall_mem_cons.1 hs
    simp only [takeWhile_cons, hp x hx, ih hs]

theorem readsWord_run (hp : ∀ c, IsPropositionalChar c → p c = c.isLower) : ReadsWord (run p) := by
  intro c rest hc hchars
  refine ⟨(c :: rest).dropWhile p, ?_⟩
  unfold run
  rw [takeWhile_lower hp hchars, takeWhile_cons_of_pos hc]
  rfl

theorem readsWord_digits : ReadsWord (sequence [run Char.isLower, anyRun isDigit]) := by
  intro c rest hc hchars
  have hnone : ((c :: rest).dropWhile Char.isLower).takeWhile isDigit = [] := by
    cases hd : (c :: rest).dropWhile Char.isLower with
    | nil => rfl
    | cons x tail =>
      have hx : x ∈ c :: rest := (dropWhile_sublist _).subset (hd ▸ mem_cons_self)
      rw [takeWhile_cons_of_neg (by simp [not_digit (hchars x hx)])]
  refine ⟨((c :: rest).dropWhile Char.isLower).dropWhile isDigit, ?_⟩
  simp only [sequence, run, takeWhile_cons_of_pos hc, isEmpty_cons, Bool.false_eq_true, if_false,
    anyRun, hnone, append_nil]

/-! ## Lexicons on plain texts -/

namespace Lexicon

/-- The rules of a lexicon behind the first one of a kind. -/
def behind (l : Logic) (kind : TokenKind) : Lexicon := (l.lexicon.dropWhile fun r => r.kind != kind).tail

theorem front?_append_of_silent {bs : Lexicon} {s behind : List Char} : ∀ {as : Lexicon},
    (∀ a ∈ as, a.reads s = none) → r.reads s = some (lexeme, behind) →
      front? (as ++ r :: bs) s = some (r.kind, lexeme)
  | [], _, hr => by simp only [nil_append, front?, hr]
  | a :: as, has, hr => by
    obtain ⟨ha, has⟩ := forall_mem_cons.1 has
    simp only [cons_append, front?, ha]
    exact front?_append_of_silent has hr

theorem silent_before (hl : l ≠ .natSL) : ∀ r ∈ l.lexicon.takeWhile (·.kind != .prop), Silent r.reads := by
  cases l with
  | natSL => exact absurd rfl hl
  | _ =>
    intro r hr
    fin_cases hr <;> first
      | exact silent_oneOf (by decide)
      | exact silent_sequence (by decide) _
      | exact silent_digits

/-- All lexicons but that of strategies with quantifiers read words. -/
theorem exists_readsWord (hl : l ≠ .natSL) :
    ∃ r, l.lexicon = l.lexicon.takeWhile (·.kind != .prop) ++ r :: behind l .prop ∧ r.kind = .prop ∧
      ReadsWord r.reads := by
  cases l with
  | natSL => exact absurd rfl hl
  | atl =>
    refine ⟨_, rfl, rfl, readsWord_run fun c hc => ?_⟩
    rw [not_digit hc, show (c == '_') = false by simpa using hc.ne (by decide), Bool.or_false, Bool.or_false]
  | rabatl => exact ⟨_, rfl, rfl, readsWord_digits⟩
  | rbatl =>
    refine ⟨_, rfl, rfl, readsWord_run fun c hc => ?_⟩
    rw [not_ascii_digit hc, Bool.or_false]
  | _ => exact ⟨prop, rfl, rfl, readsWord_run fun _ _ => rfl⟩

theorem front?_word (hl : l ≠ .natSL) (hc : c.isLower = true) (hchars : ∀ x ∈ c :: rest, IsPropositionalChar x)
    (hplain : startsPlain (c :: rest) = true) :
    l.lexicon.front? (c :: rest) = some (.prop, (c :: rest).takeWhile Char.isLower) := by
  obtain ⟨r, hrules, hkind, hword⟩ := exists_readsWord hl
  obtain ⟨tail, hreads⟩ := hword c rest hc hchars
  rw [hrules, front?_append_of_silent (fun a ha => silent_before hl a ha c rest hc hplain) hreads, hkind]

end Lexicon

/-! ## Signs -/

/-- The signs that a lexicon with words knows, the blank among them. -/
def Logic.signs : Logic → List Char
  | .capATL => " ()!&".toList
  | _ => " ()!&|->".toList

theorem Logic.mem_signs (hc : c ∈ l.signs) : c ∈ " ()!&|->".toList := by
  cases l <;> (revert c; decide)

theorem oneOf_ne_none (hw : w ∈ ws) (hp : w.toList <+: s) : oneOf ws s ≠ none := by
  unfold oneOf
  induction ws with
  | nil => cases hw
  | cons v ws ih =>
    simp only [map_cons, firstOf]
    cases hv : literal v s with
    | some r => simp
    | none =>
      rcases mem_cons.1 hw with rfl | hw
      · simp [literal, isPrefixOf_iff_prefix.2 hp] at hv
      · exact ih hw

namespace Lexicon

/-- The rule that reads a sign; a blank has none. -/
def signRule? : Char → Option Rule
  | '(' => some lparen
  | ')' => some rparen
  | '!' => some not
  | '&' => some and
  | '|' => some or
  | '-' => some implies
  | '>' => some implies
  | _ => none

/-- What a rule reads at the front of a text. -/
def ruleFront? (r : Rule) (s : List Char) : Option (TokenKind × List Char) := (r.reads s).map fun x => (r.kind, x.1)

theorem front?_of_rule {lx : Lexicon} (r : Rule) (behind : Lexicon) (hbefore : lx.front? s = front? (r :: behind) s)
    (hbehind : r.reads s = none → front? behind s = none) : lx.front? s = ruleFront? r s := by
  rw [hbefore, front?, ruleFront?]
  cases h : r.reads s with
  | none => exact hbehind h
  | some x => rfl

theorem front?_sign (hl : l ≠ .natSL) (hc : c ∈ l.signs) (rest : List Char) :
    l.lexicon.front? (c :: rest) = (signRule? c).bind fun r => ruleFront? r (c :: rest) := by
  have hsigns : ∀ d ∈ " ()!&|->".toList, d ∈ [' ', '(', ')', '!'] ∨ d ∈ ['&', '|', '-', '>'] := by decide
  rcases hsigns c (mem_signs hc) with h | h <;> fin_cases h
  iterate 4
    cases l with
    | natSL => exact absurd rfl hl
    | _ => rfl
  · refine front?_of_rule and (behind l .and) ?_ fun h => ?_
    · cases l with
      | natSL => exact absurd rfl hl
      | _ => rfl
    · exact absurd h (oneOf_ne_none (w := "&") (by simp) ⟨rest, rfl⟩)
  on_goal 2 => refine front?_of_rule implies (behind l .implies) ?_ fun _ => ?_
  on_goal 1 => refine front?_of_rule or (behind l .or) ?_ fun h => absurd h (oneOf_ne_none (w := "|") (by simp) ⟨rest, rfl⟩)
  all_goals
    cases l with
    | natSL => exact absurd rfl hl
    | capATL => exact absurd hc (by decide)
    | _ => rfl

def signWords : Char → List String
  | '(' => ["("]
  | ')' => [")"]
  | '!' => ["!", "not"]
  | '&' => ["&&", "&", "and"]
  | '|' => ["||", "|", "or"]
  | _ => ["->", ">", "implies"]

theorem exists_word (hc : c ∈ " ()!&|->".toList) (hr : signRule? c = some r) {tail : List Char}
    (h : r.reads s = some (lexeme, tail)) : ∃ w ∈ signWords c, lexeme = w.toList ∧ s = w.toList ++ tail := by
  fin_cases hc <;> cases hr
  · exact ⟨"(", mem_singleton_self _, literal_eq_some h⟩
  · exact ⟨")", mem_singleton_self _, literal_eq_some h⟩
  all_goals exact oneOf_eq_some h

theorem signs_of_ruleFront? (hc : c ∈ " ()!&|->".toList)
    (h : (signRule? c).bind (fun r => ruleFront? r (c :: rest)) = some (kind, lexeme)) :
    ∃ tail, c :: rest = lexeme ++ tail ∧ lexeme ≠ [] ∧ ∀ x ∈ lexeme, x.isLower = false := by
  obtain ⟨r, hr, h⟩ := Option.bind_eq_some_iff.1 h
  obtain ⟨x, hreads, heq⟩ := Option.map_eq_some_iff.1 h
  obtain rfl : x.1 = lexeme := (Prod.mk.inj heq).2
  obtain ⟨w, hw, hlexeme, htext⟩ := exists_word hc hr hreads
  have hwords : ∀ c ∈ " ()!&|->".toList, ∀ w ∈ signWords c, w.toList ≠ [] ∧
      (w.toList.head? = some c → ∀ x ∈ w.toList, x.isLower = false) := by decide
  obtain ⟨hne, hlower⟩ := hwords c hc w hw
  have hhead : w.toList.head? = some c := by
    rw [← head?_append_of_ne_nil _ hne, ← htext]
    rfl
  rw [hlexeme]
  exact ⟨x.2, htext, hne, hlower hhead⟩

/-! ## Plain texts -/

/-- A text of words and signs that a lexicon knows, in which no word begins with a keyword. -/
structure Plain (l : Logic) (s : List Char) : Prop where
  chars : ∀ c ∈ s, c.isLower = true ∨ c ∈ l.signs
  words : plainWords false s = true

theorem plainWords_append {b : List Char} : ∀ {a : List Char}, (∀ x ∈ a, x.isLower = false) →
    plainWords false (a ++ b) = true → plainWords false b = true
  | [], _, h => h
  | x :: a, ha, h => by
    obtain ⟨hx, ha⟩ := forall_mem_cons.1 ha
    have h : plainWords x.isLower (a ++ b) = true := (Bool.and_eq_true_iff.1 h).2
    rw [hx] at h
    exact plainWords_append ha h

/-- What every lexicon reads at the front of a plain text. -/
def plainFront? (c : Char) (rest : List Char) : Option (TokenKind × List Char) :=
  if c.isLower then some (.prop, (c :: rest).takeWhile Char.isLower)
  else (signRule? c).bind fun r => ruleFront? r (c :: rest)

section Plain

variable (h : Plain l (c :: rest))

include h

theorem Plain.sign (hc : c.isLower = false) : c ∈ l.signs :=
  (h.chars c mem_cons_self).resolve_left (by simp [hc])

theorem Plain.front? (hl : l ≠ .natSL) : l.lexicon.front? (c :: rest) = plainFront? c rest := by
  unfold plainFront?
  cases hc : c.isLower with
  | false => exact front?_sign hl (h.sign hc) rest
  | true =>
    exact front?_word hl hc (fun x hx => (h.chars x hx).imp_right mem_signs) (Bool.and_eq_true_iff.1 h.words).1

theorem Plain.tail (hfront : plainFront? c rest = some (kind, lexeme)) :
    lexeme ≠ [] ∧ ∃ tail, c :: rest = lexeme ++ tail ∧ Plain l tail := by
  have hchars : ∀ {tail}, c :: rest = lexeme ++ tail → ∀ x ∈ tail, x.isLower = true ∨ x ∈ l.signs :=
    fun htext x hx => h.chars x (htext ▸ mem_append_right _ hx)
  unfold plainFront? at hfront
  cases hc : c.isLower with
  | false =>
    rw [hc] at hfront
    obtain ⟨tail, htext, hne, hlower⟩ := signs_of_ruleFront? (mem_signs (h.sign hc)) hfront
    exact ⟨hne, tail, htext, hchars htext, plainWords_append hlower (htext ▸ h.words)⟩
  | true =>
    rw [hc] at hfront
    cases hfront
    have htext := (takeWhile_append_dropWhile (p := Char.isLower) (l := c :: rest)).symm
    have hwords : plainWords true (c :: rest) = true := by
      have hrest := (Bool.and_eq_true_iff.1 h.words).2
      simpa [plainWords] using hrest
    refine ⟨by simp [takeWhile_cons_of_pos hc], _, htext, hchars htext, ?_⟩
    exact plainWords_outside (fun c hc => Text.head?_dropWhile hc) (plainWords_dropWhile hwords)

theorem Plain.skip (hfront : plainFront? c rest = none) : Plain l rest := by
  have hc : c.isLower = false := by
    cases hc : c.isLower with
    | false => rfl
    | true => simp [plainFront?, hc] at hfront
  have hrest := (Bool.and_eq_true_iff.1 h.words).2
  rw [hc] at hrest
  exact ⟨fun x hx => h.chars x (mem_cons_of_mem c hx), hrest⟩

end Plain

/-- Two lexicons cut a text that is plain for both into the same tokens. -/
theorem tokensFrom_plain {l' : Logic} (hl : l ≠ .natSL) (hl' : l' ≠ .natSL) : ∀ {s : List Char},
    Plain l s → Plain l' s → l.lexicon.tokensFrom 0 s = l'.lexicon.tokensFrom 0 s := by
  intro s
  -- a token may be long, so the induction is on the length of what is left
  induction hn : s.length using Nat.strong_induction_on generalizing s with
  | _ n ih =>
    intro h h'
    subst hn
    cases s with
    | nil => rfl
    | cons c rest =>
      cases hfront : plainFront? c rest with
      | none =>
        simp only [tokensFrom, h.front? hl, h'.front? hl', hfront]
        exact ih rest.length (by simp) rfl (h.skip hfront) (h'.skip hfront)
      | some r =>
        obtain ⟨hne, tail, htext, htail⟩ := h.tail hfront
        obtain ⟨-, tail', htext', htail'⟩ := h'.tail hfront
        obtain rfl : tail = tail' := append_cancel_left (htext.symm.trans htext')
        have hlt : tail.length < (c :: rest).length := by
          rw [htext, length_append]
          have := length_pos_of_ne_nil hne
          omega
        rw [tokensFrom_front hne htext ((h.front? hl).trans hfront),
          tokensFrom_front hne htext ((h'.front? hl').trans hfront), ih _ hlt rfl htail htail']

end Lexicon

/-! ## Texts that tell a lexicon from all others -/

def Logic.all : List Logic := [ctl, atl, ltl, natATL, capATL, oatl, ol, rabatl, rbatl, guard, natSL]

theorem Logic.mem_all (l : Logic) : l ∈ all := by cases l <;> decide

/-- A text that only the lexicon of its language reads as the language means it. -/
def telling : Logic → String
  | .ctl => "EXa"
  | .atl => "a_b"
  | .ltl => "a<\x7b1\x7d,2>ARXb"
  | .natATL => "<\x7b1\x7d,2>Xa"
  | .capATL => "K1 1ISa"
  | .oatl => "<1><1>Xa"
  | .ol => "<J1>Xa"
  | .rabatl => "<1><1>X1a"
  | .rbatl => "<1><1>X1a"
  | .guard => "a*"
  | .natSL => ""

/-- The languages that look at the number of agents. -/
def Logic.checking : List Logic := [.atl, .natATL, .capATL]

theorem parse_agents (h : language ∉ checking) (agents agents' : AgentCount) (s : String) :
    parse reader language agents s = parse reader language agents' s := by
  cases language with
  | atl => exact absurd (by decide) h
  | natATL => exact absurd (by decide) h
  | capATL => exact absurd (by decide) h
  | _ => rfl

/-- What foreign lexicons make of the telling texts of the languages that look at the number of agents. -/
theorem tokens_foreign : ∀ reader ∈ Logic.all,
    (reader ≠ .atl → reader.lexicon.tokens (telling .atl) = [⟨.prop, "a"⟩, ⟨.prop, "b"⟩]) ∧
    (reader ≠ .capATL → reader.lexicon.tokens (telling .capATL) ∈
      [[⟨.prop, "a"⟩], [⟨.prop, "1"⟩, ⟨.prop, "1"⟩, ⟨.prop, "a"⟩], [⟨.agent, "1"⟩, ⟨.agent, "1"⟩, ⟨.prop, "a"⟩]]) ∧
    (reader ≠ .natATL → reader.lexicon.tokens (telling .natATL) ∈
      [[⟨.implies, ">"⟩, ⟨.next, "X"⟩, ⟨.prop, "a"⟩], [⟨.implies, ">"⟩, ⟨.prop, "a"⟩],
        [⟨.prop, "1"⟩, ⟨.prop, "2"⟩, ⟨.implies, ">"⟩, ⟨.next, "X"⟩, ⟨.prop, "a"⟩],
        [⟨.agent, "1"⟩, ⟨.agent, "2"⟩, ⟨.next, "X"⟩, ⟨.prop, "a"⟩],
        [⟨.bound, "\x7b1\x7d"⟩, ⟨.comma, ","⟩, ⟨.agent, "2"⟩, ⟨.prop, "a"⟩]]) := by
  decide

theorem tokens_own : Lexicon.natATL.tokens (telling .natATL) = [⟨.coalition, "<\x7b1\x7d,2>"⟩, ⟨.next, "X"⟩, ⟨.prop, "a"⟩] := by
  decide

theorem parse_foreign_natATL (h : reader ≠ .natATL) (agents : AgentCount) :
    parse reader .natATL agents (telling .natATL) = .ok (some (.atom "a")) := by
  have htokens := (tokens_foreign reader reader.mem_all).2.2 h
  unfold parse
  simp only [mem_cons, not_mem_nil, or_false] at htokens
  rcases htokens with h | h | h | h | h <;> rw [h] <;> rfl

theorem parse_own_natATL (agents : AgentCount) :
    parse .natATL .natATL agents (telling .natATL) ≠ .ok (some (.atom "a")) := by
  have hread : (Grammar.natATL agents).readFormula 4 [⟨.coalition, "<\x7b1\x7d,2>"⟩, ⟨.next, "X"⟩, ⟨.prop, "a"⟩] =
      ((Grammar.natATL agents).withHead false "<\x7b1\x7d,2>" "X" (fun label => .unary label (.atom "a")) []).andThen
        ((Grammar.natATL agents).readRest ((Grammar.natATL agents).readFormula 3)) := rfl
  have hrule : (Grammar.natATL agents).headRule = naturalHead agents := rfl
  unfold parse
  simp only [lexicon, grammar, tokens_own, Grammar.parse, Grammar.parseFrom, length_cons, length_nil,
    hread, Grammar.withHead, hrule]
  cases naturalHead agents false "<\x7b1\x7d,2>" "X" with
  | error cause => cases cause <;> simp [Reading.andThen]
  | ok label => cases label <;> simp [Reading.andThen, Grammar.readRest, Grammar.readStars]

theorem parse_foreign_atl (h : reader ≠ .atl) (agents : AgentCount) :
    parse reader .atl agents (telling .atl) = .ok none := by
  unfold parse
  rw [(tokens_foreign reader reader.mem_all).1 h]
  rfl

theorem parse_own_atl (agents : AgentCount) : parse .atl .atl agents (telling .atl) = .ok (some (.atom "a_b")) := by
  unfold parse
  rfl

theorem parse_foreign_capATL (h : reader ≠ .capATL) (agents : AgentCount) :
    parse reader .capATL agents (telling .capATL) = .ok (some (.atom "a")) := by
  have htokens := (tokens_foreign reader reader.mem_all).2.1 h
  unfold parse
  simp only [mem_cons, not_mem_nil, or_false] at htokens
  rcases htokens with h | h | h <;> rw [h] <;> rfl

theorem parse_own_capATL (agents : AgentCount) :
    parse .capATL .capATL agents (telling .capATL) = .ok (some (.unary ("K" ++ "1") (.atom ("1" ++ "a")))) := by
  unfold parse
  rfl

theorem telling_unchecked : ∀ language ∈ Logic.all, language ∉ Logic.checking → language ≠ .natSL →
    ∀ reader ∈ Logic.all, reader ≠ language →
      (parse reader language .missing (telling language)).toOption ≠
        (parse language language .missing (telling language)).toOption := by decide

theorem parse_telling_ne (hl : language ≠ .natSL) (h : reader ≠ language) (agents : AgentCount) :
    parse reader language agents (telling language) ≠ parse language language agents (telling language) := by
  by_cases hcheck : language ∈ checking
  · simp only [checking, mem_cons, not_mem_nil, or_false] at hcheck
    rcases hcheck with rfl | rfl | rfl
    · rw [parse_foreign_atl h, parse_own_atl]
      simp
    · rw [parse_foreign_natATL h]
      exact (parse_own_natATL agents).symm
    · rw [parse_foreign_capATL h, parse_own_capATL]
      simp
  · rw [parse_agents hcheck agents .missing, parse_agents hcheck agents .missing]
    exact fun e => telling_unchecked language language.mem_all hcheck hl reader reader.mem_all h (congrArg _ e)

/-! ## Readers -/

/-- A language is read on all texts alike only with its own lexicon; on plain texts the lexicon does not matter. -/
theorem parse_reader_iff (language : Logic) (hl : language ≠ .natSL) :
    (∀ reader agents, (∀ s, parse reader language agents s = parse language language agents s) ↔ reader = language) ∧
      ∀ reader, reader ≠ .natSL → ∀ agents (s : String), Lexicon.Plain reader s.toList →
        Lexicon.Plain language s.toList → parse reader language agents s = parse language language agents s := by
  refine ⟨fun reader agents => ⟨fun h => ?_, fun h _ => h ▸ rfl⟩, fun reader hr agents s h h' => ?_⟩
  · by_contra hne
    exact parse_telling_ne hl hne agents (h (telling language))
  · have htokens : reader.lexicon.tokens s = language.lexicon.tokens s := Lexicon.tokensFrom_plain hr hl h h'
    unfold parse
    rw [htokens]

/-- A negated conjunction, read by the lexicon of capacities as a formula on paths. -/
theorem parse_reader_iff_negation :
    (Logic.ctl ≠ .natSL ∧ Lexicon.Plain .capATL "!(pq & notp) && xora".toList ∧
      Lexicon.Plain .ctl "!(pq & notp) && xora".toList) ∧
      parse .capATL .ctl .missing "!(pq & notp) && xora" = parse .ctl .ctl .missing "!(pq & notp) && xora" := by
  have hcap : Lexicon.Plain .capATL "!(pq & notp) && xora".toList := ⟨by decide, by decide⟩
  have hctl : Lexicon.Plain .ctl "!(pq & notp) && xora".toList := ⟨by decide, by decide⟩
  exact ⟨⟨by decide, hcap, hctl⟩, (parse_reader_iff .ctl (by decide)).2 .capATL (by decide) .missing _ hcap hctl⟩

/-- The lexicon of coalitions drops a path quantifier with its operator. -/
theorem parse_foreign_path : (parse .atl .ctl .missing "EXp").toOption = some (some (.atom "p")) ∧
    (parse .ctl .ctl .missing "EXp").toOption = some (some (.unary "EX" (.atom "p"))) := by decide

end Arena.Formula
