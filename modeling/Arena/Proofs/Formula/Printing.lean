/-
Fully parenthesised texts of branching-time formulas. The printer puts parentheses around every argument and may leave
blanks between tokens; the lexicon finds the tokens again, and the grammar never has to decide how far an argument
reaches. So parsing a printed formula gives it back.
-/
import Arena.Proofs.Formula.Readers

namespace Arena.Formula

open Reading Grammar Lexicon List Text

open Checker (not_lower_of_blank readsPropositional_ctl)

variable {b : Char} {ts : List Token} {gap : Nat → String} {c : Char} {rest : List Token} {ws : List String}
  {f : Formula} {fuel : Nat}

/-! ## Formulas and their texts -/

/-- A word of lower-case letters that the lexicon of branching time reads as one proposition. -/
structure Word where
  text : String
  lower : ∀ c ∈ text.toList, c.isLower = true
  reads : ctl.tokens text = [⟨.prop, text⟩]

inductive Quantifier where
  | every | some
  deriving DecidableEq, Repr

inductive Temporal where
  | next | eventually | globally
  deriving DecidableEq, Repr

inductive Connective where
  | and | or | implies
  deriving DecidableEq, Repr

def Quantifier.token : Quantifier → Token
  | every => ⟨.everyPath, "A"⟩
  | some => ⟨.somePath, "E"⟩

def Temporal.token : Temporal → Token
  | next => ⟨.next, "X"⟩
  | eventually => ⟨.eventually, "F"⟩
  | globally => ⟨.globally, "G"⟩

def Connective.token : Connective → Token
  | and => ⟨.and, "&&"⟩
  | or => ⟨.or, "||"⟩
  | implies => ⟨.implies, "->"⟩

inductive PathFormula where
  | atom (p : Word)
  | not (a : PathFormula)
  | connective (o : Connective) (a b : PathFormula)
  | temporal (q : Quantifier) (o : Temporal) (a : PathFormula)
  | untl (q : Quantifier) (a b : PathFormula)

def enclosed (ts : List Token) : List Token := ⟨.lparen, "("⟩ :: (ts ++ [⟨.rparen, ")"⟩])

/-- The text of some tokens, each with a gap before it, and a gap at the end. -/
def spaced : (gap : Nat → String) → List Token → String
  | gap, [] => gap 0
  | gap, t :: ts => gap 0 ++ (t.text ++ spaced (fun n => gap (n + 1)) ts)

namespace PathFormula

/-- The formula as the parser builds it. -/
def formula : PathFormula → Formula
  | atom p => .atom p.text
  | not a => .unary "!" a.formula
  | connective o a b => .binary o.token.text a.formula b.formula
  | temporal q o a => .unary (q.token.text ++ o.token.text) a.formula
  | untl q a b => .binary (q.token.text ++ "U") a.formula b.formula

/-- The tokens of the text in which every argument has its parentheses. -/
def tokens : PathFormula → List Token
  | atom p => [⟨.prop, p.text⟩]
  | not a => ⟨.not, "!"⟩ :: enclosed a.tokens
  | connective o a b => enclosed a.tokens ++ o.token :: enclosed b.tokens
  | temporal q o a => q.token :: o.token :: enclosed a.tokens
  | untl q a b => q.token :: (enclosed a.tokens ++ ⟨.untl, "U"⟩ :: enclosed b.tokens)

def print (gap : Nat → String) (t : PathFormula) : String := spaced gap t.tokens

end PathFormula

/-! ## Cutting the text into tokens -/

/-- The tokens that are signs or capital letters; they end by themselves. -/
def signTokens : List Token :=
  [⟨.not, "!"⟩, ⟨.lparen, "("⟩, ⟨.rparen, ")"⟩, ⟨.untl, "U"⟩, ⟨.and, "&&"⟩, ⟨.or, "||"⟩, ⟨.implies, "->"⟩,
    ⟨.everyPath, "A"⟩, ⟨.somePath, "E"⟩, ⟨.next, "X"⟩, ⟨.eventually, "F"⟩, ⟨.globally, "G"⟩]

theorem tokensFrom_sign {t : Token} (ht : t ∈ signTokens) (rest : List Char) :
    ctl.tokensFrom 0 (t.text.toList ++ rest) = t :: ctl.tokensFrom 0 rest := by
  simp only [signTokens, mem_cons, not_mem_nil, or_false] at ht
  rcases ht with rfl | rfl | rfl | rfl | rfl | rfl | rfl | rfl | rfl | rfl | rfl | rfl <;> rfl

/-- The words of the rules for operators and parentheses consist of letters or begin with a sign or a capital. -/
theorem stopsFrom_letter {w : String} (hw : (∀ c ∈ w.toList, c.isLower = true) ∨
    w.toList.head?.any (fun d => !d.isLower) = true) (hc : c.isLower = false) :
    StopsFrom (fun x => x.isLower = true) c (literal w) := by
  rcases hw with hw | hw
  · have hnot : c ∉ w.toList := fun hm => by simp [hw c hm] at hc
    exact (stopsAt_literal hnot).stopsFrom _
  · exact stopsFrom_of_none fun x a hx => literal_of_head hw hx a

theorem stopsFrom_letters (hws : ∀ w ∈ ws, (∀ c ∈ w.toList, c.isLower = true) ∨
    w.toList.head?.any (fun d => !d.isLower) = true) (hc : c.isLower = false) :
    StopsFrom (fun x => x.isLower = true) c (oneOf ws) := by
  refine stopsFrom_firstOf fun m hm => ?_
  obtain ⟨w, hw, rfl⟩ := mem_map.1 hm
  exact stopsFrom_letter (hws w hw) hc

theorem stopsFrom_lower (hc : c.isLower = false) :
    ∀ r ∈ Lexicon.ctl, StopsFrom (fun x => x.isLower = true) c r.reads := by
  simp only [Lexicon.ctl, forall_mem_cons]
  and_intros <;> first
    | exact stopsFrom_letters (by decide) hc
    | exact stopsFrom_letter (by decide) hc
    | exact (stopsAt_run hc).stopsFrom _
    | exact fun r hr => by cases hr

theorem tokensFrom_word (p : Word) {rest : List Char} (hrest : ∀ c ∈ rest.head?, c.isLower = false) :
    ctl.tokensFrom 0 (p.text.toList ++ rest) = ⟨.prop, p.text⟩ :: ctl.tokensFrom 0 rest := by
  have halone : ctl.tokensFrom 0 p.text.toList = [⟨.prop, p.text⟩] := p.reads
  cases rest with
  | nil => rw [append_nil, halone]; rfl
  | cons c rest =>
    rw [tokensFrom_before (stopsFrom_lower (hrest c rfl)) rest _ 0 (Nat.zero_le _) p.lower, halone]
    rfl

/-! ## Blanks -/

theorem oneOf_of_blank (hws : ∀ w ∈ ws, w.toList.head?.any (fun d => !isBlank d) = true)
    (hb : isBlank b = true) (rest : List Char) : oneOf ws (b :: rest) = none := by
  refine firstOf_eq_none fun m hm => ?_
  obtain ⟨w, hw, rfl⟩ := mem_map.1 hm
  exact literal_of_head (hws w hw) hb rest

theorem front?_blank (hb : isBlank b = true) (rest : List Char) : Lexicon.ctl.front? (b :: rest) = none := by
  have hrules : ∀ r ∈ Lexicon.ctl, r.reads (b :: rest) = none := by
    have hrun : run Char.isLower (b :: rest) = none := by simp [run, not_lower_of_blank hb]
    simp only [Lexicon.ctl, forall_mem_cons]
    and_intros <;> first
      | exact oneOf_of_blank (by decide) hb rest
      | exact literal_of_head (by decide) hb rest
      | exact hrun
      | exact fun r hr => by cases hr
  cases h : ctl.front? (b :: rest) with
  | none => rfl
  | some x =>
    obtain ⟨r, hr, -, tail, hread⟩ := exists_rule_of_front h
    rw [hrules r hr] at hread
    cases hread

def AllBlank (s : String) : Prop := ∀ c ∈ s.toList, isBlank c = true

theorem tokensFrom_gap (rest : List Char) : ∀ {s : List Char}, (∀ c ∈ s, isBlank c = true) →
    ctl.tokensFrom 0 (s ++ rest) = ctl.tokensFrom 0 rest
  | [], _ => rfl
  | b :: s, h => by
    obtain ⟨hb, hs⟩ := forall_mem_cons.1 h
    rw [cons_append, tokensFrom, front?_blank hb]
    exact tokensFrom_gap rest hs

/-! ## The tokens of a printed formula -/

/-- The first token, if there is one, is a sign. -/
def StartsWithSign (ts : List Token) : Prop := ∀ t ∈ ts.head?, t ∈ signTokens

/-- Tokens among which a word stands before a sign or at the end. -/
inductive Delimited : List Token → Prop
  | nil : Delimited []
  | sign {t : Token} {ts : List Token} (ht : t ∈ signTokens) (h : Delimited ts) : Delimited (t :: ts)
  | word (p : Word) {ts : List Token} (hts : StartsWithSign ts) (h : Delimited ts) : Delimited (⟨.prop, p.text⟩ :: ts)

theorem head?_gap {s rest : List Char} (hs : ∀ c ∈ s, isBlank c = true)
    (hrest : ∀ c ∈ rest.head?, c.isLower = false) : ∀ c ∈ (s ++ rest).head?, c.isLower = false := by
  cases s with
  | nil => exact hrest
  | cons b s =>
    intro c hc
    cases hc
    exact not_lower_of_blank (hs b mem_cons_self)

theorem head?_spaced (hgap : ∀ n, AllBlank (gap n)) (hts : StartsWithSign ts) :
    ∀ c ∈ (spaced gap ts).toList.head?, c.isLower = false := by
  have hsigns : ∀ t ∈ signTokens, t.text.toList.head?.any (fun c => !c.isLower) = true := by decide
  cases ts with
  | nil =>
    have hend : ∀ c ∈ ((gap 0).toList ++ []).head?, c.isLower = false := head?_gap (hgap 0) (by simp)
    rwa [append_nil] at hend
  | cons t ts =>
    obtain ⟨c, hc, hlower⟩ := (Option.any_eq_true _ _).1 (hsigns t (hts t rfl))
    simp only [spaced, String.toList_append]
    refine head?_gap (hgap 0) ?_
    rw [head?_append, hc]
    simpa using hlower

/-- The lexicon finds the tokens of a text whatever blanks stand between them. -/
theorem tokensFrom_spaced (h : Delimited ts) : ∀ {gap : Nat → String}, (∀ n, AllBlank (gap n)) →
    ctl.tokensFrom 0 (spaced gap ts).toList = ts := by
  induction h with
  | nil =>
    intro gap hgap
    have hend := tokensFrom_gap [] (hgap 0)
    rwa [append_nil] at hend
  | @sign t ts ht _ ih =>
    intro gap hgap
    simp only [spaced, String.toList_append]
    rw [tokensFrom_gap _ (hgap 0), tokensFrom_sign ht, ih fun n => hgap (n + 1)]
  | @word p ts hts _ ih =>
    intro gap hgap
    have hgap' : ∀ n, AllBlank (gap (n + 1)) := fun n => hgap (n + 1)
    simp only [spaced, String.toList_append]
    rw [tokensFrom_gap _ (hgap 0), tokensFrom_word p (head?_spaced hgap' hts), ih hgap']

theorem Quantifier.token_mem (q : Quantifier) : q.token ∈ signTokens := by cases q <;> decide

theorem Temporal.token_mem (o : Temporal) : o.token ∈ signTokens := by cases o <;> decide

theorem Connective.token_mem (o : Connective) : o.token ∈ signTokens := by cases o <;> decide

theorem delimited_enclosed (hrest : Delimited rest)
    (hts : ∀ {us : List Token}, StartsWithSign us → Delimited us → Delimited (ts ++ us)) :
    Delimited (enclosed ts ++ rest) := by
  have hclose : (⟨.rparen, ")"⟩ : Token) ∈ signTokens := by decide
  rw [enclosed, cons_append, append_assoc]
  refine .sign (by decide) (hts ?_ (.sign hclose hrest))
  intro t ht
  cases ht
  exact hclose

namespace PathFormula

theorem delimited (t : PathFormula) : ∀ {rest : List Token}, StartsWithSign rest → Delimited rest →
    Delimited (t.tokens ++ rest) := by
  induction t with
  | atom p => exact fun hsign hrest => .word p hsign hrest
  | not a ih => exact fun _ hrest => .sign (by decide) (delimited_enclosed hrest ih)
  | connective o a b iha ihb =>
    intro rest _ hrest
    rw [tokens, append_assoc]
    exact delimited_enclosed (.sign o.token_mem (delimited_enclosed hrest ihb)) iha
  | temporal q o a ih =>
    exact fun _ hrest => .sign q.token_mem (.sign o.token_mem (delimited_enclosed hrest ih))
  | untl q a b iha ihb =>
    intro rest _ hrest
    rw [tokens, cons_append, append_assoc]
    exact .sign q.token_mem (delimited_enclosed (.sign (by decide) (delimited_enclosed hrest ihb)) iha)

theorem tokens_print (t : PathFormula) (hgap : ∀ n, AllBlank (gap n)) : ctl.tokens (t.print gap) = t.tokens := by
  have hdelimited : Delimited (t.tokens ++ []) := t.delimited (by simp [StartsWithSign]) .nil
  rw [append_nil] at hdelimited
  exact tokensFrom_spaced hdelimited hgap

end PathFormula

/-! ## Reading the tokens -/

namespace Grammar

theorem ctl_isHead (q : Quantifier) : ctl.IsHead q.token := by cases q <;> exact ⟨by decide, by decide⟩

theorem ctl_ends_rparen (rest : List Token) : ctl.Ends (⟨.rparen, ")"⟩ :: rest) := by
  intro t ht
  cases ht
  exact ⟨by decide, by decide⟩

theorem ctl_ends_untl (rest : List Token) : ctl.Ends (⟨.untl, "U"⟩ :: rest) := by
  intro t ht
  cases ht
  exact ⟨by decide, by decide⟩

theorem length_enclosed (ts : List Token) : (enclosed ts).length = ts.length + 2 := by simp [enclosed]

/-- Tokens are read as a formula, wherever a formula may end behind them. -/
def ReadAs (ts : List Token) (f : Formula) : Prop := ∀ (fuel : Nat) {rest : List Token}, ts.length ≤ fuel →
  ctl.Ends rest → ctl.readFormula fuel (ts ++ rest) = found f rest

theorem readFormula_enclosed (h : ReadAs ts f) (hfuel : ts.length ≤ fuel) (rest : List Token) :
    ctl.readFormula (fuel + 1) (enclosed ts ++ rest) = ctl.readRest (ctl.readFormula fuel) f rest := by
  have hin := h fuel hfuel (ctl_ends_rparen rest)
  have hoperand : ctl.readOperand fuel (ctl.readFormula fuel) ⟨.lparen, "("⟩ (ts ++ ⟨.rparen, ")"⟩ :: rest) = found f rest := by
    have hopen : ctl.readOperand fuel (ctl.readFormula fuel) ⟨.lparen, "("⟩ (ts ++ ⟨.rparen, ")"⟩ :: rest) =
        (ctl.readFormula fuel (ts ++ ⟨.rparen, ")"⟩ :: rest)).andThen fun f r => expect .rparen f r := rfl
    rw [hopen, hin]
    rfl
  rw [enclosed, cons_append, append_assoc, readFormula_succ]
  rw [show [(⟨.rparen, ")"⟩ : Token)] ++ rest = ⟨.rparen, ")"⟩ :: rest from rfl, hoperand]
  rfl

theorem ReadAs.enclosed (h : ReadAs ts f) : ReadAs (enclosed ts) f := by
  intro fuel rest hfuel hrest
  rw [length_enclosed] at hfuel
  obtain ⟨fuel, rfl⟩ : ∃ k, fuel = k + 1 := ⟨fuel - 1, by omega⟩
  rw [readFormula_enclosed h (by omega), readRest_of_ends readsPropositional_ctl hrest]

theorem readAs_succ (hts : ts ≠ []) (h : ∀ {fuel rest}, ts.length ≤ fuel + 1 → ctl.Ends rest →
    ctl.readFormula (fuel + 1) (ts ++ rest) = found f rest) : ReadAs ts f := by
  intro fuel rest hfuel hrest
  have hpos := length_pos_iff.2 hts
  obtain ⟨fuel, rfl⟩ : ∃ k, fuel = k + 1 := ⟨fuel - 1, by omega⟩
  exact h hfuel hrest

end Grammar

theorem Connective.kind_mem (o : Connective) : o.token.kind ∈ connectives := by cases o <;> decide

theorem Temporal.kind_mem (o : Temporal) : o.token.kind ∈ ctl.headUnaries := by cases o <;> decide

namespace PathFormula

/-- The parser reads the tokens of a formula back as the formula, wherever a formula may end behind them. -/
theorem readFormula_tokens (t : PathFormula) : ReadAs t.tokens t.formula := by
  have hg := readsPropositional_ctl
  induction t with
  | atom p => exact readAs_succ (cons_ne_nil _ _) fun _ hrest => readRest_of_ends hg hrest
  | not a ih =>
    refine readAs_succ (cons_ne_nil _ _) fun {fuel rest} hfuel hrest => ?_
    simp only [tokens, length_cons] at hfuel
    have hoperand : ctl.readOperand fuel (ctl.readFormula fuel) ⟨.not, "!"⟩ (enclosed a.tokens ++ rest) =
        (ctl.readFormula fuel (enclosed a.tokens ++ rest)).andThen fun f r => found (.unary "!" f) r := rfl
    rw [tokens, cons_append, readFormula_succ, hoperand, ih.enclosed fuel (by omega) hrest]
    exact readRest_of_ends hg hrest
  | connective o a b iha ihb =>
    refine readAs_succ (by simp [tokens]) fun {fuel rest} hfuel hrest => ?_
    simp only [tokens, length_append, length_cons, length_enclosed] at hfuel
    have hright := ihb.enclosed fuel (by rw [length_enclosed]; omega) hrest
    rw [tokens, append_assoc, readFormula_enclosed iha (by omega)]
    exact readRest_connective hg o.kind_mem hright
  | temporal q o a ih =>
    refine readAs_succ (cons_ne_nil _ _) fun {fuel rest} hfuel hrest => ?_
    simp only [tokens, length_cons] at hfuel
    rw [tokens, cons_append, cons_append, readFormula_succ, readOperand_head hg (ctl_isHead q),
      if_pos o.kind_mem, ih.enclosed fuel (by omega) hrest]
    exact readRest_of_ends hg hrest
  | untl q a b iha ihb =>
    refine readAs_succ (cons_ne_nil _ _) fun {fuel rest} hfuel hrest => ?_
    simp only [tokens, length_append, length_cons] at hfuel
    have hright := ihb.enclosed fuel (by omega) hrest
    have hleft := iha.enclosed fuel (by omega) (ctl_ends_untl (enclosed b.tokens ++ rest))
    have hopen : (⟨.lparen, "("⟩ : Token).kind ∉ ctl.headUnaries := by decide
    rw [tokens, cons_append, append_assoc, cons_append, readFormula_succ]
    have hoperand : ctl.readOperand fuel (ctl.readFormula fuel) q.token (enclosed a.tokens ++ ⟨.untl, "U"⟩ :: (enclosed b.tokens ++ rest)) =
        found (formula (.untl q a b)) rest := by
      rw [enclosed, cons_append, readOperand_head hg (ctl_isHead q), if_neg hopen, ← cons_append, ← enclosed,
        hleft]
      simp only [andThen, hright]
      rfl
    rw [hoperand]
    exact readRest_of_ends hg hrest

theorem formula_ne_hole (t : PathFormula) : t.formula ≠ .hole := by cases t <;> exact fun h => by cases h

/-- Parsing undoes printing: a formula printed with all its parentheses, and any blanks between the tokens, is parsed
to itself. -/
theorem parse_print (t : PathFormula) (gap : Nat → String) (hgap : ∀ n, AllBlank (gap n)) (agents : AgentCount) :
    parse .ctl .ctl agents (t.print gap) = .ok (some t.formula) := by
  have hread : ctl.readFormula (t.tokens.length + 1) (t.tokens ++ []) = found t.formula [] :=
    t.readFormula_tokens _ (by omega) (by simp [Ends])
  rw [append_nil] at hread
  have hparse := parse_of_found t.formula_ne_hole hread
  unfold parse
  simp only [Logic.lexicon, Logic.grammar, tokens_print t hgap, hparse]

/-- Nested quantifiers, an until and an implication, with tabs and line ends between the tokens: the word `nota` is
one proposition although it begins with a negation. -/
theorem parse_print_nested :
    let p : Word := ⟨"nota", by decide, by decide⟩
    let q : Word := ⟨"q", by decide, by decide⟩
    let t : PathFormula := .temporal .every .globally (.connective .implies (.not (.atom p))
      (.untl .some (.atom q) (.connective .or (.atom p) (.temporal .some .next (.atom q)))))
    let gap : Nat → String := fun n => if n % 3 = 0 then "" else " \t\n"
    (∀ n, AllBlank (gap n)) ∧ parse .ctl .ctl .missing (t.print gap) = .ok (some t.formula) := by
  intro p q t gap
  have hblank : ∀ c ∈ " \t\n".toList, Text.isBlank c = true := by decide
  have hgap : ∀ n, AllBlank (gap n) := by
    intro n c hc
    by_cases h : n % 3 = 0
    · simp [gap, h] at hc
    · exact hblank c (by simpa only [gap, if_neg h] using hc)
  exact ⟨hgap, parse_print t gap hgap .missing⟩

end PathFormula

end Arena.Formula
