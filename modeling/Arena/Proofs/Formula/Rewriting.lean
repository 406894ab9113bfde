/-
Rewriting the texts of formulas. Abbreviations and translations work on characters, and what they write is not always
read as the formula that it was: words grow together when the blanks between them go, a negation moves to the front of
the text, an until is put in parentheses that no rule reads, and a symbol that was just written is taken for the name of
another proposition.
-/
import Arena.Natural.Equilibrium
import Arena.Proofs.Formula.Printing
import Arena.Proofs.Natural.Headings
import Arena.Scenario.Code

namespace Arena.Formula

open Lexicon Text List Natural Heading Scenario

variable {s : String} {α : Type} {m : Text.Matcher α} {c : Char} {t : List Char}

/-! ## Words -/

theorem isWordChar_of_lower (hc : c.isLower = true) : isWordChar c = true := by
  have hlimit : c.toNat < 128 := (Checker.lower_bounds hc).2.trans_lt (by decide)
  unfold isWordChar isLetterOrNumeral
  rw [if_pos hlimit]
  change (c == '_' || (c.isUpper || c.isLower || c.isDigit)) = true
  simp [hc]

theorem Word.toList_ne_nil (p : Word) : p.text.toList ≠ [] := by
  intro h
  have hreads : ctl.tokensFrom 0 p.text.toList = [⟨.prop, p.text⟩] := p.reads
  rw [h] at hreads
  cases hreads

/-! ## Compacting -/

/-- Whatever connectives stand in a text of words and blanks, without its blanks it is one proposition. -/
theorem tokens_compact_words (hs : ∀ c ∈ s.toList, c.isLower = true ∨ isBlank c = true) (hne : compact s ≠ "")
    (hplain : startsPlain (compact s).toList = true) : natATL.tokens (compact s) = [⟨.prop, compact s⟩] := by
  have hlower : ∀ c ∈ (compact s).toList, c.isLower = true := by
    intro c hc
    rw [compact, String.toList_ofList, mem_filter] at hc
    exact (hs c hc.1).resolve_right (by simpa using hc.2)
  have htext : String.ofList (compact s).toList = compact s := String.ofList_toList
  cases hl : (compact s).toList with
  | nil => exact absurd (htext.symm.trans (congrArg _ hl)) hne
  | cons c rest =>
    rw [hl] at hlower hplain htext
    have hfront : natATL.front? (c :: rest) = _ :=
      front?_word (l := .natATL) (by decide) (hlower c mem_cons_self) (fun x hx => .inl (hlower x hx)) hplain
    rw [takeWhile_eq_self_iff.2 hlower] at hfront
    unfold tokens
    rw [hl, tokensFrom_front (cons_ne_nil _ _) (append_nil _).symm hfront, htext]
    rfl

theorem tokens_compact_words_and : natATL.tokens "p and q" = [⟨.prop, "p"⟩, ⟨.and, "and"⟩, ⟨.prop, "q"⟩] ∧
    natATL.tokens (compact "p and q") = [⟨.prop, "pandq"⟩] :=
  ⟨by decide, tokens_compact_words (by decide) (by decide) (by decide)⟩

/-! ## From linear to branching time -/

theorem replaceAll_whole {a : α} (new : α → String) (hend : ∀ before, m before [] = none) (hs : s.toList ≠ [])
    (h : m none s.toList = some (a, [])) : m.replaceAll new s = new a := by
  obtain ⟨c, rest, hs⟩ := exists_cons_of_ne_nil hs
  obtain ⟨before, hskip⟩ := replaceFrom_skip m (fun a => (new a).toList) [] rest (some c)
  rw [append_nil, Matcher.replaceFrom, hend] at hskip
  rw [hs] at h
  unfold Matcher.replaceAll
  rw [hs, Matcher.replaceFrom, h]
  simp [hskip]

theorem parse_tight {ts : List Token} (h : Delimited ts) (hs : s = spaced (fun _ => "") ts) (agents : AgentCount) :
    parse .ctl .ctl agents s = Grammar.ctl.parse ts := by
  have htokens : ctl.tokens s = ts := hs ▸ tokensFrom_spaced h (by simp [AllBlank])
  unfold parse
  simp only [Logic.lexicon, Logic.grammar, htokens]

section Until

variable (p q : Word)

theorem mem_until (hc : c ∈ (p.text ++ "U" ++ q.text).toList) : c.isLower = true ∨ c = 'U' := by
  simp only [String.toList_append, mem_append] at hc
  rcases hc with (hc | hc) | hc
  · exact .inl (p.lower c hc)
  · exact .inr (mem_singleton.1 hc)
  · exact .inl (q.lower c hc)

theorem bareOperator_until (before : Option Char) (ht : t <:+ (p.text ++ "U" ++ q.text).toList) :
    Equilibrium.bareOperator before t = none := by
  cases t with
  | nil => rfl
  | cons c t =>
    have hc : ¬ (c = 'X' ∨ c = 'F' ∨ c = 'G') := by
      rcases mem_until p q (ht.mem mem_cons_self) with hc | rfl
      · rintro (rfl | rfl | rfl) <;> cases hc
      · decide
    simp [Equilibrium.bareOperator, or_assoc, hc]

theorem untilWords_until : Equilibrium.untilWords none (p.text ++ "U" ++ q.text).toList =
    some ((p.text ++ "U" ++ q.text).toList, []) := by
  obtain ⟨c, rest, hp⟩ := exists_cons_of_ne_nil p.toList_ne_nil
  obtain ⟨d, rest', hq⟩ := exists_cons_of_ne_nil q.toList_ne_nil
  have halpha : ∀ {x : Char}, x.isLower = true → x.isAlpha = true := fun h => Bool.or_eq_true_iff.2 (.inr h)
  have hc := halpha (p.lower c (hp ▸ mem_cons_self))
  have hd := halpha (q.lower d (hq ▸ mem_cons_self))
  have hall : ∀ x ∈ (p.text ++ "U" ++ q.text).toList, isWordChar x = true := by
    intro x hx
    rcases mem_until p q hx with hx | rfl
    · exact isWordChar_of_lower hx
    · decide
  have hl : (p.text ++ "U" ++ q.text).toList = c :: rest ++ 'U' :: d :: rest' := by simp [hp, hq]
  rw [hl] at hall ⊢
  have hplace : Equilibrium.untilPlace? (c :: rest ++ 'U' :: d :: rest') ≠ none := by
    unfold Equilibrium.untilPlace?
    rw [Ne, getLast?_eq_none_iff]
    refine ne_nil_of_mem (a := rest.length + 1) (mem_filter.2 ⟨by simp, ?_⟩)
    simp [hd]
  obtain ⟨i, hi⟩ := Option.ne_none_iff_exists'.1 hplace
  unfold Equilibrium.untilWords
  simp only [takeWhile_eq_self_iff.2 hall, dropWhile_eq_nil_iff.2 hall, hi]
  simp [hc]

/-- The translation of an until between two words is read as no formula. -/
theorem parse_toBranching_until (agents : AgentCount) :
    Equilibrium.toBranching (p.text ++ "U" ++ q.text) = "A(" ++ (p.text ++ "U" ++ q.text) ++ ")" ∧
      parse .ctl .ctl agents (Equilibrium.toBranching (p.text ++ "U" ++ q.text)) = .ok none := by
  have hbare : Equilibrium.bareOperator.replaceAll (fun c => "A" ++ String.singleton c) (p.text ++ "U" ++ q.text) =
      p.text ++ "U" ++ q.text := by
    unfold Matcher.replaceAll
    rw [replaceFrom_none _ fun t ht before => bareOperator_until p q before ht, String.ofList_toList]
  have htranslated : Equilibrium.toBranching (p.text ++ "U" ++ q.text) = "A(" ++ (p.text ++ "U" ++ q.text) ++ ")" := by
    unfold Equilibrium.toBranching
    rw [hbare, replaceAll_whole _ (fun _ => rfl) (by simp) (untilWords_until p q), String.ofList_toList]
  refine ⟨htranslated, ?_⟩
  have htokens : Delimited [⟨.everyPath, "A"⟩, ⟨.lparen, "("⟩, ⟨.prop, p.text⟩, ⟨.untl, "U"⟩, ⟨.prop, q.text⟩,
      ⟨.rparen, ")"⟩] :=
    .sign (by decide) (.sign (by decide) (.word p (by simp [StartsWithSign, signTokens]) (.sign (by decide)
      (.word q (by simp [StartsWithSign, signTokens]) (.sign (by decide) .nil)))))
  rw [htranslated, parse_tight htokens (String.toList_injective (by simp [spaced]))]
  rfl

end Until

/-! ## Negations before a heading -/

theorem behind?_eq_some : ∀ {piece s rest : List Char}, behind? piece s = some rest ↔ s = piece ++ rest
  | [], _, _ => by simp [behind?]
  | c :: piece, [], _ => by simp [behind?, expect?]
  | c :: piece, d :: s, rest => by
    by_cases h : c = d
    · simp [behind?, expect?, h, behind?_eq_some]
    · simp [behind?, expect?, h, Ne.symm h]

theorem unsigned_none (before : Option Char) {l : List Char} (h : ∀ c ∈ l.head?, '<' ≠ c) :
    unsigned before l = none := by
  cases l with
  | nil => rfl
  | cons c l => simp [unsigned, braces, fences, expect?, h c rfl]

theorem head?_skipBlanks (rest : List Char) : ∀ {u : List Char}, '<' ∉ u →
    ∀ c ∈ (skipBlanks (u ++ '!' :: rest)).head?, '<' ≠ c
  | [], _, c, hc => by
    cases hc
    decide
  | x :: u, hu, c, hc => by
    rw [mem_cons, not_or] at hu
    rw [skipBlanks, cons_append, dropWhile_cons] at hc
    split at hc
    · exact head?_skipBlanks rest hu.2 c hc
    · cases hc
      exact hu.1

theorem loose_none (before : Option Char) (ht : '<' ∉ t) (hne : t ≠ []) (rest : List Char) :
    loose before (t ++ '!' :: rest) = none := by
  obtain ⟨x, t, rfl⟩ := exists_cons_of_ne_nil hne
  rw [mem_cons, not_or] at ht
  unfold loose
  split
  · rename_i r hr
    rw [unsigned_none, Option.map_none]
    rcases Option.or_eq_some_iff.1 hr with hr | ⟨-, hr⟩
    · rw [behind?_eq_some] at hr
      cases hr
      exact head?_skipBlanks rest ht.2
    · rw [behind?_eq_some] at hr
      -- the word is too long to end with the negation
      rcases t with _ | ⟨y, _ | ⟨z, t⟩⟩ <;> cases hr
      exact head?_skipBlanks rest (by simpa using ht.2)
  · exact unsigned_none before fun c hc => by cases hc; exact ht.1

theorem firstFrom_skip (rest : List Char) : ∀ {t : List Char} (passed : List Char),
    (∀ u, u <:+ t → u ≠ [] → ∀ before, m before (u ++ rest) = none) →
      m.firstFrom passed (t ++ rest) = m.firstFrom (t.reverse ++ passed) rest
  | [], _, _ => rfl
  | c :: t, passed, h => by
    have hhere : m passed.head? (c :: (t ++ rest)) = none := h _ suffix_rfl (cons_ne_nil c t) _
    rw [cons_append, Matcher.firstFrom, hhere]
    simp only [firstFrom_skip rest (c :: passed) fun u hu => h u (hu.trans (suffix_cons c t))]
    simp

/-- A negation before the first heading of a formula goes around all of the translation, also around what stands before
it, and headings behind it stay. -/
theorem toBranching_negated {formula before rest : String} {agents : List Nat} (hne : agents ≠ []) {bound : Nat}
    (hformula : trim formula = before ++ "!" ++ (heading agents bound ++ rest)) (hbefore : '<' ∉ before.toList) :
    Heading.toBranching (some formula) = .ok ("!(" ++ (before ++ "A" ++ rest) ++ ")") := by
  obtain ⟨a, agents, rfl⟩ := exists_cons_of_ne_nil hne
  have hmatch : ∀ c, loose c ('!' :: (heading (a :: agents) bound ++ rest).toList) =
      some (⟨true, Coalition.text (a :: agents), toString bound⟩, rest.toList) := by
    intro c
    rw [toList_heading]
    exact congrArg (Option.map _) (loose_heading c a agents bound rest.toList)
  have hfirst : loose.first? (before ++ "!" ++ (heading (a :: agents) bound ++ rest)) =
      some (before, ⟨true, Coalition.text (a :: agents), toString bound⟩, rest) := by
    unfold Matcher.first?
    rw [String.append_assoc, String.toList_append, String.toList_append]
    have hskip := firstFrom_skip (m := loose) ('!' :: (heading (a :: agents) bound ++ rest).toList) []
      fun u hu hne before => loose_none before (fun h => hbefore (hu.mem h)) hne _
    rw [Matcher.firstFrom, hmatch] at hskip
    exact (congrArg (Option.map _) hskip).trans (by simp)
  unfold Heading.toBranching
  simp only [orFault, bind, Except.bind, hformula, hfirst]
  rfl

theorem toBranching_negated_behind : Heading.toBranching (some "q&&!<\x7b1\x7d,1>Fp") = .ok "!(q&&AFp)" ∧
    parse .natATL .natATL (.ofInt 1) "q&&!<\x7b1\x7d,1>Fp" =
      .ok (some (.binary "&&" (.atom "q") (.unary "!" (.unary "<\x7b1\x7d, 1>F" (.atom "p"))))) ∧
    parse .ctl .ctl .missing "!(q&&AFp)" =
      .ok (some (.unary "!" (.binary "&&" (.atom "q") (.unary "AF" (.atom "p"))))) := by
  have hformula : trim "q&&!<\x7b1\x7d,1>Fp" = "q&&" ++ "!" ++ (heading [1] 1 ++ "Fp") := by decide
  exact ⟨toBranching_negated (by decide) hformula (by decide), by decide, by decide⟩

/-! ## Shortening -/

theorem wholeWord_self (p : Word) : wholeWord p.text none p.text.toList = some ((), []) := by
  have hword : ∀ x ∈ p.text.toList, isWordChar x = true := fun x hx => isWordChar_of_lower (p.lower x hx)
  have hempty : p.text.isEmpty = false := by
    rw [← Bool.not_eq_true, String.isEmpty_iff]
    exact fun h => p.toList_ne_nil (by rw [h]; rfl)
  have hbehind : behind? p.text.toList p.text.toList = some [] := behind?_eq_some.2 (append_nil _).symm
  rw [wholeWord, hbehind, hempty, getLast?_eq_some_getLast p.toList_ne_nil, head?_eq_some_head p.toList_ne_nil]
  simp [isBoundary, hword]

theorem wholeWord_short {before : Option Char} (h : t.length < s.toList.length) : wholeWord s before t = none := by
  have hbehind : behind? s.toList t = none := by
    rw [Option.eq_none_iff_forall_ne_some]
    rintro rest hrest
    rw [behind?_eq_some.1 hrest, length_append] at h
    omega
  simp [wholeWord, hbehind]

/-- If the symbol of a proposition is the name of a shorter one, both are written with the symbol of the latter. -/
theorem shorten_chain (p q : Word) (symbol : String) (h : q.text.length < p.text.length) :
    shorten [(p.text, q.text), (q.text, symbol)] p.text = symbol ∧
      shorten [(p.text, q.text), (q.text, symbol)] q.text = symbol := by
  have hsorted : [(p.text, q.text), (q.text, symbol)].mergeSort (fun a b => b.1.length ≤ a.1.length) =
      [(p.text, q.text), (q.text, symbol)] := mergeSort_of_pairwise (by simpa using h.le)
  have hself : ∀ (w : Word) (new : String), (wholeWord w.text).replaceAll (fun _ => new) w.text = new := fun w new =>
    replaceAll_whole _ (fun before => wholeWord_short (length_pos_of_ne_nil w.toList_ne_nil)) w.toList_ne_nil (wholeWord_self w)
  have hkept : (wholeWord p.text).replaceAll (fun _ => q.text) q.text = q.text := by
    unfold Matcher.replaceAll
    rw [replaceFrom_none _ fun t ht before => wholeWord_short (ht.length_le.trans_lt h), String.ofList_toList]
  unfold shorten
  rw [hsorted]
  simp [hself, hkept]

theorem shorten_chain_alarm : symbolsFrom [] [.text "alarm", .text "a"] = .ok [("alarm", "a"), ("a", "b")] ∧
    shorten [("alarm", "a"), ("a", "b")] "alarm" = "b" ∧ shorten [("alarm", "a"), ("a", "b")] "a" = "b" :=
  ⟨by decide, shorten_chain ⟨"alarm", by decide, by decide⟩ ⟨"a", by decide, by decide⟩ "b" (by decide)⟩

end Arena.Formula
