/-
Texts of sets as leaves of a formula. A checker looks for operators in the text of every node, so it leaves a leaf only
when its names are not taken for operators. In branching time it is enough that no quoted name holds the token of an
operator, for coalitions that no name has one of the marks `!` and `<`. The default names `s0`, `s1`, ... are of both
kinds.
-/
import Arena.Checker.Alternating
import Arena.Checker.Branching
import Arena.Proofs.Data.SetText
import Arena.Proofs.Formula.Tokens

namespace Arena.Checker

open Formula Text Expression Names Lexicon List Model

variable {c q x : Char} {a : Names} {k : TokenKind} {s : String} {l : Logic}

/-- The kinds of the tokens that are no operators. -/
def inert : List TokenKind := [.prop, .lparen, .rparen]

/-- A name whose quoted form, in which it stands in the text of a set, has no token of an operator. -/
def Plain (l : Logic) (name : String) : Prop := ∀ k ∈ kindsIn l (quote name), k ∈ inert

instance (l : Logic) (name : String) : Decidable (Plain l name) := inferInstanceAs (Decidable (∀ _ ∈ _, _))

/-! ## Tokens of the texts of sets -/

/-- The text of a set has a property just if one of its quoted names has it, when it is one that quoted names divide and
that what is written around them does not have. -/
theorem print_iff {P : List Char → Prop} (hP : ∀ a s b, P (a ++ (quoteList s ++ b)) ↔ P a ∨ P (quoteList s) ∨ P b)
    (hframe : ¬ P ['\x7b'] ∧ ¬ P [',', ' '] ∧ ¬ P ['\x7d']) (hne : a ≠ []) :
    P a.print.toList ↔ ∃ n ∈ a, P (quoteList n.toList) := by
  have hothers : ∀ ns : List String, P (others ns ++ ['\x7d']) ↔ ∃ n ∈ ns, P (quoteList n.toList) := by
    intro ns
    induction ns with
    | nil => simpa [others] using hframe.2.2
    | cons n ns ih =>
      have heq : others (n :: ns) ++ ['\x7d'] = [',', ' '] ++ (quoteList n.toList ++ (others ns ++ ['\x7d'])) := by
        simp [others]
      rw [heq, hP, ih, or_iff_right hframe.2.1, exists_mem_cons_iff]
  rcases hs : sorted a with _ | ⟨n, ns⟩
  · exact absurd (hs ▸ sorted_perm a).symm.eq_nil hne
  · have heq : a.print.toList = ['\x7b'] ++ (quoteList n.toList ++ (others ns ++ ['\x7d'])) := by
      rw [print_cons hs]
      simp [braced]
    have hmem : ∀ m, m ∈ a ↔ m ∈ n :: ns := fun m => by rw [← mem_sorted, hs]
    simp only [heq, hP, hothers, or_iff_right hframe.1, hmem, exists_mem_cons_iff]

/-- A lexicon whose tokens hold no quotes and that reads no operators in what writing a set adds to its names. -/
structure Frames (l : Logic) : Prop where
  quotes : ∀ {q}, IsQuote q → l.lexicon.Separates q
  opening : l.lexicon.tokensFrom 0 ['\x7b'] = []
  between : l.lexicon.tokensFrom 0 [',', ' '] = []
  closing : l.lexicon.tokensFrom 0 ['\x7d'] = []
  empty : ∀ k ∈ kindsIn l "set()", k ∈ inert

/-- The lexicons that are used for sets. -/
def framing : List Logic := [.ctl, .rbatl, .rabatl]

theorem stopsAt_boundedCoalition (hc : c ∈ ['\'', '"', '\\']) : StopsAt c boundedCoalition.reads := by
  have hlist : StopsAt c numeralList := stopsAt_numeralList (by revert c; decide) (by revert c; decide)
  apply stopsAt_sequence
  simp only [forall_mem_cons]
  refine ⟨stopsAt_literal ?_, hlist, stopsAt_literal ?_, stopsAt_literal ?_, hlist, stopsAt_literal ?_, by simp⟩ <;>
    (clear hlist; revert c; decide)

theorem separates (hl : l ∈ framing) (hc : c ∈ ['\'', '"', '\\']) : l.lexicon.Separates c := by
  refine ⟨?_, by revert l; decide⟩
  fin_cases hl <;> simp only [Logic.lexicon, ctl, rbatl, rabatl, forall_mem_cons] <;> and_intros <;> first
    | exact stopsAt_oneOf (by revert c; decide)
    | exact stopsAt_run (by revert c; decide)
    | exact stopsAt_literal (by revert c; decide)
    | exact stopsAt_boundedCoalition hc
    | exact stopsAt_sequence (forall_mem_cons.2 ⟨stopsAt_run (by revert c; decide),
        forall_mem_singleton.2 (stopsAt_anyRun (by revert c; decide))⟩)
    | exact fun r hr => absurd hr not_mem_nil

theorem separates_ctl (hc : c ∈ ['\'', '"', '\\']) : ctl.Separates c := separates (l := .ctl) (by decide) hc

theorem separates_ctl_quote (hq : IsQuote q) : ctl.Separates q :=
  separates_ctl (by rcases hq with rfl | rfl <;> simp)

theorem frames (hl : l ∈ framing) : Frames l where
  quotes {q} hq := separates hl (by rcases hq with rfl | rfl <;> simp)
  opening := by revert l; decide
  between := by revert l; decide
  closing := by revert l; decide
  empty := by revert l; decide

section Frames

variable (hl : Frames l)

include hl

theorem tokens_around_quote (a s b : List Char) :
    l.lexicon.tokensFrom 0 (a ++ (quoteList s ++ b)) =
      l.lexicon.tokensFrom 0 a ++ (l.lexicon.tokensFrom 0 (quoteList s) ++ l.lexicon.tokensFrom 0 b) := by
  have hsep := hl.quotes (isQuote_quoteFor s)
  have hin : ∀ a b, l.lexicon.tokensFrom 0 (a ++ (quoteList s ++ b)) = l.lexicon.tokensFrom 0 a ++
      (l.lexicon.tokensFrom 0 (s.flatMap (escapeChar (quoteFor s))) ++ l.lexicon.tokensFrom 0 b) := by
    intro a b
    simp only [quoteList, cons_append, append_assoc, nil_append]
    rw [tokensFrom_append hsep _ a 0 (Nat.zero_le _),
      tokensFrom_append hsep _ _ 0 (Nat.zero_le _)]
  have hself := hin [] []
  simp only [nil_append, append_nil] at hself
  rw [hin, hself]
  simp [tokensFrom]

theorem mem_kindsIn_print (hne : a ≠ []) : k ∈ kindsIn l a.print ↔ ∃ n ∈ a, k ∈ kindsIn l (quote n) := by
  simp only [kindsIn, tokens, quote, String.toList_ofList]
  refine print_iff (P := fun cs => k ∈ (l.lexicon.tokensFrom 0 cs).map (·.kind)) (fun a s b => ?_) ?_ hne
  · rw [tokens_around_quote hl, map_append, map_append, mem_append, mem_append]
  · simp [hl.opening, hl.between, hl.closing]

theorem kindsIn_print (h : k ∈ kindsIn l a.print) : k ∈ inert ∨ ∃ n ∈ a, k ∈ kindsIn l (quote n) := by
  by_cases ha : a = []
  · subst ha
    exact .inl (hl.empty k h)
  · exact .inr ((mem_kindsIn_print hl ha).1 h)

end Frames

/-! ## Branching time -/

theorem branching_of?_print (h : ∀ n ∈ a, Plain .ctl n) : Branching.Unary.of? a.print = none := by
  have hk : ∀ k ∈ kindsIn .ctl a.print, k ∈ inert := by
    intro k hk
    rcases kindsIn_print (frames (by decide)) hk with hk | ⟨n, hn, hk⟩
    · exact hk
    · exact h n hn k hk
  have hnot : ∀ k, k ∉ inert → (kindsIn .ctl a.print).contains k = false := by
    intro k hi
    rw [contains_eq_mem, decide_eq_false_iff_not]
    exact fun hm => hi (hk k hm)
  unfold Branching.Unary.of?
  simp only [hnot .not (by decide), hnot .next (by decide), hnot .eventually (by decide),
    hnot .globally (by decide), Bool.and_false, Bool.false_eq_true, if_false]

/-! ## Printable names -/

theorem escapeChar_printable (hc : isPrintable c = true) (hq : c ≠ q) (hb : c ≠ '\\') : escapeChar q c = [c] := by
  have hne : ∀ d, isPrintable d = false → c ≠ d := by rintro d hd rfl; rw [hc] at hd; cases hd
  unfold escapeChar
  simp only [hq, hb, decide_false, Bool.or_false, Bool.false_eq_true, if_false, hc, if_true,
    hne '\t' (by decide), hne '\n' (by decide), hne '\r' (by decide)]

theorem tokens_escaped {q : Char} (hq : IsQuote q) : ∀ (s a : List Char), (∀ c ∈ s, isPrintable c = true) →
    ctl.tokensFrom 0 (a ++ s.flatMap (escapeChar q)) = ctl.tokensFrom 0 (a ++ s)
  | [], a, _ => by simp
  | c :: s, a, h => by
    obtain ⟨hc, hs⟩ := forall_mem_cons.1 h
    have ih := tokens_escaped hq s
    rw [flatMap_cons]
    by_cases hsep : c = q ∨ c = '\\'
    · have hcs : ctl.Separates c := by
        rcases hsep with rfl | rfl
        · exact separates_ctl_quote hq
        · exact separates_ctl (by simp)
      -- a backslash separates as well, so the one before the character adds no token
      have hesc : escapeChar q c = ['\\', c] := by unfold escapeChar; simp [hsep]
      have htwo : a ++ (['\\', c] ++ s.flatMap (escapeChar q)) =
        a ++ '\\' :: ([] ++ c :: s.flatMap (escapeChar q)) := by simp
      rw [hesc, htwo, tokensFrom_append (separates_ctl (by simp)) _ _ _ (Nat.zero_le _),
        tokensFrom_append hcs _ _ _ (Nat.zero_le _), tokensFrom_append hcs _ _ _ (Nat.zero_le _)]
      have := ih [] hs
      simp only [nil_append] at this
      rw [this]; rfl
    · rw [not_or] at hsep
      rw [escapeChar_printable hc hsep.1 hsep.2, ← append_assoc, ih (a ++ [c]) hs]
      simp

theorem kindsIn_quote {name : String} (h : ∀ c ∈ name.toList, isPrintable c = true) :
    kindsIn .ctl (quote name) = kindsIn .ctl name := by
  have hq := isQuote_quoteFor name.toList
  have hsep := separates_ctl_quote hq
  have htokens : ctl.tokensFrom 0 (quoteList name.toList) = ctl.tokensFrom 0 name.toList := by
    have heq : quoteList name.toList = [] ++ quoteFor name.toList ::
      (name.toList.flatMap (escapeChar (quoteFor name.toList)) ++ quoteFor name.toList :: []) := by simp [quoteList]
    rw [heq, tokensFrom_append hsep _ _ _ (Nat.zero_le _),
      tokensFrom_append hsep _ _ _ (Nat.zero_le _)]
    have := tokens_escaped hq name.toList [] h
    simp only [nil_append] at this
    rw [this]
    simp [tokensFrom]
  unfold kindsIn tokens
  simp only [Logic.lexicon, quote, String.toList_ofList, htokens]

/-! ## Coalitions -/

/-- The characters that writing a set adds to those of its names. -/
def frame : List Char := "set()\x7b\x7d', \"\\nrtxuU0123456789abcdef".toList

theorem mem_hexDigits_frame (w : Nat) : ∀ n, x ∈ hexDigits w n → x ∈ frame := by
  induction w with
  | zero => intro n h; cases h
  | succ w ih =>
    intro n h
    simp only [hexDigits, mem_append, mem_singleton] at h
    rcases h with h | rfl
    · exact ih _ h
    · have : ∀ d < 16, Nat.digitChar d ∈ frame := by decide
      exact this _ (Nat.mod_lt _ (by decide))

theorem mem_escapeChar (h : x ∈ escapeChar q c) : x = c ∨ x ∈ frame := by
  unfold escapeChar at h
  split_ifs at h
  · rcases mem_pair.1 h with rfl | rfl
    · exact .inr (by decide)
    · exact .inl rfl
  · exact .inr (by revert x; decide)
  · exact .inr (by revert x; decide)
  · exact .inr (by revert x; decide)
  · exact .inl (mem_singleton.1 h)
  all_goals
    rcases mem_cons.1 h with rfl | h
    · exact .inr (by decide)
    rcases mem_cons.1 h with rfl | h
    · exact .inr (by decide)
    · exact .inr (mem_hexDigits_frame _ _ h)

theorem mem_quoteList {s : List Char} (h : x ∈ quoteList s) : x ∈ s ∨ x ∈ frame := by
  have hq : quoteFor s ∈ frame := by rcases isQuote_quoteFor s with h | h <;> rw [h] <;> decide
  simp only [quoteList, mem_append, mem_cons, mem_flatMap, not_mem_nil, or_false] at h
  rcases h with (rfl | ⟨c, hc, h⟩) | rfl
  · exact .inr hq
  · rcases mem_escapeChar h with rfl | h
    · exact .inl hc
    · exact .inr h
  · exact .inr hq

theorem mem_print (h : x ∈ a.print.toList) : (∃ n ∈ a, x ∈ n.toList) ∨ x ∈ frame := by
  by_cases ha : a = []
  · subst ha
    exact .inr (by revert x; decide)
  by_cases hx : x ∈ frame
  · exact .inr hx
  have hno : ∀ cs : List Char, (∀ y ∈ cs, y ∈ frame) → x ∉ cs := fun _ hsub hin => hx (hsub x hin)
  have hiff := print_iff (P := (x ∈ ·)) (fun _ _ _ => by simp)
    ⟨hno _ (by decide), hno _ (by decide), hno _ (by decide)⟩ ha
  obtain ⟨n, hn, hin⟩ := hiff.1 h
  exact (mem_quoteList hin).imp_left fun hin => ⟨n, hn, hin⟩

/-- A lexicon whose negations and whose tokens of one more kind begin with a mark. -/
structure Marks (lx : Lexicon) (k : TokenKind) : Prop where
  negation : ∀ {c rest lexeme}, lx.front? (c :: rest) = some (.not, lexeme) → c = '!'
  bracket : ∀ {c rest lexeme}, lx.front? (c :: rest) = some (k, lexeme) → c = '<'

/-- Negations begin with a mark in a lexicon that has a rule before theirs for texts that begin as the word
does; the tokens in brackets do because their rule begins with one. -/
theorem marks_of (as bs : Lexicon) {lx : Lexicon} {before : Formula.Rule} (marked : Formula.Rule) {w : String}
    {ds : List Char} {ms : List Matcher} (hlx : lx = as ++ before :: bs) (hkinds : (lx.map (·.kind)).Nodup) (hnot : Lexicon.not ∈ bs)
    (hword : ∀ rest, before.reads ('n' :: rest) ≠ none) (hmarked : marked ∈ lx)
    (hreads : marked.reads = Formula.sequence (literal w :: ms)) (hw : w.toList = '<' :: ds) :
    Marks lx marked.kind where
  negation {c rest lexeme} h := by
    obtain ⟨r', hr', hkind, tail, hread⟩ := exists_rule_of_front h
    obtain rfl : r' = Lexicon.not := rule_unique hkinds hr' (by simp [hlx, hnot]) hkind
    simp only [Lexicon.not, oneOf, firstOf, map_cons] at hread
    cases hl : literal "!" (c :: rest) with
    | some r => exact literal_head rfl hl
    | none =>
      rw [hl] at hread
      cases hn : literal "not" (c :: rest) with
      | none => rw [hn] at hread; cases hread
      | some _ =>
        -- the rule before reads this text
        obtain rfl : c = 'n' := literal_head rfl hn
        refine absurd (reads_none_of_front (hlx ▸ h) fun x hx hxk => ?_) (hword rest)
        rw [hlx, append_cons, map_append] at hkinds
        refine (nodup_append.1 hkinds).2.2 x.kind (mem_map_of_mem ?_) _ (mem_map_of_mem hnot) hxk
        simpa using hx
  bracket {c rest lexeme} h := by
    obtain ⟨r', hr', hkind, tail, hread⟩ := exists_rule_of_front h
    obtain rfl : r' = marked := rule_unique hkinds hr' hmarked hkind
    simp only [hreads, Formula.sequence] at hread
    cases hl : literal w (c :: rest) with
    | none => rw [hl] at hread; cases hread
    | some r => exact literal_head hw hl

theorem marks_atl : Marks atl .coalition :=
  marks_of (atl.take 6) (atl.drop 7) coalition rfl (by decide) (by simp [atl])
    (fun rest => by simp [run]) (by simp [atl]) rfl rfl

theorem marks_ol : Marks ol .demonic :=
  marks_of (ol.take 12) (ol.drop 13)
    ⟨.demonic, sequence [literal "<J", positive, literal ">"]⟩ rfl (by decide)
    (by simp [ol]) (fun rest => by simp [prop, run]) (by simp [ol]) rfl rfl

theorem marks_rbatl : Marks rbatl .boundedCoalition :=
  marks_of (rbatl.take 7) (rbatl.drop 8) boundedCoalition rfl (by decide)
    (by simp [rbatl]) (fun rest => by simp [run]) (by simp [rbatl]) rfl rfl

/-- A name without the marks of a negation and of a coalition, as every name of letters and digits is. -/
def Unmarked (name : String) : Prop := ∀ c ∈ name.toList, c ≠ '!' ∧ c ≠ '<'

instance (name : String) : Decidable (Unmarked name) := inferInstanceAs (Decidable (∀ _ ∈ _, _))

/-- A kind of token that begins with one character does not occur in a text without it. -/
theorem kindsIn_absent {d : Char} (hfront : ∀ c rest lexeme, l.lexicon.front? (c :: rest) = some (k, lexeme) → c = d)
    (hd : d ∉ s.toList) : (kindsIn l s).contains k = false := by
  rw [contains_eq_mem, decide_eq_false_iff_not]
  intro hk
  obtain ⟨t, ht, rfl⟩ := mem_map.1 hk
  obtain ⟨c, rest, lexeme, hc, hf, -⟩ := exists_front_of_mem _ _ ht
  exact hd (hfront c rest lexeme hf ▸ hc)

theorem Marks.absent (hm : Marks l.lexicon k) (h : Unmarked s) :
    (kindsIn l s).contains .not = false ∧ (kindsIn l s).contains k = false :=
  ⟨kindsIn_absent (fun _ _ _ => hm.negation) fun hc => (h _ hc).1 rfl,
    kindsIn_absent (fun _ _ _ => hm.bracket) fun hc => (h _ hc).2 rfl⟩

theorem unmarked_print (h : ∀ n ∈ a, Unmarked n) : Unmarked a.print := by
  have hframe : ∀ c ∈ frame, c ≠ '!' ∧ c ≠ '<' := by decide
  intro c hc
  rcases mem_print hc with ⟨n, hn, hm⟩ | hm
  · exact h n hn c hm
  · exact hframe c hm

theorem alternating_of?_print (h : ∀ n ∈ a, Unmarked n) : Alternating.Unary.of? a.print = none := by
  obtain ⟨hnot, hcoal⟩ := marks_atl.absent (l := .atl) (unmarked_print h)
  unfold Alternating.Unary.of?
  simp only [hnot, hcoal, Bool.false_and, Bool.false_eq_true, if_false]

/-! ## Default names -/

theorem toList_defaultName (i : Nat) : (defaultName i).toList = 's' :: Nat.toDigits 10 i := by
  unfold defaultName
  rw [String.toList_append, show toString (i : Int) = i.repr from rfl, Nat.toList_repr]; rfl

theorem mem_defaultName {i : Nat} (h : c ∈ (defaultName i).toList) : c ∈ 's' :: decimals := by
  rw [toList_defaultName] at h
  rcases mem_cons.1 h with rfl | h
  · exact mem_cons_self ..
  · exact mem_cons_of_mem _ (mem_toDigits h)

theorem quoteList_defaultName (i : Nat) :
    quoteList (defaultName i).toList = '\'' :: ((defaultName i).toList ++ ['\'']) := by
  have hchars : ∀ c ∈ 's' :: decimals, c ≠ '\'' ∧ c ≠ '\\' ∧ isPrintable c = true := by decide
  have hquote : quoteFor (defaultName i).toList = '\'' := by
    unfold quoteFor
    rw [if_neg]
    simp only [Bool.and_eq_true, contains_iff_mem, not_and]
    intro hm
    exact absurd rfl (hchars _ (mem_defaultName hm)).1
  have hescape : ∀ c ∈ (defaultName i).toList, escapeChar '\'' c = [c] := by
    intro c hc
    obtain ⟨hq, hb, hp⟩ := hchars c (mem_defaultName hc)
    exact escapeChar_printable hp hq hb
  rw [quoteList, hquote, flatMap_congr hescape, flatMap_singleton']
  rfl

theorem front?_ctl_decimal (hc : c ∈ decimals) (rest : List Char) : ctl.front? (c :: rest) = none := by
  fin_cases hc <;> rfl

theorem plain_defaultName (i : Nat) : Plain .ctl (defaultName i) := by
  have hp : ∀ c ∈ 's' :: decimals, isPrintable c = true := by decide
  intro k hk
  rw [kindsIn_quote fun c hc => hp c (mem_defaultName hc)] at hk
  obtain ⟨t, ht, rfl⟩ := mem_map.1 hk
  obtain ⟨c, rest, lexeme, hc, hf, -⟩ := exists_front_of_mem _ _ ht
  rcases mem_cons.1 (mem_defaultName hc) with rfl | hc
  · have hprop : t.kind = .prop := by
      exact (Prod.mk.inj (Option.some.inj hf)).1.symm
    rw [hprop]; decide
  · rw [Logic.lexicon, front?_ctl_decimal hc] at hf; cases hf

theorem unmarked_defaultName (i : Nat) : Unmarked (defaultName i) := by
  have hmark : ∀ c ∈ 's' :: decimals, c ≠ '!' ∧ c ≠ '<' := by decide
  exact fun c hc => hmark c (mem_defaultName hc)

end Arena.Checker
