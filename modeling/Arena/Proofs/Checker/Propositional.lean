/-
Propositional texts behind a quantifier over all paths or a coalition. Both lexicons read such a text as they read it
alone, so the two languages parse it to their operator over the same Boolean formula.
-/
import Arena.Proofs.Checker.Boolean

namespace Arena.Checker

open Formula Reading Lexicon Text Coalition List

variable {c d : Char} {o φ : String} {k : TokenKind} {lx : Lexicon} {agents : List Nat} {f : Formula} {n : Int}

/-- The characters of propositional texts: lower-case letters, operators, parentheses and blanks. -/
def IsPropositionalChar (c : Char) : Prop := c.isLower = true ∨ c ∈ " ()!&|->".toList

instance (c : Char) : Decidable (IsPropositionalChar c) := inferInstanceAs (Decidable (_ ∨ _))

/-- A text that is read as a propositional formula, by the lexicons of branching time and of coalitions alike. -/
structure Propositional (text : String) (f : Formula) : Prop where
  chars : ∀ c ∈ text.toList, IsPropositionalChar c
  alike : ctl.tokens text = atl.tokens text
  reads : Grammar.propositional.readFormula ((ctl.tokens text).length + 1) (ctl.tokens text) =
    found f []

theorem IsPropositionalChar.ne (h : IsPropositionalChar c) (hd : ¬ IsPropositionalChar d) :
    c ≠ d := fun e => hd (e ▸ h)

/-! ## Tokens -/

theorem literal_none {w : String} {ds : List Char} (hw : w.toList = d :: ds) (hc : c ≠ d) (s : List Char) :
    literal w (c :: s) = none := by
  cases h : literal w (c :: s) with
  | none => rfl
  | some r => exact absurd (literal_head hw h) hc

/-- The characters at which a propositional text is cut: the letter of an operator between two formulas, and the
blank. -/
def cuts : List Char := ['U', ' ']

theorem stopsFrom_untl (hc : c ∈ cuts) : StopsFrom IsPropositionalChar c untl.reads := by
  refine stopsFrom_firstOf fun m hm => ?_
  rcases mem_cons.1 hm with rfl | hm
  · exact stopsFrom_of_none fun x a hx => literal_none rfl (hx.ne (by decide)) a
  · obtain rfl := mem_singleton.1 hm
    refine (stopsAt_literal ?_).stopsFrom _
    revert c
    decide

theorem stopsFrom_coalition (c : Char) : StopsFrom IsPropositionalChar c coalition.reads := by
  refine stopsFrom_of_none fun x a hx => ?_
  have hopen : literal "<" (x :: a) = none := literal_none rfl (hx.ne (by decide)) a
  simp only [coalition, Formula.sequence, hopen]

theorem stopsFrom_of_mem (hlx : lx ∈ [ctl, atl]) (hc : c ∈ cuts) :
    ∀ r ∈ lx, StopsFrom IsPropositionalChar c r.reads := by
  rcases mem_pair.1 hlx with rfl | rfl <;> simp only [ctl, atl, forall_mem_cons] <;> and_intros <;> first
    | exact (stopsAt_oneOf (by revert c; decide)).stopsFrom _
    | exact (stopsAt_run (by revert c; decide)).stopsFrom _
    | exact (stopsAt_literal (by revert c; decide)).stopsFrom _
    | exact stopsFrom_untl hc
    | exact stopsFrom_coalition c
    | exact fun r hr => by cases hr

theorem tokensFrom_blanks (h : ∀ r ∈ lx, StopsFrom IsPropositionalChar ' ' r.reads)
    (hblank : ∀ rest, lx.front? (' ' :: rest) = none) {a bs : List Char} (ha : ∀ c ∈ a, IsPropositionalChar c)
    (hbs : ∀ b ∈ bs, b = ' ') : lx.tokensFrom 0 (a ++ bs) = lx.tokensFrom 0 a := by
  have hnone : ∀ bs : List Char, (∀ b ∈ bs, b = ' ') → lx.tokensFrom 0 bs = [] := by
    intro bs hbs
    induction bs with
    | nil => rfl
    | cons b bs ih =>
      obtain ⟨rfl, hrest⟩ := forall_mem_cons.1 hbs
      rw [tokensFrom, hblank]
      exact ih hrest
  cases bs with
  | nil => rw [append_nil]
  | cons b bs =>
    obtain ⟨rfl, hrest⟩ := forall_mem_cons.1 hbs
    rw [tokensFrom_before h bs a 0 (Nat.zero_le _) ha, hnone _ hbs, append_nil]

theorem lower_bounds (hc : c.isLower = true) : 97 ≤ c.toNat ∧ c.toNat ≤ 122 := by
  have hc : (decide (c.val ≥ 'a'.val) && decide (c.val ≤ 'z'.val)) = true := hc
  simpa [UInt32.le_iff_toNat_le] using hc

theorem not_lower_of_blank (hc : isBlank c = true) : c.isLower = false := by
  by_contra hlower
  obtain ⟨hlow, hup⟩ := lower_bounds (Bool.not_eq_false _ ▸ hlower)
  simp only [isBlank, Bool.or_eq_true, Bool.and_eq_true, decide_eq_true_eq, beq_iff_eq] at hc
  omega

theorem eq_blank (h : IsPropositionalChar c) (hb : isBlank c = true) : c = ' ' := by
  have hmarks : ∀ d ∈ " ()!&|->".toList, isBlank d = true → d = ' ' := by decide
  rcases h with h | h
  · rw [not_lower_of_blank hb] at h
    cases h
  · exact hmarks c h hb

theorem Propositional.trimRight {text : String} (h : Propositional text f) : Propositional (trimRight text) f := by
  have hsplit : text.toList = (Text.trimRight text).toList ++ (text.toList.reverse.takeWhile isBlank).reverse := by
    unfold Text.trimRight dropRight
    rw [String.toList_ofList, ← reverse_append, takeWhile_append_dropWhile, reverse_reverse]
  have hchars : ∀ c ∈ (Text.trimRight text).toList, IsPropositionalChar c := fun c hc =>
    h.chars c (hsplit ▸ mem_append_left _ hc)
  have hblanks : ∀ b ∈ (text.toList.reverse.takeWhile isBlank).reverse, b = ' ' := fun b hb =>
    eq_blank (h.chars b (hsplit ▸ mem_append_right _ hb)) (mem_takeWhile_imp (mem_reverse.1 hb))
  have htokens : ∀ lx ∈ [ctl, atl], lx.tokens (Text.trimRight text) = lx.tokens text := fun lx hlx => by
    have hblank : ∀ rest, lx.front? (' ' :: rest) = none := by
      rcases mem_pair.1 hlx with rfl | rfl <;> exact fun _ => rfl
    unfold tokens
    conv_rhs => rw [hsplit]
    exact (tokensFrom_blanks (stopsFrom_of_mem hlx (by decide)) hblank hchars hblanks).symm
  have hctl := htokens ctl (by simp)
  refine ⟨hchars, ?_, ?_⟩
  · rw [hctl, htokens atl (by simp), h.alike]
  · rw [hctl]
    exact h.reads

/-- The letters of the temporal operators before one formula, with their kinds. -/
def temporal : List (String × TokenKind) := [("X", .next), ("F", .eventually), ("G", .globally)]

theorem tokens_unary (hlx : lx ∈ [ctl, atl]) (ho : (o, k) ∈ temporal) (φ : String) :
    lx.tokens (o ++ φ) = ⟨k, o⟩ :: lx.tokens φ := by
  unfold tokens
  simp only [temporal, mem_cons, not_mem_nil, or_false] at hlx ho
  rcases hlx with rfl | rfl <;> rcases ho with ⟨rfl, rfl⟩ | ⟨rfl, rfl⟩ | ⟨rfl, rfl⟩ <;>
    simp only [String.toList_append] <;> rfl

theorem tokens_untl (hlx : lx ∈ [ctl, atl]) (hφ : ∀ c ∈ φ.toList, IsPropositionalChar c) (ψ : String) :
    lx.tokens (φ ++ "U" ++ ψ) = lx.tokens φ ++ ⟨.untl, "U"⟩ :: lx.tokens ψ := by
  have hbefore := tokensFrom_before (stopsFrom_of_mem hlx (c := 'U') (by decide)) ψ.toList φ.toList 0 (Nat.zero_le _) hφ
  unfold tokens
  simp only [String.toList_append, append_assoc]
  change lx.tokensFrom 0 (φ.toList ++ 'U' :: ψ.toList) = _
  rw [hbefore]
  rcases mem_pair.1 hlx with rfl | rfl <;> rfl

theorem tokens_path (rest : String) : ctl.tokens ("A" ++ rest) = ⟨.everyPath, "A"⟩ :: ctl.tokens rest := by
  unfold tokens
  rw [String.toList_append]
  rfl

theorem tokens_coalition (hne : agents ≠ []) (rest : String) :
    atl.tokens ("<" ++ text agents ++ ">" ++ rest) =
      ⟨.coalition, "<" ++ text agents ++ ">"⟩ :: atl.tokens rest := by
  obtain ⟨a, agents, rfl⟩ := exists_cons_of_ne_nil hne
  have htext : String.ofList ('<' :: (chars a agents ++ ['>'])) =
      "<" ++ text (a :: agents) ++ ">" := by
    apply String.toList_injective
    simp [toList_text]
  unfold tokens
  rw [← htext, ← tokensFrom_coalition]
  simp

/-! ## Agents -/

theorem digitRunsFrom_chars : ∀ (agents : List Nat) (a : Nat),
    digitRunsFrom [] (chars a agents ++ ['>']) = (a :: agents).map (Nat.toDigits 10)
  | [], a => by
    have hlast := digitRunsFrom_numeral a (show isDigit '>' = false by decide) []
    rw [chars, flatMap_nil, append_nil, hlast]
    rfl
  | b :: agents, a => by
    have heq : chars a (b :: agents) ++ ['>'] =
        Nat.toDigits 10 a ++ ',' :: (chars b agents ++ ['>']) := by simp [chars]
    rw [heq, digitRunsFrom_numeral a (by decide), digitRunsFrom_chars agents b]
    rfl

theorem digitRuns_coalition (hne : agents ≠ []) : digitRuns ("<" ++ text agents ++ ">") = agents.map toString := by
  obtain ⟨a, agents, rfl⟩ := exists_cons_of_ne_nil hne
  have hlist : ("<" ++ text (a :: agents) ++ ">").toList = '<' :: (chars a agents ++ ['>']) := by
    simp [toList_text]
  unfold digitRuns
  rw [hlist, digitRunsFrom, if_neg (by decide), if_pos (show ([] : List Char).isEmpty = true from rfl),
    digitRunsFrom_chars, map_map]
  exact map_congr_left fun b _ => Nat.toString_eq_ofList_toDigits.symm

theorem checkAgents_eq_ok : ∀ {agents : List Nat},
    (∀ a ∈ agents, a < 10 ^ maxDigits ∧ (a : Int) ≤ n) → checkAgents (.ofInt n) (agents.map toString) = .ok ()
  | [], _ => rfl
  | a :: agents, h => by
    obtain ⟨⟨hlt, hle⟩, hagents⟩ := forall_mem_cons.1 h
    have hnot : ¬ (a : Int) > n := by omega
    rw [map_cons, checkAgents, readInt?_toString hlt]
    simp only [orFault, AgentCount.ofInt, bind, Except.bind, if_neg hnot]
    exact checkAgents_eq_ok hagents

/-! ## Parsing -/

theorem readsPropositional_ctl : Grammar.ctl.ReadsPropositional := ⟨rfl, rfl, rfl, rfl, rfl⟩

theorem readsPropositional_atl (agents : AgentCount) : (Grammar.atl agents).ReadsPropositional :=
  ⟨rfl, rfl, rfl, rfl, rfl⟩

theorem isHead_coalition (count : AgentCount) (text : String) : (Grammar.atl count).IsHead ⟨.coalition, text⟩ :=
  ⟨mem_singleton_self _, show TokenKind.coalition ∉ _ by decide⟩

theorem temporal_kind (ho : (o, k) ∈ temporal) : k ∈ [TokenKind.globally, .next, .eventually] := by
  simp only [temporal, mem_cons, not_mem_nil, or_false] at ho
  rcases ho with ⟨-, rfl⟩ | ⟨-, rfl⟩ | ⟨-, rfl⟩ <;> decide

section Parsing

variable {φ ψ : String} {g : Formula} (hφ : Propositional φ f) (hψ : Propositional ψ g)

include hφ

theorem parse_path_unary (ho : (o, k) ∈ temporal) (count : AgentCount) :
    parse .ctl .ctl count ("A" ++ o ++ φ) = .ok (some (.unary ("A" ++ o) f)) := by
  unfold parse
  simp only [Logic.lexicon, String.append_assoc, tokens_path, tokens_unary mem_cons_self ho]
  exact Grammar.parse_head_unary readsPropositional_ctl ⟨by decide, by decide⟩ (temporal_kind ho) rfl hφ.reads

include hψ in
theorem parse_path_untl (count : AgentCount) :
    parse .ctl .ctl count ("A" ++ φ ++ "U" ++ ψ) = .ok (some (.binary "AU" f g)) := by
  unfold parse
  rw [show "A" ++ φ ++ "U" ++ ψ = "A" ++ (φ ++ "U" ++ ψ) by simp only [String.append_assoc]]
  simp only [Logic.grammar, Logic.lexicon, tokens_path, tokens_untl mem_cons_self hφ.chars]
  exact Grammar.parse_head_binary readsPropositional_ctl ⟨by decide, by decide⟩ (by decide) (by decide) (by decide) rfl
    hφ.reads hψ.reads

variable (hne : agents ≠ []) (hagents : ∀ a ∈ agents, a < 10 ^ maxDigits ∧ (a : Int) ≤ n)

include hne hagents

omit hφ in
theorem headRule_coalition (between : Bool) (o : String) :
    (Grammar.atl (.ofInt n)).headRule between ("<" ++ text agents ++ ">") o =
      .ok (some (label agents o)) := by
  change checkedHead (.ofInt n) between ("<" ++ text agents ++ ">") o = _
  unfold checkedHead
  rw [digitRuns_coalition hne, checkAgents_eq_ok hagents]
  rfl

theorem parse_coalition_unary (ho : (o, k) ∈ temporal) :
    parse .atl .atl (.ofInt n) (label agents o ++ φ) =
      .ok (some (.unary (label agents o) f)) := by
  have htext : label agents o ++ φ = "<" ++ text agents ++ ">" ++ (o ++ φ) := by
    simp only [label, String.append_assoc]
  have hreads := hφ.reads
  rw [hφ.alike] at hreads
  have hparse := Grammar.parse_head_unary (o := ⟨k, o⟩) (readsPropositional_atl (.ofInt n))
    (isHead_coalition (.ofInt n) _) (temporal_kind ho) (headRule_coalition hne hagents false o) hreads
  unfold parse
  simp only [Logic.grammar, Logic.lexicon, htext, tokens_coalition hne, tokens_unary (mem_pair.2 (.inr rfl)) ho, hparse]

include hψ in
theorem parse_coalition_untl :
    parse .atl .atl (.ofInt n) ("<" ++ text agents ++ ">" ++ (φ ++ "U" ++ ψ)) =
      .ok (some (.binary (label agents "U") f g)) := by
  have hreads := hφ.reads
  have hreads' := hψ.reads
  rw [hφ.alike] at hreads
  rw [hψ.alike] at hreads'
  have hparse := Grammar.parse_head_binary (o := ⟨.untl, "U"⟩) (readsPropositional_atl (.ofInt n))
    (isHead_coalition (.ofInt n) _)
    (show ∀ k ∈ [TokenKind.globally, .next, .eventually], _ by decide) (mem_singleton_self _)
    (show TokenKind.untl ∉ Grammar.connectives by decide) (headRule_coalition hne hagents true "U") hreads hreads'
  unfold parse
  simp only [Logic.grammar, Logic.lexicon, tokens_coalition hne, tokens_untl (mem_pair.2 (.inr rfl)) hφ.chars, hparse]

end Parsing

/-! ## Labels -/

theorem Propositional.boolean (h : Propositional φ f) : Boolean f := by
  refine (boolean_of_propositional h.reads fun t ht => ?_).1
  rw [h.alike] at ht
  constructor
  · intro hkind
    obtain ⟨c, rest, lexeme, -, hf, htext⟩ := exists_front_of_mem _ _ ht
    rw [hkind] at hf
    obtain rfl := marks_atl.negation hf
    have hlex : some (TokenKind.not, ['!']) = some (TokenKind.not, lexeme) := hf
    rw [htext, ← (Prod.mk.inj (Option.some.inj hlex)).2]
  · intro k op hop hkind
    have hmem : ∀ r ∈ atl, t.kind = r.kind → ∀ {ws}, r.reads = oneOf ws → t.text ∈ ws := fun r hr hk _ hws =>
      text_mem (by decide) ht hr hk hws
    simp only [mem_cons, not_mem_nil, or_false] at hop
    rcases hop with ⟨rfl, rfl⟩ | ⟨rfl, rfl⟩ | ⟨rfl, rfl⟩
    · exact hmem Lexicon.or (by simp [atl]) hkind rfl
    · exact hmem Lexicon.and (by simp [atl]) hkind rfl
    · exact hmem implies (by simp [atl]) hkind rfl

end Arena.Checker
