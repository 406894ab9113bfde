/-
Checks one after the other. The checker with joint prices remembers what it has solved, under formulas whose atoms are
already sets of states. As long as the models agree in their states, transitions and costs, every check answers as if it
were the first. The checker with prices for each agent forgets everything.
-/
import Arena.Proofs.Checker.Memory

namespace Arena

open Formula Lexicon List Model

variable {s lexeme rest : List Char} {m m' : Model} {p : Pricing} {α : Type} {agents : AgentCount} {cs : List Char}
  {t : Token} {f : Formula}

/-! ## Labels of formulas with bounds -/

namespace Formula

theorem sequence_cons_eq {m : Matcher} {ms : List Matcher} (h : sequence (m :: ms) s = some (lexeme, rest)) :
    ∃ a s' b, m s = some (a, s') ∧ sequence ms s' = some (b, rest) ∧ lexeme = a ++ b := by
  unfold sequence at h
  split at h
  · cases h
  · rename_i a s' ha
    split at h
    · cases h
    · rename_i b rest' hb
      cases h
      exact ⟨a, s', b, ha, hb, rfl⟩

end Formula

namespace Checker.Bounded

theorem numeric_numerals : ∀ (fuel : Nat) {s lexeme rest : List Char}, numerals fuel s = some (lexeme, rest) →
    Numeric lexeme
  | 0, _, _, _, h => by cases h
  | fuel + 1, s, lexeme, rest, h => by
    unfold numerals at h
    split at h
    · cases h
    · rename_i n tail hrun
      have hn : Numeric n := by
        unfold run at hrun
        split at hrun
        · cases hrun
        · cases hrun
          exact fun c hc => .inr (mem_takeWhile_imp hc)
      split at h
      · split at h
        · rename_i more rest' hmore
          cases h
          intro c hc
          rcases mem_append.1 hc with hc | hc
          · exact hn c hc
          · rcases mem_cons.1 hc with rfl | hc
            · exact .inl rfl
            · exact numeric_numerals fuel hmore c hc
        · cases h
          exact hn
      · cases h
        exact hn

/-- Numerals with commas between them, as the lexer reads them. -/
def Numerals (cs : List Char) : Prop := numeralList cs = some (cs, [])

theorem Numerals.numeric (h : Numerals cs) : Numeric cs := numeric_numerals _ h

theorem numeralList_bracket (cs rest : List Char) :
    numeralList (cs ++ '>' :: rest) = (numeralList cs).map fun r => (r.1, r.2 ++ '>' :: rest) :=
  (stopsAt_numeralList (by decide) (by decide)).stops cs rest

theorem Numerals.reads (h : Numerals cs) (rest : List Char) :
    numeralList (cs ++ '>' :: rest) = some (cs, '>' :: rest) := by
  rw [numeralList_bracket, h]
  rfl

theorem numerals_of_reads (h : numeralList s = some (lexeme, '>' :: rest)) : Numerals lexeme := by
  rw [numerals_reads _ _ _ _ h, numeralList_bracket] at h
  obtain ⟨⟨a, b⟩, hr, heq⟩ := Option.map_eq_some_iff.1 h
  simp only [Prod.mk.injEq, append_left_eq_self] at heq
  rw [Numerals, hr, heq.1, heq.2]

theorem reads_boundedCoalition_eq (h : boundedCoalition.reads s = some (lexeme, rest)) :
    ∃ A B, Numerals A ∧ Numerals B ∧ lexeme = '<' :: (A ++ '>' :: '<' :: (B ++ ['>'])) := by
  obtain ⟨a₁, _, _, h₁, hs₁, rfl⟩ := sequence_cons_eq h
  obtain ⟨A, _, _, hA, hs₂, rfl⟩ := sequence_cons_eq hs₁
  obtain ⟨a₂, _, _, h₂, hs₃, rfl⟩ := sequence_cons_eq hs₂
  obtain ⟨a₃, _, _, h₃, hs₄, rfl⟩ := sequence_cons_eq hs₃
  obtain ⟨B, _, _, hB, hs₅, rfl⟩ := sequence_cons_eq hs₄
  obtain ⟨a₄, _, _, h₄, hs₆, rfl⟩ := sequence_cons_eq hs₅
  cases hs₆
  rw [(literal_eq_some h₂).2] at hA
  rw [(literal_eq_some h₄).2] at hB
  refine ⟨A, B, numerals_of_reads hA, numerals_of_reads hB, ?_⟩
  rw [(literal_eq_some h₁).1, (literal_eq_some h₂).1, (literal_eq_some h₃).1, (literal_eq_some h₄).1]
  simp

/-- A sign, or a word behind a coalition and a bound. -/
def Spoken (signs words : List String) (l : String) : Prop :=
  l ∈ signs ∨ ∃ A B o, Numerals A ∧ Numerals B ∧ o ∈ words ∧ l = headed A B o.toList

theorem Spoken.known {signs words : List String} {l : String} (hs : signs ⊆ connectives) (h : Spoken signs words l) :
    Known l := by
  rcases h with h | ⟨A, B, o, hA, hB, -, rfl⟩
  · exact .connective (hs h)
  · exact .headed hA.numeric hB.numeric _

def unaryWords : List String := ["X", "F", "eventually", "G", "globally", "always"]

def binaryWords : List String := ["U", "R", "release", "W"]

/-- The words of the rules for operators. -/
def vocabulary : List (TokenKind × List String) :=
  [(.not, ["!", "not"]), (.and, ["&&", "&", "and"]), (.or, ["||", "|", "or"]), (.implies, ["->", ">", "implies"]),
    (.next, ["X", "next"]), (.eventually, ["F", "eventually"]), (.globally, ["G", "globally", "always"]),
    (.untl, ["U", "until"]), (.weak, ["W", "weak"]), (.release, ["R", "release"])]

/-- The signs between two formulas. Where the rule for names comes first, the words among them are names. -/
def signs : Pricing → List String
  | .joint => ["&&", "&", "and", "||", "|", "or", "->", ">", "implies"]
  | .perAgent => ["&&", "&", "||", "|", "->", ">", "implies"]

/-- The texts that a token can have in a label: those of one kind. -/
def spellings (p : Pricing) (k : TokenKind) : List String :=
  if k = .not then ["!"] else if k ∈ [.and, .or, .implies] then signs p
  else if k ∈ [.untl, .weak, .release] then binaryWords else unaryWords

/-- A word that the rule for names reads is no token of a kind that comes behind them. -/
theorem text_not_word {w s : String} (ht : t ∈ p.logic.lexicon.tokens s)
    (hk : t.kind ∈ [.untl, .weak, .next, .not] ∨ p = .perAgent ∧ t.kind ∈ [.or, .and])
    (hw : w ∈ ["until", "weak", "next", "not", "or", "and"]) : t.text ≠ w := by
  have hrules := ((frames p).quotes (.inl rfl)).rules
  cases p with
  | joint =>
    have hk : t.kind ∈ [.untl, .weak, .next, .not] := hk.resolve_right (by simp)
    have hlate : ∀ k ∈ [.untl, .weak, .next, .not], ∀ x ∈ rbatl.take 8, x.kind ≠ k := by decide
    refine text_ne (rbatl.take 7) (rbatl.drop 8) ⟨.prop, run fun c => c.isLower || c.isDigit⟩ hrules ?_ ht (hlate _ hk)
    fin_cases hw <;> simp [run]
  | perAgent =>
    have hk : t.kind ∈ [.untl, .weak, .next, .not, .or, .and] := by simpa [or_assoc] using hk
    have hlate : ∀ k ∈ [.untl, .weak, .next, .not, .or, .and], ∀ x ∈ rabatl.take 5, x.kind ≠ k := by decide
    refine text_ne (rabatl.take 4) (rabatl.drop 5) ⟨.prop, Formula.sequence [run Char.isLower, anyRun Text.isDigit]⟩ hrules ?_
      ht (hlate _ hk)
    fin_cases hw <;> simp [Formula.sequence, run, anyRun]

theorem text_mem_spellings {s : String} (ht : t ∈ p.logic.lexicon.tokens s)
    (hk : t.kind ∈ vocabulary.map Prod.fst) : t.text ∈ spellings p t.kind := by
  have hrules : ∀ e ∈ vocabulary, ⟨e.1, oneOf e.2⟩ ∈ p.logic.lexicon := by
    cases p <;> simp [vocabulary, Pricing.logic, Logic.lexicon, rbatl, rabatl, Lexicon.not, Lexicon.and, Lexicon.or,
      implies, Lexicon.next, eventually, globally, untl, weak, release]
  have hwords : ∀ e ∈ vocabulary, ∀ w ∈ e.2, w ∈ spellings p e.1 ∨
      (e.1 ∈ [.untl, .weak, .next, .not] ∨ p = .perAgent ∧ e.1 ∈ [.or, .and]) ∧
        w ∈ ["until", "weak", "next", "not", "or", "and"] := by
    cases p <;> decide
  obtain ⟨e, he, hek⟩ := mem_map.1 hk
  have hin : t.text ∈ e.2 := text_mem (by cases p <;> decide) ht (hrules e he) hek.symm rfl
  rw [← hek]
  refine (hwords e he _ hin).resolve_right fun h => text_not_word ht ?_ h.2 rfl
  rw [← hek]
  exact h.1

theorem writes_spoken (p : Pricing) (agents : AgentCount) (s : String) :
    (p.logic.grammar agents).Writes (· ∈ p.logic.lexicon.tokens s) (Spoken ["!"] unaryWords)
      (Spoken (signs p) binaryWords) := by
  have hgrammar : p.logic.grammar agents = Grammar.withConstants .boundedCoalition := by cases p <;> rfl
  have hkinds : (p.logic.lexicon.map (·.kind)).Nodup := by cases p <;> decide
  have htext : ∀ {t : Token} {kinds : List TokenKind} {words : List String}, t ∈ p.logic.lexicon.tokens s →
      t.kind ∈ kinds → (∀ k ∈ kinds, k ∈ vocabulary.map Prod.fst ∧ spellings p k = words) → t.text ∈ words := by
    intro t kinds words ht hk h
    obtain ⟨hin, rfl⟩ := h _ hk
    exact text_mem_spellings ht hin
  have hhead : ∀ {words : List String} {t o : Token} {label : String}, t ∈ p.logic.lexicon.tokens s →
      t.kind ∈ (Grammar.withConstants .boundedCoalition).heads → some (t.text ++ o.text) = some label → o.text ∈ words →
        ∃ A B o, Numerals A ∧ Numerals B ∧ o ∈ words ∧ label = headed A B o.toList := by
    intro words t o label ht hk hlabel ho
    have hk : t.kind = boundedCoalition.kind := mem_singleton.1 hk
    have hr : boundedCoalition ∈ p.logic.lexicon := by cases p <;> exact mem_cons_self
    obtain ⟨_, lexeme, rest, hread, htext⟩ := exists_rule hkinds ht hr hk
    obtain ⟨A, B, hA, hB, rfl⟩ := reads_boundedCoalition_eq hread
    refine ⟨A, B, o.text, hA, hB, ho, ?_⟩
    cases hlabel
    apply String.toList_injective
    simp [htext, headed]
  rw [hgrammar]
  refine ⟨fun ht hk => .inl (htext ht hk ?_), fun ht hk => .inl (htext ht hk ?_),
    fun ht ho hk hop hrule => .inr (hhead ht hk (Except.ok.inj hrule) (htext ho hop ?_)),
    fun ht ho hk hop hrule => .inr (hhead ht hk (Except.ok.inj hrule) (htext ho hop ?_)), rfl⟩ <;> cases p <;> decide

section Ground

open Branching (Renames renames_ofList)

variable {f : String → String}

theorem Renamed.agree_ground (h : Renamed f m m') {g : Formula} (hg : Labelled Known Known g) :
    Agree (Option.Rel (MatchedTree f m.states)) (ground m g) (ground m' g) :=
  Branching.agree_ground h.stateAt_eq h.positionsOf .leaf (fun hl => .unary (.label hl)) (fun hl => .binary (.label hl)) hg

theorem fit_ground {f : Formula} {t : Tree} (hf : Labelled Known Known f) (h : ground m f = .ok (some t)) : Fit m t := by
  have hagree := (renamed_refl m).agree_ground hf
  rw [h] at hagree
  cases hagree with
  | ok h => cases h with | some h => exact h

end Ground

end Checker.Bounded

/-! ## What solving looks at -/

/-- The states, the transitions, the number of agents and the costs of a model. -/
def Model.board (m : Model) : Model where
  graph := m.graph
  states := m.states
  agents := m.agents
  costs := m.costs

namespace Checker.Bounded

variable {source formula : String}

section Board

variable (p : Pricing) (m : Model)

theorem rowEntries_board : rowEntries p m.board = rowEntries p m := rfl

theorem entriesFrom_board (agents : List String) (bound : Bound) (columns : List Nat) : ∀ (i : Nat) (g : Matrix),
    entriesFrom p m.board agents bound columns i g = entriesFrom p m agents bound columns i g
  | _, [] => rfl
  | i, row :: g => by simp only [entriesFrom, rowEntries_board, entriesFrom_board agents bound columns (i + 1) g]

theorem pre_board : pre p m.board = pre p m := by
  have hwinning : isWinning m.board = isWinning m := isWinning_frame rfl rfl
  have hall : meetsAll m.board = meetsAll m := meetsAll_frame rfl rfl
  unfold pre
  simp only [entriesFrom_board, hwinning, hall]
  rfl

theorem solveNode_board : solveNode p m.board = solveNode p m := by
  unfold solveNode solveOne solveTwo solveKeep solveReach
  simp only [pre_board]
  rfl

theorem direct_board : ∀ n, direct p m.board n = direct p m n
  | 0 => rfl
  | n + 1 => by
    simp only [direct, solveNode_board, direct_board n]

theorem solution_board : solution p m.board = solution p m := by
  funext t
  rw [solution, direct_board]
  rfl

end Board

/-! ## Sequences of checks -/

/-- The outcomes of checks of formulas against model texts, one after the other, from what is remembered. -/
def session (p : Pricing) : List (String × String) → Memory → List (Outcome Report)
  | [], _ => []
  | c :: calls, mem =>
    let r := (checkWith p p.logic c.1 c.2).run.run mem
    r.1 :: session p calls r.2

/-- Model texts whose models have one board, on which no name is taken for an operator. -/
def OneBoard (p : Pricing) (calls : List (String × String)) : Prop :=
  ∀ c ∈ calls, ∀ m, load .cost c.1 = .ok m → (∀ q ∈ m.states, Calm p q) ∧
    ∀ d ∈ calls, ∀ m', load .cost d.1 = .ok m' → m'.board = m.board

/-- Checks a formula against a model text by the solutions of its subformulas. -/
def checkDirect (p : Pricing) (source formula : String) : Solving Report := do
  if isBlankFormula formula then return .message "Error: formula not entered"
  let m ← lift (load .cost source)
  match ← lift (do parse p.logic p.logic (← m.agents.forFormula) formula) with
  | none => return .message "Syntax Error"
  | some f =>
    match ← lift (ground m f) with
    | none => return .message "Syntax Error: the atom does not exist"
    | some t =>
      let t ← lift (solution p m t)
      return .solved m t.text

theorem spoken_parse {s : String} (h : parse p.logic p.logic agents s = .ok (some f)) :
    Labelled (Spoken ["!"] unaryWords) (Spoken (signs p) binaryWords) f := by
  have hparse : (p.logic.grammar agents).parse (p.logic.lexicon.tokens s) = .ok (some f) := by
    cases p <;> exact h
  exact Grammar.parse_labelled (writes_spoken p agents s) (fun _ ht => ht) hparse

theorem labelled_parse {s : String} (h : parse p.logic p.logic agents s = .ok (some f)) : Labelled Known Known f :=
  (spoken_parse h).mono (fun _ => Spoken.known (by decide)) fun _ => Spoken.known (by cases p <;> decide)

theorem tandem_checkWith {I : Memory → Prop}
    (h : ∀ m, load .cost source = .ok m → (∀ q ∈ m.states, Calm p q) ∧ I = Sound p m) (formula : String) :
    Tandem I Eq (checkWith p p.logic source formula) (checkDirect p source formula) := by
  unfold checkWith checkDirect
  split
  · exact tandem_pure rfl
  refine tandem_bind (tandem_same _) ?_
  rintro m _ ⟨rfl, hm⟩
  obtain ⟨hnames, rfl⟩ := h m hm
  refine tandem_bind (tandem_same _) ?_
  rintro f? _ ⟨rfl, hparse⟩
  cases f? with
  | none => exact tandem_pure rfl
  | some f =>
    obtain ⟨agents, -, hparse⟩ := bind_eq_ok.1 hparse
    refine tandem_bind (tandem_same _) ?_
    rintro t? _ ⟨rfl, hground⟩
    cases t? with
    | none => exact tandem_pure rfl
    | some t =>
      have hsolve := tandem_solve hnames (depth t + 1) (fit_ground (labelled_parse hparse) hground)
        ((need_le_depth _ t).trans (Nat.le_succ _))
      have hrest := tandem_bind hsolve fun u u' hu =>
        tandem_pure (R := Eq) (a := Report.solved m u.text) (b := Report.solved m u'.text) (by rw [hu.matched.eq])
      cases p with
      | joint => exact hrest
      | perAgent =>
        -- what was remembered is forgotten, and no memory is sound
        obtain ⟨r, r', hr, hdirect, hrun⟩ := hrest
        exact ⟨r, r', hr, hdirect, fun mem _ => hrun [] sound_nil⟩

theorem sound_board (h : m'.board = m.board) : Sound p m' = Sound p m := by
  unfold Sound
  rw [← solution_board p m', h, solution_board]

theorem session_joint {calls : List (String × String)} (h : OneBoard .joint calls) :
    session .joint calls [] = calls.map fun c => check .joint .rbatl c.1 c.2 := by
  let I : Memory → Prop := fun mem => ∀ d ∈ calls, ∀ m, load .cost d.1 = .ok m → Sound .joint m mem
  have htandem : ∀ c ∈ calls, Tandem I Eq (checkWith .joint .rbatl c.1 c.2) (checkDirect .joint c.1 c.2) := by
    intro c hc
    refine tandem_checkWith (p := .joint) (fun m hm => ?_) c.2
    obtain ⟨hnames, hboard⟩ := h c hc m hm
    refine ⟨hnames, funext fun mem => propext ⟨fun hI => hI c hc m hm, fun hs d hd m' hm' => ?_⟩⟩
    rw [sound_board (hboard d hd m' hm')]
    exact hs
  have hfresh : ∀ c ∈ calls, check .joint .rbatl c.1 c.2 = value (checkDirect .joint c.1 c.2) := by
    intro c hc
    obtain ⟨mem, -, hrun⟩ := (htandem c hc).run_eq [] fun _ _ _ _ => sound_nil
    rw [check, hrun]
  -- the memory stays sound for all the models
  have hrest : ∀ (rest : List (String × String)) (mem : Memory), (∀ c ∈ rest, c ∈ calls) → I mem →
      session .joint rest mem = rest.map fun c => check .joint .rbatl c.1 c.2 := by
    intro rest
    induction rest with
    | nil => intro mem _ _; rfl
    | cons c rest ih =>
      intro mem hrest hmem
      obtain ⟨hc, hrest⟩ := forall_mem_cons.1 hrest
      obtain ⟨mem', hmem', hrun⟩ := (htandem c hc).run_eq mem hmem
      simp only [session, Pricing.logic, hrun, map_cons, hfresh c hc, ih mem' hrest hmem']
  exact hrest calls [] (fun _ hc => hc) fun _ _ _ _ => sound_nil

/-- A computation whose outcome does not depend on the memory. -/
def Blind {α : Type} (x : Solving α) : Prop := ∀ mem mem', (x.run.run mem).1 = (x.run.run mem').1

theorem blind_pure (a : α) : Blind (pure a : Solving α) := fun _ _ => rfl

theorem blind_bind {α β : Type} {o : Outcome α} {f : α → Solving β} (h : ∀ a, Blind (f a)) : Blind (lift o >>= f) := by
  intro mem mem'
  cases o with
  | error e => rfl
  | ok a => exact h a mem mem'

theorem blind_set (x : Solving α) : Blind (do set ([] : Memory); x) := fun _ _ => rfl

theorem blind_checkWith (source formula : String) : Blind (checkWith .perAgent .rabatl source formula) := by
  unfold checkWith
  split
  · exact blind_pure _
  refine blind_bind fun m => blind_bind fun f? => ?_
  cases f? with
  | none => exact blind_pure _
  | some f =>
    refine blind_bind fun t? => ?_
    cases t? with
    | none => exact blind_pure _
    | some t => exact blind_set _

theorem session_perAgent : ∀ (calls : List (String × String)) (mem : Memory),
    session .perAgent calls mem = calls.map fun c => check .perAgent .rabatl c.1 c.2
  | [], _ => rfl
  | c :: calls, mem => by
    simp only [session, map_cons, session_perAgent calls, Pricing.logic, check]
    rw [blind_checkWith c.1 c.2 mem []]

/-- Checks answer as each would as the first one, if each agent has prices of its own, or if the models have one
board. -/
theorem session_eq_map_check {p : Pricing} {calls : List (String × String)} (h : p = .perAgent ∨ OneBoard p calls) :
    session p calls [] = calls.map fun c => check p p.logic c.1 c.2 := by
  cases p with
  | joint => exact session_joint (h.resolve_left (by decide))
  | perAgent => exact session_perAgent calls []

/-- Checks a formula that is not blank against a model. -/
def checkOn (p : Pricing) (m : Model) (formula : String) : Solving Report := do
  match ← lift (do parse p.logic p.logic (← m.agents.forFormula) formula) with
  | none => return .message "Syntax Error"
  | some f =>
    match ← lift (ground m f) with
    | none => return .message "Syntax Error: the atom does not exist"
    | some t =>
      if p = .perAgent then set ([] : Memory)
      let t ← solve p m (depth t + 1) t
      return .solved m t.text

theorem checkWith_of_load (hload : load .cost source = .ok m) (hblank : isBlankFormula formula = false) :
    checkWith p p.logic source formula = checkOn p m formula := by
  unfold checkWith
  rw [hblank, hload]
  rfl

theorem check_of_load (hload : load .cost source = .ok m) (hblank : isBlankFormula formula = false) :
    check p p.logic source formula = ((checkOn p m formula).run.run []).1 := by
  rw [check, checkWith_of_load hload hblank]

/-- The lines of a model with two states in which nothing costs anything, given its rows and its labels. -/
def twoStates (first second p₀ p₁ : String) : List String :=
  ["Transition", first, second, "Unkown_Transition_by", "Name_State", "s0 s1", "Initial_State", "s0",
    "Atomic_propositions", "p", "Labelling", p₀, p₁, "Number_of_agents", "1", "Costs_for_actions", "A s0$0;s1$0"]

def textOf (lines : List String) : String := String.join (lines.map (· ++ "\n"))

/-- The states lead to each other, and `p` holds in the second one. -/
def swapping : Model where
  graph := [[.zero, .text "A"], [.text "A", .zero]]
  states := ["s0", "s1"]
  props := ["p"]
  labels := [[.num 0], [.num 1]]
  initial := "s0"
  agents := .text "1"
  costs := [("A;s0", .shared [0]), ("A;s1", .shared [0])]

theorem load_swapping : load .cost (textOf (twoStates "0 A" "A 0" "0" "1")) = .ok swapping := load_join (by decide) (by decide)

theorem load_relabelled : load .cost (textOf (twoStates "0 A" "A 0" "1" "0")) =
    .ok { swapping with labels := [[.num 1], [.num 0]] } := load_join (by decide) (by decide)

theorem oneBoard_swapping : OneBoard .joint
    [(textOf (twoStates "0 A" "A 0" "0" "1"), "<1><0>Xp"), (textOf (twoStates "0 A" "A 0" "1" "0"), "<1><1>Fp")] := by
  have hcalm : ∀ q ∈ ["s0", "s1"], Calm .joint q := by decide
  have hload : ∀ c ∈ [(textOf (twoStates "0 A" "A 0" "0" "1"), "<1><0>Xp"),
      (textOf (twoStates "0 A" "A 0" "1" "0"), "<1><1>Fp")], ∀ m, load .cost c.1 = .ok m →
        m.states = ["s0", "s1"] ∧ m.board = swapping.board := by
    simp only [forall_mem_cons, load_swapping, load_relabelled, Except.ok.injEq, forall_eq']
    exact ⟨by decide, by decide, by simp⟩
  intro c hc m hm
  obtain ⟨hstates, hboard⟩ := hload c hc m hm
  exact ⟨hstates ▸ hcalm, fun d hd m' hm' => (hload d hd m' hm').2.trans hboard.symm⟩

theorem session_eq_map_check_swapping :
    session .joint [(textOf (twoStates "0 A" "A 0" "0" "1"), "<1><0>Xp"),
        (textOf (twoStates "0 A" "A 0" "1" "0"), "<1><1>Fp")] [] =
      [check .joint .rbatl (textOf (twoStates "0 A" "A 0" "0" "1")) "<1><0>Xp",
        check .joint .rbatl (textOf (twoStates "0 A" "A 0" "1" "0")) "<1><1>Fp"] :=
  session_eq_map_check (.inr oneBoard_swapping)

theorem load_staying : load .cost (textOf (twoStates "A 0" "0 A" "0" "1")) =
    .ok { swapping with graph := [[.text "A", .zero], [.zero, .text "A"]] } := load_join (by decide) (by decide)

/-- The answer for the second model is the one for the first. -/
theorem session_stale :
    session .joint [(textOf (twoStates "0 A" "A 0" "0" "1"), "<1><0>Xp"),
        (textOf (twoStates "A 0" "0 A" "0" "1"), "<1><0>Xp")] [] ≠
      [check .joint .rbatl (textOf (twoStates "0 A" "A 0" "0" "1")) "<1><0>Xp",
        check .joint .rbatl (textOf (twoStates "A 0" "0 A" "0" "1")) "<1><0>Xp"] := by
  have hfirst : checkWith .joint .rbatl _ "<1><0>Xp" = _ := checkWith_of_load load_swapping (by decide)
  have hsecond : checkWith .joint .rbatl _ "<1><0>Xp" = _ := checkWith_of_load load_staying (by decide)
  simp only [session, check, Pricing.logic, hfirst, hsecond]
  decide +kernel

end Checker.Bounded

end Arena
