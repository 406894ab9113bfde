/-
Boolean formulas in any checker, and the verdict on the initial state. The checkers compute Boolean operators alike,
from states and labels only. The verdict looks for the initial name in the text of a set; among default names the first
is found exactly if the set has it.
-/
import Arena.Proofs.Checker.Alternating
import Arena.Proofs.Formula.Reading

namespace Arena.Checker

open Formula Grammar Reading Names Text Model Expression
open List hiding contains

variable {T : Names} {atom : String → Outcome (Option String)} {t : Tree} {f : Formula} {o : String}

/-! ## Boolean formulas -/

def connectives : List Branching.Binary := [.or, .and, .implies]

/-- Atoms under the operators of propositional logic, at labels that the checkers read alike. -/
inductive Boolean : Formula → Prop
  | atom (p : String) : Boolean (.atom p)
  | not {f : Formula} (hf : Boolean f) : Boolean (.unary "!" f)
  | binary {op : Branching.Binary} {l : String} {f g : Formula} (hop : op ∈ connectives) (hl : l ∈ op.labels)
      (hf : Boolean f) (hg : Boolean g) : Boolean (.binary l f g)

/-- A token of an operator that is written with one of its labels. -/
def Spelled (t : Token) : Prop :=
  (t.kind = .not → t.text = "!") ∧
    ∀ k op, (k, op) ∈ [(TokenKind.or, Branching.Binary.or), (.and, .and), (.implies, .implies)] →
      t.kind = k → t.text ∈ op.labels

/-- What is read from such tokens is Boolean, and the tokens behind it are among them. -/
theorem boolean_of_propositional {fuel : Nat} : ∀ {ts r : List Token} {f : Formula},
    propositional.readFormula fuel ts = found f r → (∀ t ∈ ts, Spelled t) → Boolean f ∧ ∀ t ∈ r, Spelled t := by
  induction fuel with
  | zero =>
    intro ts r f h
    cases h
  | succ fuel ih =>
    intro ts r f h hts
    cases ts with
    | nil => cases h
    | cons t rest =>
      obtain ⟨ht, hrest⟩ := forall_mem_cons.1 hts
      obtain ⟨a, s, ha, hs⟩ := andThen_eq_found h
      have hoperand : Boolean a ∧ ∀ u ∈ s, Spelled u := by
        rcases propositional_operand ha with ⟨-, rfl, rfl⟩ | ⟨-, u, -, hread⟩ | ⟨hk, b, rfl, hread⟩
        · exact ⟨.atom _, hrest⟩
        · obtain ⟨hb, hin⟩ := ih hread hrest
          exact ⟨hb, fun v hv => hin v (mem_cons_of_mem u hv)⟩
        · obtain ⟨hb, hin⟩ := ih hread hrest
          rw [ht.1 hk]
          exact ⟨.not hb, hin⟩
      rcases propositional_rest hs with ⟨rfl, rfl, -⟩ | ⟨o, s', b, rfl, ho, rfl, hread⟩
      · exact hoperand
      · obtain ⟨ho', hs'⟩ := forall_mem_cons.1 hoperand.2
        obtain ⟨hb, hin⟩ := ih hread hs'
        refine ⟨?_, hin⟩
        simp only [Grammar.connectives, mem_cons, not_mem_nil, or_false] at ho
        rcases ho with hk | hk | hk
        · exact .binary (by decide : .and ∈ connectives) (ho'.2 .and .and (by decide) hk) hoperand.1 hb
        · exact .binary (by decide : .or ∈ connectives) (ho'.2 .or .or (by decide) hk) hoperand.1 hb
        · exact .binary (by decide : .implies ∈ connectives) (ho'.2 .implies .implies (by decide) hk) hoperand.1 hb

/-! ## Their sets -/

/-- The set that an operator makes of two sets of states. -/
def connect (states : List String) (op : Branching.Binary) (s t : Names) : Names :=
  match op with
  | .or => s.union t
  | .and => s.inter t
  | _ => ((ofList states).diff s).union t

/-- A checker that computes the Boolean operators on the sets of some states. -/
structure ComputesBoolean (states : List String) (one : String → Option String → Outcome String)
    (two : String → String → String → Outcome String) : Prop where
  leaf : ∀ S : Names, (∀ q ∈ S, q ∈ states) → one S.print none = .ok S.print
  not : ∀ S : Names, S.Nodup → one "!" (some S.print) = .ok ((ofList states).diff (sorted S)).print
  binary : ∀ op ∈ connectives, ∀ l ∈ op.labels, ∀ S T : Names, S.Nodup → T.Nodup →
    two l S.print T.print = .ok (connect states op (sorted S) (sorted T)).print

variable {m : Model}

theorem computesBoolean_branching (hnames : ∀ q ∈ m.states, Plain .ctl q) :
    ComputesBoolean m.states (Branching.one m) (Branching.two m) where
  leaf _ hS := Branching.one_print fun q hq => hnames q (hS q hq)
  not S hS := by
    have hop : Branching.Unary.of? "!" = some .not := by decide
    simp only [Branching.one, argument, read_print hS]
    rfl
  binary op hop l hl S T hS hT := by
    simp only [Branching.two, Branching.Binary.of?_label l hl, read_print hS, read_print hT]
    simp only [connectives, mem_cons, not_mem_nil, or_false] at hop
    rcases hop with rfl | rfl | rfl <;> rfl

theorem computesBoolean_alternating (hnames : ∀ q ∈ m.states, Unmarked q) :
    ComputesBoolean m.states (Alternating.one m) (Alternating.two m) where
  leaf _ hS := Alternating.one_print fun q hq => hnames q (hS q hq)
  not S hS := by
    have hop : Alternating.Unary.of? "!" = some .not := by decide
    simp only [Alternating.one, argument, read_print hS]
    rfl
  binary op hop l hl S T hS hT := by
    have hof : ∀ op ∈ connectives, ∀ l ∈ op.labels, Alternating.Binary.of? l = some (match op with
      | .or => .or
      | .and => .and
      | _ => .implies) := by decide
    simp only [Alternating.two, hof op hop l hl, read_print hS, read_print hT]
    simp only [connectives, mem_cons, not_mem_nil, or_false] at hop
    rcases hop with rfl | rfl | rfl <;> rfl

theorem Within.connect {S : Names} (hS : Within m S) (hT : Within m T) (op : Branching.Binary) :
    Within m (connect m.states op S T) := by
  have himplies : Within m ((m.stateSet.diff S).union T) := (within_stateSet.diff S).union hT
  cases op with
  | or => exact hS.union hT
  | and => exact hS.inter T
  | implies => exact himplies
  | someUntil => exact himplies
  | everyUntil => exact himplies

theorem atomText_states {p s : String} (h : atomText m p = .ok (some s)) : ∃ T : Names, s = T.print ∧ Within m T := by
  obtain ⟨T?, hT, h⟩ := bind_eq_ok.1 h
  obtain ⟨is?, -, hT⟩ := bind_eq_ok.1 hT
  cases is? with
  | none =>
    cases hT
    cases h
  | some is =>
    obtain ⟨qs, hqs, hT⟩ := bind_eq_ok.1 hT
    cases hT
    cases h
    refine ⟨ofList qs, rfl, nodup_ofList qs, fun q hq => ?_⟩
    obtain ⟨i, -, hi⟩ := exists_of_mem_mapM hqs (mem_ofList.1 hq)
    exact mem_of_nth hi

theorem Tree.exists_of_ground_unary
    (h : ground atom (.unary o f) = .ok (some t)) : ∃ u, t = unary o u ∧ ground atom f = .ok (some u) := by
  obtain ⟨u?, hu, ht⟩ := bind_eq_ok.1 h
  cases u? with
  | none => cases ht
  | some u =>
    cases ht
    exact ⟨u, rfl, hu⟩

theorem Tree.exists_of_ground_binary {f g : Formula}
    (h : ground atom (.binary o f g) = .ok (some t)) :
    ∃ u v, t = binary o u v ∧ ground atom f = .ok (some u) ∧ ground atom g = .ok (some v) := by
  obtain ⟨u?, hu, ht⟩ := bind_eq_ok.1 h
  cases u? with
  | none => cases ht
  | some u =>
    obtain ⟨v?, hv, ht⟩ := bind_eq_ok.1 ht
    cases v? with
    | none => cases ht
    | some v =>
      cases ht
      exact ⟨u, v, rfl, hu, hv⟩

/-- A Boolean formula has one set of states, whichever checker computes it. -/
theorem Boolean.solve (hb : Boolean f) (hg : Tree.ground (atomText m) f = .ok (some t)) :
    ∃ T : Names, Within m T ∧ ∀ one two, ComputesBoolean m.states one two → t.solve one two = .ok T.print := by
  induction hb generalizing t with
  | atom p =>
    obtain ⟨s?, hs, ht⟩ := bind_eq_ok.1 hg
    cases s? with
    | none => cases ht
    | some s =>
      cases ht
      obtain ⟨T, rfl, hT⟩ := atomText_states hs
      exact ⟨T, hT, fun one two hc => hc.leaf T hT.2⟩
  | @not f _ ih =>
    obtain ⟨u, rfl, hu⟩ := Tree.exists_of_ground_unary hg
    obtain ⟨T, hT, hsolve⟩ := ih hu
    refine ⟨m.stateSet.diff (sorted T), within_stateSet.diff _, fun one two hc => ?_⟩
    rw [Tree.solve_unary (hsolve one two hc)]
    exact hc.not T hT.1
  | @binary op l f g hop hl _ _ ihf ihg =>
    obtain ⟨u, v, rfl, hu, hv⟩ := Tree.exists_of_ground_binary hg
    obtain ⟨S, hS, hsolveS⟩ := ihf hu
    obtain ⟨T, hT, hsolveT⟩ := ihg hv
    refine ⟨connect m.states op (sorted S) (sorted T), hS.sorted.connect hT.sorted op, fun one two hc => ?_⟩
    rw [Tree.solve_binary (hsolveS one two hc) (hsolveT one two hc)]
    exact hc.binary op hop l hl S T hS.1 hT.1

/-! ## Verdicts -/

theorem occursIn_sep {piece : List Char} (hne : piece ≠ []) {c : Char} (hc : c ∉ piece) (b : List Char) :
    ∀ a : List Char, occursIn piece (a ++ c :: b) = (occursIn piece a || occursIn piece b)
  | [] => by
    obtain ⟨d, piece, rfl⟩ := exists_cons_of_ne_nil hne
    have hd : d ≠ c := fun e => hc (e ▸ mem_cons_self)
    simp [occursIn, hd]
  | x :: a => by
    have hprefix : piece.isPrefixOf (x :: (a ++ c :: b)) = piece.isPrefixOf (x :: a) := by
      rw [Bool.eq_iff_iff, isPrefixOf_iff_prefix, isPrefixOf_iff_prefix, ← cons_append,
        isPrefix_append_sep hc]
    rw [cons_append, occursIn, occursIn, hprefix, occursIn_sep hne hc b a, Bool.or_assoc]

theorem occursIn_of_begins {w v : List Char} (h : w <+: v) :
    ∀ {s : List Char}, occursIn v s = true → occursIn w s = true
  | [], hs => by
    obtain rfl : v = [] := isEmpty_iff.1 hs
    rw [prefix_nil.1 h]
    rfl
  | c :: s, hs => by
    rw [occursIn, Bool.or_eq_true, isPrefixOf_iff_prefix] at hs ⊢
    exact hs.imp h.trans (occursIn_of_begins h)

/-- What writing a set puts around its quoted names, and all of the text of the empty set. -/
def setFrame : List String := ["set()", "\x7b", ", ", "\x7d"]

section Print

variable {w : String} (hq : ∀ c ∈ w.toList, ¬ IsQuote c)
  (hframe : ∀ s ∈ setFrame, contains s w = false)

include hframe in
theorem ne_nil_of_frame : w.toList ≠ [] := by
  intro hnil
  have hbrace := hframe "\x7b" (by decide)
  unfold contains at hbrace
  rw [hnil] at hbrace
  exact absurd hbrace (by decide)

include hq hframe

theorem occursIn_quoted (a n b : List Char) : occursIn w.toList (a ++ (quoteList n ++ b)) =
    (occursIn w.toList a || (occursIn w.toList (quoteList n) || occursIn w.toList b)) := by
  have hne := ne_nil_of_frame hframe
  have hsep := @occursIn_sep _ hne _ fun hc => hq _ hc (isQuote_quoteFor n)
  have hnil : occursIn w.toList [] = false := by simpa [occursIn] using hne
  have hin : ∀ a b, occursIn w.toList (a ++ (quoteList n ++ b)) = (occursIn w.toList a ||
      (occursIn w.toList (n.flatMap (escapeChar (quoteFor n))) || occursIn w.toList b)) := by
    intro a b
    simp only [quoteList, cons_append, append_assoc, nil_append]
    rw [hsep, hsep]
  have hself := hin [] []
  simp only [nil_append, append_nil, hnil, Bool.or_false, Bool.false_or] at hself
  rw [hin, hself]

/-- A piece without quotes is found in the text of a set exactly if it is found in one of its quoted names, when it
does not occur in what is written around them. -/
theorem contains_print_iff : contains T.print w = true ↔ ∃ q ∈ T, contains (quote q) w = true := by
  have hquote : ∀ n : String, contains (quote n) w = occursIn w.toList (quoteList n.toList) := by
    simp [contains, quote]
  have hfr : ∀ s ∈ setFrame, ¬ occursIn w.toList s.toList = true := fun s hs => ne_true_of_eq_false (hframe s hs)
  by_cases hT : T = []
  · have hempty : contains (print []) w = false := hframe "set()" (by decide)
    simp [hT, hempty]
  · simp only [hquote]
    refine print_iff (P := fun cs => occursIn w.toList cs = true) (fun a n b => ?_)
      ⟨hfr "\x7b" (by decide), hfr ", " (by decide), hfr "\x7d" (by decide)⟩ hT
    rw [occursIn_quoted hq hframe, Bool.or_eq_true, Bool.or_eq_true]

end Print

/-- A default name has its letter in front only, so it is found in another one only in front. -/
theorem occursIn_defaultName (k i : Nat) :
    occursIn (defaultName k).toList (defaultName i).toList = true ↔
      (defaultName k).toList <+: (defaultName i).toList := by
  have hdigits : 's' ∉ Nat.toDigits 10 i := fun h => absurd (mem_toDigits h) (by decide)
  rw [toList_defaultName k, toList_defaultName i, occursIn, occursIn_eq_false _ hdigits, Bool.or_false, isPrefixOf_iff_prefix]

theorem eq_zero_of_begins {i : Nat} (h : (defaultName (0 : Nat)).toList <+: (defaultName i).toList) : i = 0 := by
  rw [toList_defaultName, toList_defaultName, prefix_cons_inj] at h
  obtain ⟨ds, hds⟩ := h
  exact toDigits_zero_first hds.symm

theorem defaultName_inj {i j : Nat} (h : defaultName i = defaultName j) : i = j :=
  toString_inj ((String.append_right_inj "s").1 h)

theorem contains_print_begins (hT : ∀ q ∈ T, ∃ i : Nat, q = defaultName i) (k : Nat) :
    contains T.print (defaultName k) = true ↔ ∃ q ∈ T, (defaultName k).toList <+: q.toList := by
  have hchars : ∀ c ∈ 's' :: decimals, ¬ IsQuote c := by decide
  have hplain : ∀ c ∈ (defaultName k).toList, ¬ IsQuote c := fun c hc => hchars c (mem_defaultName hc)
  have hne : (defaultName k).toList ≠ [] := by simp [toList_defaultName]
  -- no digit stands in what is written around the names
  have hframe : ∀ s ∈ setFrame, contains s (defaultName k) = false := by
    obtain ⟨d, ds, hd⟩ := exists_cons_of_ne_nil (Nat.toDigits_ne_nil (n := k) (b := 10))
    have hdec : d ∈ decimals := mem_toDigits (hd ▸ mem_cons_self)
    have hfree : ∀ d ∈ decimals, ∀ s ∈ setFrame, occursIn ['s', d] s.toList = false := by decide
    intro s hs
    rw [contains, toList_defaultName, hd, ← Bool.not_eq_true]
    intro hin
    have := occursIn_of_begins (prefix_append ['s', d] ds) hin
    rw [hfree d hdec s hs] at this
    cases this
  have hquote : ∀ i : Nat, contains (quote (defaultName i)) (defaultName k) = true ↔
      (defaultName k).toList <+: (defaultName i).toList := by
    intro i
    have hsep := @occursIn_sep (defaultName k).toList hne '\'' fun hc => hplain _ hc (by decide)
    have heq : quoteList (defaultName i).toList =
        [] ++ '\'' :: ((defaultName i).toList ++ '\'' :: []) := quoteList_defaultName i
    have hnil : occursIn (defaultName k).toList [] = false := by simpa [occursIn] using hne
    rw [contains, quote, String.toList_ofList, heq, hsep, hsep, hnil, Bool.false_or, Bool.or_false,
      occursIn_defaultName]
  rw [contains_print_iff hplain hframe]
  refine exists_congr fun q => and_congr_right fun hq => ?_
  obtain ⟨i, rfl⟩ := hT q hq
  exact hquote i

theorem contains_print (hT : ∀ q ∈ T, ∃ i : Nat, q = defaultName i) : contains T.print "s0" = true ↔ "s0" ∈ T := by
  refine (contains_print_begins hT 0).trans ⟨?_, fun h => ⟨_, h, prefix_rfl⟩⟩
  rintro ⟨q, hq, hp⟩
  obtain ⟨i, rfl⟩ := hT q hq
  obtain rfl := eq_zero_of_begins hp
  exact hq

end Arena.Checker
