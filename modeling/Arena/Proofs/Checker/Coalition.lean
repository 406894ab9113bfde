/-
Coalitions as they stand in labels: the numbers of the agents, separated by commas, in angle brackets before the letter
of a temporal operator. Such a label has two tokens, and the positions read from it are those of the agents, counted
from zero.
-/
import Arena.Checker.Alternating
import Arena.Proofs.Data.SetText
import Arena.Proofs.Formula.Tokens
import Arena.Proofs.Model.Transitions

namespace Arena

open Text List Checker.Alternating

variable {agents : List Nat} {operator : String}

namespace Coalition

def text (agents : List Nat) : String := join "," (agents.map toString)

def label (agents : List Nat) (operator : String) : String := "<" ++ text agents ++ ">" ++ operator

def chars (a : Nat) (agents : List Nat) : List Char :=
  Nat.toDigits 10 a ++ agents.flatMap fun b => ',' :: Nat.toDigits 10 b

theorem toList_text (a : Nat) (agents : List Nat) : (text (a :: agents)).toList = chars a agents := by
  unfold text join
  rw [String.toList_intercalate, map_cons, map_cons, Names.intercalate_cons]
  simp [chars, flatMap_map]

theorem ofList_chars (a : Nat) (agents : List Nat) : String.ofList (chars a agents) = text (a :: agents) := by
  rw [← toList_text, String.ofList_toList]

theorem toList_label (a : Nat) (agents : List Nat) (operator : String) :
    (label (a :: agents) operator).toList = '<' :: (chars a agents ++ '>' :: operator.toList) := by
  unfold label
  simp [toList_text]

/-! ## Positions -/

theorem names_text (hne : agents ≠ []) : names (text agents) = distinct (agents.map toString) := by
  have hcomma : ',' ∉ decimals := by decide
  unfold names text
  rw [split_join (show ",".toList = [','] from rfl) (by simpa using hne)]
  intro p hp
  obtain ⟨a, -, rfl⟩ := mem_map.1 hp
  rw [toList_natRepr]
  exact fun hm => hcomma (mem_toDigits hm)

theorem positions_text (hne : agents ≠ []) (h : ∀ a ∈ agents, a < 10 ^ maxDigits) :
    ∃ is, positions (names (text agents)) = .ok is ∧ ∀ i, i ∈ is ↔ ∃ a ∈ agents, i = (a : Int) - 1 := by
  have hmem : ∀ s, s ∈ sorted (names (text agents)) ↔ ∃ a ∈ agents, toString a = s := by
    intro s
    rw [names_text hne, mem_sorted, mem_distinct, mem_map]
  have hread : ∀ a ∈ agents, orFault .value (readInt? (toString a)) = .ok (a : Int) := by
    intro a ha
    rw [readInt?_toString (h a ha)]
    rfl
  have hall : ∀ s ∈ sorted (names (text agents)), ∃ n, orFault .value (readInt? s) = .ok n := by
    intro s hs
    obtain ⟨a, ha, rfl⟩ := (hmem s).1 hs
    exact ⟨a, hread a ha⟩
  obtain ⟨ns, hns, hmn⟩ := exists_mapM hall
  refine ⟨(ns.map (· - 1)).eraseDups, by simp only [positions, hns]; rfl, fun i => ?_⟩
  rw [mem_eraseDups, mem_map]
  constructor
  · rintro ⟨n, hn, rfl⟩
    obtain ⟨s, hs, hsn⟩ := (hmn n).1 hn
    obtain ⟨a, ha, rfl⟩ := (hmem s).1 hs
    rw [hread a ha, Except.ok.injEq] at hsn
    exact ⟨a, ha, by rw [hsn]⟩
  · rintro ⟨a, ha, rfl⟩
    exact ⟨a, (hmn a).2 ⟨toString a, (hmem _).2 ⟨a, ha, rfl⟩, hread a ha⟩, rfl⟩

/-! ## Tokens -/

open Formula Lexicon

theorem digitRunsFrom_digits (rest : List Char) : ∀ (ds run : List Char), (∀ d ∈ ds, isDigit d = true) →
    digitRunsFrom run (ds ++ rest) = digitRunsFrom (ds.reverse ++ run) rest
  | [], run, _ => rfl
  | d :: ds, run, h => by
    obtain ⟨hd, hds⟩ := forall_mem_cons.1 h
    rw [cons_append, digitRunsFrom, if_pos hd, digitRunsFrom_digits rest ds (d :: run) hds]
    simp

theorem digitRunsFrom_numeral (a : Nat) {c : Char} (hc : isDigit c = false) (rest : List Char) :
    digitRunsFrom [] (Nat.toDigits 10 a ++ c :: rest) = Nat.toDigits 10 a :: digitRunsFrom [] rest := by
  rw [digitRunsFrom_digits _ _ _ isDigit_toDigits, digitRunsFrom, if_neg (by simp [hc])]
  simp

theorem run_toDigits (a : Nat) {c : Char} (hc : isDigit c = false) (rest : List Char) :
    run isDigit (Nat.toDigits 10 a ++ c :: rest) = some (Nat.toDigits 10 a, c :: rest) := by
  unfold run
  rw [takeWhile_append_of_pos isDigit_toDigits, dropWhile_append_of_pos isDigit_toDigits,
    takeWhile_cons_of_neg (by simp [hc]), dropWhile_cons_of_neg (by simp [hc]), append_nil]
  simp

theorem chars_cons (a b : Nat) (agents : List Nat) :
    chars a (b :: agents) = Nat.toDigits 10 a ++ ',' :: chars b agents := by simp [chars]

-- each numeral takes one unit of fuel
theorem numerals_chars (rest : List Char) : ∀ (agents : List Nat) (a fuel : Nat), agents.length < fuel →
    numerals fuel (chars a agents ++ '>' :: rest) = some (chars a agents, '>' :: rest)
  | _, _, 0, h => by omega
  | [], a, fuel + 1, _ => by
    have hrun := run_toDigits a (show isDigit '>' = false by decide) rest
    simp [numerals, chars, hrun]
  | b :: agents, a, fuel + 1, h => by
    have hrun := run_toDigits a (show isDigit ',' = false by decide) (chars b agents ++ '>' :: rest)
    rw [length_cons] at h
    rw [chars_cons, append_assoc, cons_append, numerals, hrun]
    simp only [numerals_chars rest agents b fuel (by omega)]

theorem length_chars (a : Nat) (agents : List Nat) : agents.length ≤ (chars a agents).length := by
  unfold chars
  rw [length_append]
  induction agents with
  | nil => simp
  | cons b agents ih => simp only [flatMap_cons, length_cons, length_append]; omega

theorem numeralList_chars (a : Nat) (agents : List Nat) (rest : List Char) :
    numeralList (chars a agents ++ '>' :: rest) = some (chars a agents, '>' :: rest) := by
  have := length_chars a agents
  refine numerals_chars rest agents a _ ?_
  rw [length_append]
  omega

theorem reads_coalition (a : Nat) (agents : List Nat) (rest : List Char) :
    coalition.reads ('<' :: (chars a agents ++ '>' :: rest)) =
      some ('<' :: (chars a agents ++ ['>']), rest) := by
  have hlist := numeralList_chars a agents rest
  have hopen : literal "<" ('<' :: (chars a agents ++ '>' :: rest)) = some (['<'], chars a agents ++ '>' :: rest) := by
    rfl
  have hclose : literal ">" ('>' :: rest) = some (['>'], rest) := rfl
  simp only [coalition, Formula.sequence, hopen, hlist, hclose]
  simp

theorem tokensFrom_coalition (a : Nat) (agents : List Nat) (rest : List Char) :
    atl.tokensFrom 0 ('<' :: (chars a agents ++ '>' :: rest)) =
      ⟨.coalition, String.ofList ('<' :: (chars a agents ++ ['>']))⟩ :: atl.tokensFrom 0 rest := by
  have hfront : atl.front? ('<' :: (chars a agents ++ '>' :: rest)) =
      some (.coalition, '<' :: (chars a agents ++ ['>'])) := by
    simp only [atl, front?, reads_coalition]
    rfl
  exact tokensFrom_front (cons_ne_nil _ _) (by simp) hfront

theorem kindsIn_label (hne : agents ≠ []) (operator : String) :
    Checker.kindsIn .atl (label agents operator) = .coalition :: Checker.kindsIn .atl operator := by
  obtain ⟨a, agents, rfl⟩ := exists_cons_of_ne_nil hne
  unfold Checker.kindsIn tokens
  rw [toList_label, Logic.lexicon, tokensFrom_coalition, map_cons]

theorem kindsIn_label_eq (hne : agents ≠ []) :
    Checker.kindsIn .atl (label agents operator) = Checker.kindsIn .atl (label [0] operator) := by
  rw [kindsIn_label hne, kindsIn_label (by simp)]

theorem between_ends {α : Type} (front body back : List α) (hb : back ≠ []) :
    between (front ++ (body ++ back)) front.length (-(back.length : Int)) = body := by
  have hpos := length_pos_iff.2 hb
  refine ext_getElem? fun k => ?_
  simp only [between, getElem?_drop, getElem?_take, getElem?_append, length_append]
  grind

theorem coalitionOf_label (hne : agents ≠ []) (hop : operator.toList.length = 1) :
    coalitionOf (label agents operator) = text agents := by
  obtain ⟨a, agents, rfl⟩ := exists_cons_of_ne_nil hne
  obtain ⟨c, hc⟩ := length_eq_one_iff.1 hop
  have hbetween := between_ends ['<'] (chars a agents) ['>', c] (by simp)
  unfold coalitionOf
  rw [toList_label, hc, ← String.ofList_toList (s := text (a :: agents)), toList_text]
  exact congrArg String.ofList hbetween

theorem positions_label (hne : agents ≠ []) (hlt : ∀ a ∈ agents, a < 10 ^ maxDigits)
    (hop : operator.toList.length = 1) :
    ∃ is, positions (names (coalitionOf (label agents operator))) = .ok is ∧ is ≠ [] := by
  obtain ⟨is, his, hmem⟩ := positions_text hne hlt
  obtain ⟨a, ha⟩ := exists_mem_of_ne_nil _ hne
  rw [coalitionOf_label hne hop]
  exact ⟨is, his, ne_nil_of_mem ((hmem _).2 ⟨a, ha, rfl⟩)⟩

end Coalition

end Arena
