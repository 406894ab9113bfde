/-
The texts of degrees that are 0 or 1. A list of states with such degrees is read back in two ways: as an expression,
which gives the list itself, and cut at its commas, which gives the same values as numbers with a fraction.
-/
import Arena.Fuzzy.Alternating
import Arena.Proofs.Checker.Plain
import Arena.Proofs.Text.Lines

namespace Arena.Fuzzy

open List Checker WrittenDegree

variable {e : String × Option Number} {c : Char}

/-! ## Numbers that are 0 or 1 -/

namespace Number

/-- A number has the value of a whole number. -/
def Denotes (x : Number) (n : Int) : Prop := x = whole n ∨ x = real (Float.ofInt n)

def IsBit (n : Int) : Prop := n = 0 ∨ n = 1

variable {x y : Number} {a b : Int}

theorem less_of_denotes (hx : x.Denotes a) (ha : IsBit a) (hy : y.Denotes b) (hb : IsBit b) :
    less x y = decide (a < b) := by
  rcases hx with rfl | rfl <;> rcases hy with rfl | rfl <;> rcases ha with rfl | rfl <;> rcases hb with rfl | rfl <;>
    rfl

theorem minus_of_denotes (hx : x.Denotes 1) (hy : y.Denotes b) (hb : IsBit b) : (minus x y).Denotes (1 - b) := by
  rcases hx with rfl | rfl <;> rcases hy with rfl | rfl
  · exact .inl rfl
  all_goals rcases hb with rfl | rfl <;> exact .inr rfl

theorem hasLiteral_of_denotes (hx : x.Denotes a) (ha : IsBit a) : hasLiteral x = true := by
  rcases hx with rfl | rfl
  · rfl
  · rcases ha with rfl | rfl <;> rfl

theorem Denotes.unique (ha : IsBit a) (hb : IsBit b) (hx : x.Denotes a) (hx' : x.Denotes b) : a = b := by
  have hless := less_of_denotes hx ha hx' hb
  have hself := less_of_denotes hx ha hx ha
  have hgreater := less_of_denotes hx' hb hx ha
  rw [hself] at hless hgreater
  simp only [decide_eq_decide] at hless hgreater
  omega

/-! ## Written numbers -/

theorem print_mem (hx : x.Denotes a) (ha : IsBit a) : print x ∈ ["0", "0.0", "1", "1.0"] := by
  rcases hx with rfl | rfl <;> rcases ha with rfl | rfl <;> decide

theorem parse?_print (hx : x.Denotes a) (ha : IsBit a) : Degree.parse? (print x) = some (real x.toFloat) := by
  rcases hx with rfl | rfl <;> rcases ha with rfl | rfl <;> rfl

theorem Denotes.real (hx : x.Denotes a) : (real x.toFloat).Denotes a := by
  rcases hx with rfl | rfl <;> exact .inr rfl

open Expression in
theorem lexemes_numeral (hc : c.isDigit = true) (word : List Char) {rest : List Char} {d : Datum}
    (hword : numeralChars (c :: (word ++ rest)) = c :: word) (hd : readNumeral? (c :: word) = some d) (fuel : Nat) :
    lexemes (fuel + 1) (c :: (word ++ rest)) = (lexemes fuel rest).map (.number d :: ·) := by
  have hne : ∀ e, e.isDigit = false → c ≠ e := by
    rintro e he rfl
    rw [he] at hc
    cases hc
  have hdrop : (c :: (word ++ rest)).drop (c :: word).length = rest := by simp
  simp only [lexemes, hne ' ' rfl, hne '\t' rfl, hne '\n' rfl, hne '\x0c' rfl, hne '#' rfl, hne '\'' rfl, hne '"' rfl, hc,
    hword, hd, hdrop, decide_false, Bool.or_false, Bool.true_or, Bool.false_eq_true, if_true, if_false]
  cases lexemes fuel rest <;> rfl

open Expression in
theorem lexemes_print (hx : x.Denotes a) (ha : IsBit a) (fuel : Nat) (rest : List Char) :
    lexemes (fuel + 1) ((print x).toList ++ ')' :: rest) =
      (lexemes fuel (')' :: rest)).map (.number x.toDatum :: ·) := by
  have hzero : ('0' : Char).isDigit = true := rfl
  have hone : ('1' : Char).isDigit = true := rfl
  rcases hx with rfl | rfl <;> rcases ha with rfl | rfl
  · exact lexemes_numeral hzero [] rfl rfl fuel
  · exact lexemes_numeral hone [] rfl rfl fuel
  · exact lexemes_numeral hzero ['.', '0'] rfl rfl fuel
  · exact lexemes_numeral hone ['.', '0'] rfl rfl fuel

end Number

namespace Alternating

open Text Expression Names Number

/-! ## Written lists -/

def IsBitGrade (e : String × Option Number) : Prop :=
  (∃ i : Nat, e.1 = Model.defaultName i) ∧ ∃ x a, e.2 = some x ∧ Number.IsBit a ∧ x.Denotes a

variable {g : Grades Number}

/-- The two pieces that a state with its degree is written in. -/
def pieces (e : String × Option Number) : List String := ["(" ++ quote e.1, degreeText e.2 ++ ")"]

theorem join_pieces (sep : String) {α : Type} (f h : α → String) (xs : List α) :
    join sep (xs.map fun x => f x ++ sep ++ h x) = join sep (xs.flatMap fun x => [f x, h x]) := by
  apply String.toList_injective
  unfold join
  rw [String.toList_intercalate, String.toList_intercalate]
  cases xs with
  | nil => rfl
  | cons x xs =>
    simp only [map_cons, flatMap_cons, cons_append, intercalate_cons]
    simp [flatMap_assoc, flatMap_map]

/-! ## Cutting at commas -/

theorem degreeText_mem (he : IsBitGrade e) : degreeText e.2 ∈ ["0", "0.0", "1", "1.0"] := by
  obtain ⟨-, x, a, hx, ha, hd⟩ := he
  rw [hx]
  exact print_mem hd ha

theorem toList_quote (he : IsBitGrade e) : (quote e.1).toList = '\'' :: (e.1.toList ++ ['\'']) := by
  obtain ⟨⟨i, hi⟩, -⟩ := he
  rw [hi, quote, String.toList_ofList, quoteList_defaultName]

theorem mem_name (he : IsBitGrade e) (hc : c ∈ e.1.toList) : c ∈ 's' :: decimals := by
  obtain ⟨⟨i, hi⟩, -⟩ := he
  exact mem_defaultName (hi ▸ hc)

theorem printGrades_eq (g : Grades Number) : printGrades g = "[" ++ join ", " (g.flatMap pieces) ++ "]" := by
  unfold printGrades pieces
  rw [← join_pieces]
  simp only [String.append_assoc]

theorem ends_join_pieces (hne : g ≠ []) :
    (join ", " (g.flatMap pieces)).toList.head? = some '(' ∧
      (join ", " (g.flatMap pieces)).toList.getLast? = some ')' := by
  constructor
  · obtain ⟨e, g, rfl⟩ := exists_cons_of_ne_nil hne
    unfold join
    simp [pieces]
  · obtain ⟨g, e, rfl⟩ := eq_nil_or_concat g |>.resolve_left hne
    have hlast : (g.concat e).flatMap pieces =
        (g.flatMap pieces ++ ["(" ++ quote e.1]) ++ [degreeText e.2 ++ ")"] := by
      simp [pieces]
    rw [hlast, join_concat, String.toList_append, getLast?_append]
    simp

theorem stripOf_printGrades (hne : g ≠ []) :
    stripOf (fun c => c == '[' || c == ']') (printGrades g) = join ", " (g.flatMap pieces) := by
  obtain ⟨hfirst, hlast⟩ := ends_join_pieces hne
  have hprint : printGrades g = String.ofList (['['] ++ ((join ", " (g.flatMap pieces)).toList ++ [']'])) := by
    rw [printGrades_eq]
    apply String.toList_injective
    simp only [String.toList_append, String.toList_ofList]
    rfl
  rw [hprint, stripOf_append (by decide) (by decide), String.ofList_toList]
  · intro c hc
    cases hfirst.symm.trans hc
    decide
  · intro c hc
    cases hlast.symm.trans hc
    decide

theorem pairPieces_pieces (hg : ∀ e ∈ g, IsBitGrade e) :
    pairPieces (g.flatMap pieces) = .ok (g.map fun e => (e.1, e.2.map fun x => real x.toFloat)) := by
  induction g with
  | nil => rfl
  | cons e g ih =>
    have he := hg e mem_cons_self
    have hchars : ∀ c ∈ 's' :: decimals, (c == '(' || c == '\'') = false := by decide
    have hstate : stripOf (fun c => c == '(' || c == '\'') ("(" ++ quote e.1) = e.1 := by
      have hquote : "(" ++ quote e.1 = String.ofList (['(', '\''] ++ (e.1.toList ++ ['\''])) := by
        apply String.toList_injective
        rw [String.toList_append, toList_quote he]
        simp
      rw [hquote, stripOf_append (by decide) (by decide), String.ofList_toList]
      · exact fun c hc => hchars c (mem_name he (mem_of_head? hc))
      · exact fun c hc => hchars c (mem_name he (mem_of_getLast? hc))
    have hdegree : stripOf (· == ')') (degreeText e.2 ++ ")") = degreeText e.2 := by
      have htexts : ∀ t ∈ ["0", "0.0", "1", "1.0"], stripOf (· == ')') (t ++ ")") = t := by decide
      exact htexts _ (degreeText_mem he)
    obtain ⟨-, x, a, hx, ha, hd⟩ := he
    have hparse : Degree.parse? (degreeText e.2) = some (real x.toFloat) := by
      rw [hx]
      exact parse?_print hd ha
    have hhere : (e :: g).flatMap pieces = ("(" ++ quote e.1) :: (degreeText e.2 ++ ")") :: g.flatMap pieces := rfl
    rw [hhere, map_cons]
    simp only [pairPieces, hstate, hdegree, hparse, ih fun d hd => hg d (mem_cons_of_mem _ hd)]
    rw [hx]
    rfl

theorem splitGrades_printGrades (hne : g ≠ []) (hg : ∀ e ∈ g, IsBitGrade e) :
    splitGrades (printGrades g) = .ok (g.map fun e => (e.1, e.2.map fun x => real x.toFloat)) := by
  have hcomma : ∀ c ∈ 's' :: decimals, c ≠ ',' := by decide
  unfold splitGrades
  rw [stripOf_printGrades hne, split_join (show ", ".toList = [',', ' '] from rfl), pairPieces_pieces hg]
  · obtain ⟨e, g, rfl⟩ := exists_cons_of_ne_nil hne
    simp [pieces]
  · intro p hp
    obtain ⟨e, he, hp⟩ := mem_flatMap.1 hp
    rcases mem_pair.1 hp with rfl | rfl
    · have hname : ',' ∉ e.1.toList := fun hm => hcomma _ (mem_name (hg e he) hm) rfl
      rw [String.toList_append, toList_quote (hg e he)]
      simp [hname]
    · have htexts : ∀ t ∈ ["0", "0.0", "1", "1.0"], ',' ∉ (t ++ ")").toList := by decide
      exact htexts _ (degreeText_mem (hg e he))

/-! ## Reading as an expression -/

def entryList (e : String × Option Number) : List Char :=
  '(' :: (quoteList e.1.toList ++ ',' :: ' ' :: ((degreeText e.2).toList ++ [')']))

theorem toList_printGrades (e : String × Option Number) (g : Grades Number) :
    (printGrades (e :: g)).toList = '[' :: (entryList e ++ (series entryList g ++ [']'])) := by
  unfold printGrades join
  rw [String.toList_append, String.toList_append, String.toList_intercalate, map_cons, map_cons,
    intercalate_cons]
  simp [entryList, series, quote, flatMap_map]

def datumOf (e : String × Option Number) : Datum := (e.2.map toDatum).getD .null

def entryLexemes (e : String × Option Number) : List Lexeme :=
  [.mark '(', .text e.1, .mark ',', .number (datumOf e), .mark ')']

theorem lexemes_entry (he : IsBitGrade e) (fuel : Nat) (rest : List Char) :
    lexemes (fuel + 6) (entryList e ++ rest) = (lexemes fuel rest).map (entryLexemes e ++ ·) := by
  obtain ⟨-, x, a, hx, ha, hd⟩ := he
  have hdatum : datumOf e = x.toDatum := by rw [datumOf, hx]; rfl
  have htext : degreeText e.2 = print x := by rw [hx]; rfl
  simp only [entryList, cons_append, append_assoc, nil_append]
  rw [lexemes_mark (by simp), lexemes_quoted, lexemes_mark (by simp), lexemes_blank, htext,
    lexemes_print hd ha, lexemes_mark (by simp), entryLexemes, hdatum, String.ofList_toList]
  cases lexemes fuel rest <;> rfl

def entryDatum (e : String × Option Number) : Datum := .tuple [.text e.1, datumOf e]

theorem value?_entry (e : String × Option Number) (fuel : Nat) (rest : List Lexeme) :
    value? (fuel + 5) (entryLexemes e ++ rest) = some (.ok (entryDatum e), rest) := by
  simp [value?, items?, itemsFrom?, entryLexemes, joinTexts]
  rfl

theorem legible_entry : Legible entryList entryLexemes entryDatum IsBitGrade ']' 6 5 where
  closes := .inr rfl
  cost_le e := by simp only [entryList, quoteList, length_cons, length_append]; omega
  depth_le _ := Nat.le_refl 5
  begins e := ⟨_, _, rfl, by simp⟩
  lexemes_eq e he := lexemes_entry he
  value?_eq e fuel rest _ := value?_entry e fuel rest

theorem read_printGrades (e : String × Option Number) (g : Grades Number) (hg : ∀ d ∈ e :: g, IsBitGrade d) :
    Expression.read (printGrades (e :: g)) = .ok (.list ((e :: g).map entryDatum)) := by
  rw [← String.ofList_toList (s := printGrades (e :: g)), toList_printGrades]
  refine read_series legible_entry hg (by simp) fun fuel hfuel => ?_
  obtain ⟨k, rfl⟩ : ∃ k, fuel = k + 1 := ⟨fuel - 1, by omega⟩
  obtain ⟨comma, hi⟩ := items?_series (x := e) legible_entry (show g.length + 5 + 2 ≤ k by omega)
  simp only [value?, hi, Option.bind_eq_bind, Option.bind_some, valuesOf_map]
  rfl

theorem readGrades_printGrades (hg : ∀ e ∈ g, IsBitGrade e) : readGrades (printGrades g) = .ok g := by
  cases g with
  | nil => rfl
  | cons e g =>
    unfold readGrades
    simp only [read_printGrades e g hg]
    refine mapM_map_eq fun d hd => ?_
    obtain ⟨-, x, a, hx, -⟩ := hg d hd
    obtain ⟨name, degree⟩ := d
    subst hx
    cases x <;> rfl

/-! ## Marks of operators -/

theorem unmarked_entryList (he : IsBitGrade e) (hc : c ∈ entryList e) : c ≠ '!' ∧ c ≠ '<' := by
  have hframe : ∀ c ∈ frame, c ≠ '!' ∧ c ≠ '<' := by decide
  have hname : ∀ c ∈ 's' :: decimals, c ≠ '!' ∧ c ≠ '<' := by decide
  have htext : ∀ t ∈ ["0", "0.0", "1", "1.0"], ∀ c ∈ t.toList, c ≠ '!' ∧ c ≠ '<' := by decide
  simp only [entryList, mem_cons, mem_append, not_mem_nil, or_false] at hc
  rcases hc with rfl | hc | rfl | rfl | hc | rfl
  · decide
  · rcases mem_quoteList hc with hc | hc
    · exact hname c (mem_name he hc)
    · exact hframe c hc
  · decide
  · decide
  · exact htext _ (degreeText_mem he) c hc
  · decide

theorem unmarked_printGrades (hg : ∀ e ∈ g, IsBitGrade e) : Unmarked (printGrades g) := by
  intro c hc
  cases g with
  | nil =>
    have hempty : ∀ c ∈ (printGrades ([] : Grades Number)).toList, c ≠ '!' ∧ c ≠ '<' := by decide
    exact hempty c hc
  | cons e g =>
    rw [toList_printGrades] at hc
    simp only [series, mem_cons, mem_append, mem_flatMap, not_mem_nil, or_false] at hc
    rcases hc with rfl | hc | ⟨d, hd, rfl | rfl | hc⟩ | rfl
    · decide
    · exact unmarked_entryList (hg e mem_cons_self) hc
    · decide
    · decide
    · exact unmarked_entryList (hg d (mem_cons_of_mem _ hd)) hc
    · decide

end Alternating

end Arena.Fuzzy
