/-
Headings at the front of a formula. The heading of a coalition with a bound becomes a quantifier over all paths in one
translation, the coalition alone in the other; what stands behind it stays, up to blanks at the end.
-/
import Arena.Natural.Heading
import Arena.Proofs.Checker.Propositional
import Arena.Proofs.Text.Lines

namespace Arena.Natural.Heading

open Text Coalition List

variable {α : Type} {agents : List Nat} {c : Char}

/-- A coalition with a bound on the complexity of its strategies. -/
def heading (agents : List Nat) (bound : Nat) : String :=
  "<\x7b" ++ text agents ++ "\x7d," ++ toString bound ++ ">"

theorem toList_heading (a : Nat) (agents : List Nat) (bound : Nat) (rest : String) :
    (heading (a :: agents) bound ++ rest).toList =
      '<' :: '\x7b' :: (chars a agents ++ '\x7d' :: ',' :: (Nat.toDigits 10 bound ++ '>' :: rest.toList)) := by
  unfold heading
  simp [toList_text]

/-! ## Numerals -/

theorem mem_chars {a : Nat} (h : c ∈ chars a agents) : c ∈ ',' :: decimals := by
  unfold chars at h
  rw [mem_append, mem_flatMap] at h
  rcases h with h | ⟨b, -, h⟩
  · exact mem_cons_of_mem _ (mem_toDigits h)
  · rcases mem_cons.1 h with rfl | h
    · exact mem_cons_self
    · exact mem_cons_of_mem _ (mem_toDigits h)

theorem digits?_toDigits (n : Nat) (hc : isDigit c = false) (rest : List Char) :
    digits? (Nat.toDigits 10 n ++ c :: rest) = some (Nat.toDigits 10 n, c :: rest) := by
  rw [← run_toDigits n hc rest, digits?, Formula.run]
  cases (Nat.toDigits 10 n ++ c :: rest).takeWhile isDigit <;> rfl

theorem skipBlanks_toDigits (n : Nat) (rest : List Char) :
    skipBlanks (Nat.toDigits 10 n ++ rest) = Nat.toDigits 10 n ++ rest := by
  have hblank : ∀ d ∈ decimals, isBlank d = false := by decide
  obtain ⟨d, ds, hd⟩ := exists_cons_of_ne_nil (Nat.toDigits_ne_nil (n := n) (b := 10))
  have hmem : d ∈ decimals := mem_toDigits (hd ▸ mem_cons_self)
  unfold skipBlanks
  rw [hd, cons_append, dropWhile_cons_of_neg (by simp [hblank d hmem])]

/-! ## Branching time -/

theorem fences_heading (before : Option Char) (a : Nat) (agents : List Nat) (rest : List Char) :
    ∃ opening closing, fences before ('<' :: '\x7b' :: (chars a agents ++ '\x7d' :: ',' :: rest)) =
      some ((opening, text (a :: agents), closing), rest) := by
  have hinside : ∀ c ∈ chars a agents, (c != '\x7d') = true := by
    have hall : ∀ c ∈ ',' :: decimals, (c != '\x7d') = true := by decide
    exact fun c hc => hall c (mem_chars hc)
  obtain ⟨body, hbody⟩ : ∃ body, chars a agents ++ '\x7d' :: ',' :: rest = body := ⟨_, rfl⟩
  have hskip : skipBlanks body = body := by
    unfold chars at hbody
    rw [← hbody, append_assoc, skipBlanks_toDigits]
  have htake : body.takeWhile (· != '\x7d') = chars a agents := by
    rw [← hbody, takeWhile_append_of_pos hinside, takeWhile_cons_of_neg (by decide), append_nil]
  have hdrop : body.dropWhile (· != '\x7d') = '\x7d' :: ',' :: rest := by
    rw [← hbody, dropWhile_append_of_pos hinside, dropWhile_cons_of_neg (by decide)]
  have hopen : skipBlanks ('\x7b' :: body) = '\x7b' :: body := rfl
  rw [hbody]
  unfold fences
  simp only [expect?, if_true, hopen, hskip, hdrop, htake, ofList_chars, Option.bind_eq_bind, Option.bind_some]
  exact ⟨_, _, rfl⟩

theorem loose_heading (before : Option Char) (a : Nat) (agents : List Nat) (bound : Nat) (rest : List Char) :
    loose before ('<' :: '\x7b' :: (chars a agents ++ '\x7d' :: ',' :: (Nat.toDigits 10 bound ++ '>' :: rest))) =
      some (⟨false, text (a :: agents), toString bound⟩, rest) := by
  obtain ⟨opening, closing, hfences⟩ := fences_heading before a agents (Nat.toDigits 10 bound ++ '>' :: rest)
  unfold loose
  simp only [unsigned, braces, hfences, Option.map_some, Option.bind_eq_bind, Option.bind_some, skipBlanks_toDigits,
    digits?_toDigits bound (show isDigit '>' = false by decide)]
  rfl

theorem trim_heading (hne : agents ≠ []) (bound : Nat) (rest : String) :
    trim (heading agents bound ++ rest) = heading agents bound ++ trimRight rest := by
  obtain ⟨a, agents, rfl⟩ := exists_cons_of_ne_nil hne
  have hlist : (heading (a :: agents) bound).toList =
      '<' :: '\x7b' :: (chars a agents ++ '\x7d' :: ',' :: Nat.toDigits 10 bound) ++ ['>'] := by
    have := toList_heading a agents bound ""
    rw [String.append_empty] at this
    simp [this]
  refine trim_append (c := '<') (d := '>') ?_ (by decide) ?_ (by decide) rest
  · rw [hlist]
    rfl
  · rw [hlist, getLast?_concat]

theorem toBranching_heading (hne : agents ≠ []) (bound : Nat) (rest : String) :
    toBranching (some (heading agents bound ++ rest)) = .ok ("A" ++ trimRight rest) := by
  have htrim := trim_heading hne bound rest
  obtain ⟨a, agents, rfl⟩ := exists_cons_of_ne_nil hne
  have hfirst : loose.first? (heading (a :: agents) bound ++ trimRight rest) =
      some ("", ⟨false, text (a :: agents), toString bound⟩, trimRight rest) := by
    unfold Matcher.first?
    rw [toList_heading, Matcher.firstFrom, loose_heading]
    simp
  unfold toBranching
  simp only [orFault, bind, Except.bind, htrim, hfirst]
  rfl

/-! ## Coalitions -/

theorem numerals?_chars (rest : List Char) : ∀ (agents : List Nat) (a fuel : Nat), agents.length < fuel →
    numerals? fuel (chars a agents ++ '\x7d' :: rest) = some (chars a agents, '\x7d' :: rest)
  | _, _, 0, h => by omega
  | [], a, fuel + 1, _ => by
    have hdigits := digits?_toDigits a (show isDigit '\x7d' = false by decide) rest
    simp [numerals?, chars, hdigits, expect?]
  | b :: agents, a, fuel + 1, h => by
    have hdigits := digits?_toDigits a (show isDigit ',' = false by decide) (chars b agents ++ '\x7d' :: rest)
    rw [length_cons] at h
    have hmore := numerals?_chars rest agents b fuel (by omega)
    rw [chars_cons, append_assoc, cons_append, numerals?, hdigits]
    simp only [Option.bind_eq_bind, Option.bind_some, expect?, if_true, hmore]
    rfl

theorem strictUnsigned_heading (before : Option Char) (a : Nat) (agents : List Nat) (bound : Nat) (rest : String) :
    strictUnsigned before (heading (a :: agents) bound ++ rest).toList =
      some (⟨false, text (a :: agents), toString bound⟩, rest.toList) := by
  rw [toList_heading]
  generalize htail : Nat.toDigits 10 bound ++ '>' :: rest.toList = tail
  have hlen : agents.length < (chars a agents ++ '\x7d' :: ',' :: tail).length + 1 := by
    have := length_chars a agents
    rw [length_append]
    omega
  have hnumerals := numerals?_chars (',' :: tail) agents a _ hlen
  subst htail
  unfold strictUnsigned
  simp only [behind?, expect?, if_true, Option.bind_eq_bind, Option.bind_some, hnumerals, skipBlanks_toDigits,
    digits?_toDigits bound (show isDigit '>' = false by decide), ofList_chars]
  rfl

theorem strictUnsigned_none {before : Option Char} {s : List Char} (h : '<' ∉ s) : strictUnsigned before s = none := by
  cases s with
  | nil => rfl
  | cons c s =>
    have hc : ¬ '<' = c := fun e => h (e ▸ mem_cons_self)
    unfold strictUnsigned
    simp [behind?, expect?, hc]

theorem replaceFrom_skip (m : Text.Matcher α) (new : α → List Char) (rest : List Char) :
    ∀ (passed : List Char) (before : Option Char), ∃ before',
      m.replaceFrom new passed.length before (passed ++ rest) = m.replaceFrom new 0 before' rest
  | [], before => ⟨before, rfl⟩
  | c :: passed, before => by
    obtain ⟨before', h⟩ := replaceFrom_skip m new rest passed (some c)
    exact ⟨before', h⟩

theorem replaceFrom_none {m : Text.Matcher α} (new : α → List Char) : ∀ {s : List Char},
    (∀ t, t <:+ s → ∀ before, m before t = none) → ∀ before, m.replaceFrom new 0 before s = s
  | [], h, before => by rw [Text.Matcher.replaceFrom, h [] suffix_rfl]
  | c :: s, h, before => by
    rw [Text.Matcher.replaceFrom, h _ suffix_rfl]
    rw [replaceFrom_none new fun t ht => h t (ht.trans (suffix_cons c s))]

theorem toAlternating_heading (hne : agents ≠ []) (bound : Nat) {rest : String} (h : '<' ∉ rest.toList) :
    toAlternating (heading agents bound ++ rest) = "<" ++ text agents ++ ">" ++ rest := by
  obtain ⟨a, agents, rfl⟩ := exists_cons_of_ne_nil hne
  -- the heading without its first character, which is passed over behind the replacement
  have hbody : ∃ body : List Char, (heading (a :: agents) bound ++ rest).toList = '<' :: (body ++ rest.toList) :=
    ⟨'\x7b' :: (chars a agents ++ '\x7d' :: ',' :: (Nat.toDigits 10 bound ++ ['>'])), by
      rw [toList_heading]; simp⟩
  obtain ⟨body, hbody⟩ := hbody
  have hmatch := strictUnsigned_heading none a agents bound rest
  rw [hbody] at hmatch
  obtain ⟨before', hskip⟩ := replaceFrom_skip strictUnsigned (fun h => ("<" ++ h.coalition ++ ">").toList) rest.toList
    body (some '<')
  have hlen : (body ++ rest.toList).length + 1 - rest.toList.length = body.length + 1 := by
    rw [length_append]
    omega
  unfold toAlternating Matcher.replaceAll
  rw [hbody, Matcher.replaceFrom, hmatch]
  simp only [hlen]
  rw [hskip, replaceFrom_none _ fun t ht before => strictUnsigned_none fun hm => h (ht.mem hm)]
  apply String.toList_injective
  simp

end Arena.Natural.Heading
