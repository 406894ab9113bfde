/-
Numerals in texts. A number written in decimal is read back, if it has no more digits than are read. Parts without the
first character of a separator are what its occurrences cut their join into.
-/
import Arena.Text.Digit
import Arena.Text.Pieces
import Mathlib.Data.List.TakeWhile
import Mathlib.Tactic.FinCases
import Mathlib.Tactic.IntervalCases

namespace Arena.Text

open List

variable {c : Char} {n : Nat} {s : String} {cs : List Char}

/-- What holds of all characters of a list is decided along the list, not over all characters. -/
instance (priority := 1100) decidableChars (p : Char → Prop) [DecidablePred p] (cs : List Char) :
    Decidable (∀ c ∈ cs, p c) :=
  decidableBAll p cs

/-! ## Decimal digits -/

def decimals : List Char := ['0', '1', '2', '3', '4', '5', '6', '7', '8', '9']

theorem mem_decimals (h : c.isDigit = true) : c ∈ decimals := by
  have h1 : 48 ≤ c.toNat ∧ c.toNat ≤ 57 := by
    simp only [Char.isDigit, Bool.and_eq_true, decide_eq_true_eq] at h
    exact ⟨h.1, h.2⟩
  rw [← Char.ofNat_toNat c]
  generalize c.toNat = n at h1
  obtain ⟨h1, h2⟩ := h1
  interval_cases n <;> decide

theorem mem_toDigits (h : c ∈ Nat.toDigits 10 n) : c ∈ decimals :=
  mem_decimals (Nat.isDigit_of_mem_toDigits (by decide) (by decide) h)

theorem isDigit_toDigits : ∀ d ∈ Nat.toDigits 10 n, isDigit d = true := by
  have hdigit : ∀ d ∈ decimals, isDigit d = true := by decide
  exact fun d hd => hdigit d (mem_toDigits hd)

theorem toDigits_zero_first {rest : List Char} (h : Nat.toDigits 10 n = '0' :: rest) : n = 0 := by
  induction n using Nat.strongRecOn generalizing rest with
  | ind n ih =>
    by_cases hn : n < 10
    · rw [Nat.toDigits_of_lt_base hn] at h
      have hdigit : ∀ k < 10, Nat.digitChar k = '0' → k = 0 := by decide
      exact hdigit n hn (cons.inj h).1
    · rw [Nat.toDigits_of_base_le (by decide) (by omega)] at h
      obtain ⟨d, ds, hds⟩ := exists_cons_of_ne_nil (Nat.toDigits_ne_nil (n := n / 10) (b := 10))
      rw [hds] at h
      have hzero := ih (n / 10) (by omega) (hds.trans (by rw [(cons.inj h).1]))
      omega

theorem toList_natRepr (n : Nat) : (toString n).toList = Nat.toDigits 10 n := Nat.toList_repr

theorem toString_inj {i j : Nat} (h : toString i = toString j) : i = j := by
  have hdigits := congrArg String.toList h
  rw [toList_natRepr, toList_natRepr] at hdigits
  rw [← Nat.ofDigitChars_ten_toDigits (n := i), hdigits, Nat.ofDigitChars_ten_toDigits]

theorem readDigits_cons (hc : c ∈ decimals) (after : Bool) (n k : Nat) (cs : List Char) :
    readDigits after n k (c :: cs) = readDigits true (10 * n + (c.toNat - '0'.toNat)) (k + 1) cs := by
  fin_cases hc <;> rfl

theorem readDigits_decimals : ∀ (cs : List Char) (n k : Nat), (∀ c ∈ cs, c ∈ decimals) →
    readDigits true n k cs = some (Nat.ofDigitChars 10 cs n, k + cs.length)
  | [], _, _, _ => rfl
  | c :: cs, n, k, h => by
    rw [readDigits_cons (h c mem_cons_self), readDigits_decimals cs _ _ fun d hd => h d (mem_cons_of_mem _ hd), length_cons]
    congr 2
    omega

theorem readNat?_toDigits (n : Nat) : readNat? (Nat.toDigits 10 n) = if n < 10 ^ maxDigits then some n else none := by
  have hread : readDigits false 0 0 (Nat.toDigits 10 n) = some (n, (Nat.toDigits 10 n).length) := by
    -- the first digit stands behind no digit, so it is read apart from the others
    rcases hd : Nat.toDigits 10 n with _ | ⟨c, cs⟩
    · exact absurd hd Nat.toDigits_ne_nil
    · have hmem : ∀ d ∈ c :: cs, d ∈ decimals := fun d hdm => mem_toDigits (hd ▸ hdm)
      have hvalue : Nat.ofDigitChars 10 (c :: cs) 0 = n := hd ▸ Nat.ofDigitChars_ten_toDigits
      rw [Nat.ofDigitChars_cons] at hvalue
      rw [readDigits_cons (hmem c mem_cons_self),
        readDigits_decimals cs _ _ fun d hdm => hmem d (mem_cons_of_mem _ hdm), hvalue, length_cons,
        Nat.add_comm]
  have hlen : (Nat.toDigits 10 n).length ≤ maxDigits ↔ n < 10 ^ maxDigits :=
    Nat.length_toDigits_le_iff (by decide) (by decide)
  simp only [readNat?, hread, hlen]

theorem stripOf_append {p : Char → Bool} {l m r : List Char} (hl : ∀ c ∈ l, p c = true) (hr : ∀ c ∈ r, p c = true)
    (hfirst : ∀ c, m.head? = some c → p c = false) (hlast : ∀ c, m.getLast? = some c → p c = false) :
    stripOf p (String.ofList (l ++ (m ++ r))) = String.ofList m := by
  have hstop : ∀ a b : List Char, (∀ c, a.head? = some c → p c = false) → (∀ c ∈ b, p c = true) →
      (a ++ b).dropWhile p = if a = [] then [] else a ++ b := by
    rintro (_ | ⟨c, a⟩) b ha hb
    · simpa [dropWhile_eq_nil_iff] using hb
    · rw [cons_append, dropWhile_cons_of_neg (by simp [ha c rfl]), if_neg (by simp)]
  have hright : dropRight p (m ++ r) = m := by
    unfold dropRight
    rw [reverse_append, dropWhile_append_of_pos fun c hc => hr c (mem_reverse.1 hc)]
    have hback := hstop m.reverse [] (fun c hc => hlast c (by rwa [head?_reverse] at hc)) (by simp)
    rw [append_nil] at hback
    rw [hback]
    split
    · rename_i hnil
      rw [reverse_eq_nil_iff] at hnil
      rw [hnil]
      rfl
    · rw [reverse_reverse]
  unfold stripOf dropLeft
  rw [String.toList_ofList, dropWhile_append_of_pos hl, hstop m r hfirst hr]
  split
  · rename_i hnil
    rw [hnil]
    rfl
  · rw [hright]

theorem trim_of_ends (h : ∀ c, s.toList.head? = some c ∨ s.toList.getLast? = some c → isBlank c = false) : trim s = s := by
  have hends := stripOf_append (p := isBlank) (l := []) (m := s.toList) (r := []) (by simp) (by simp)
    (fun c hc => h c (.inl hc)) fun c hc => h c (.inr hc)
  rwa [nil_append, append_nil, String.ofList_toList] at hends

theorem trim_eq_self (h : ∀ c ∈ s.toList, isBlank c = false) : trim s = s :=
  trim_of_ends fun c hc => h c (hc.elim mem_of_head? mem_of_getLast?)

theorem digitValue?_le {d : Nat} (h : digitValue? c = some d) : d ≤ 9 := by
  unfold digitValue? at h
  simp only at h
  split at h
  · split at h
    · rename_i hrange
      cases h
      simp only [Bool.and_eq_true, decide_eq_true_eq] at hrange
      omega
    · cases h
  · obtain ⟨z, hz, rfl⟩ := Option.map_eq_some_iff.1 h
    have hrange := Array.find?_some hz
    simp only [Bool.and_eq_true, decide_eq_true_eq] at hrange
    omega

theorem readDigits_lt : ∀ {after : Bool} {n k v l : Nat}, n < 10 ^ k →
    readDigits after n k cs = some (v, l) → v < 10 ^ l := by
  induction cs with
  | nil =>
    intro after n k v l hn h
    unfold readDigits at h
    split at h
    · cases h
      exact hn
    · cases h
  | cons c cs ih =>
    intro after n k v l hn h
    by_cases hc : c = '_'
    · subst hc
      rw [readDigits] at h
      split at h
      · exact ih hn h
      · cases h
    · rw [readDigits] at h
      · split at h
        · rename_i d hd
          have := digitValue?_le hd
          exact ih (by rw [Nat.pow_succ]; omega) h
        · cases h
      · exact hc

theorem lt_pow_maxDigits (h : n < 10) : n < 10 ^ maxDigits := h.trans_le (Nat.le_self_pow (by decide) 10)

theorem readNat?_lt (h : readNat? cs = some n) : n < 10 ^ maxDigits := by
  unfold readNat? at h
  split at h
  · rename_i v k hread
    split at h
    · rename_i hk
      cases h
      exact Nat.lt_of_lt_of_le (readDigits_lt (by decide) hread) (Nat.pow_le_pow_right (by decide) hk)
    · cases h
  · cases h

theorem readInt?_lt {i : Int} (h : readInt? s = some i) : i < 10 ^ maxDigits := by
  have hcast : ∀ {cs : List Char} {n : Nat}, readNat? cs = some n → (n : Int) < 10 ^ maxDigits := by
    intro cs n hn
    exact_mod_cast readNat?_lt hn
  unfold readInt? at h
  split at h
  all_goals
    obtain ⟨z, hz, rfl⟩ := Option.map_eq_some_iff.1 h
    obtain ⟨n, hn, hz⟩ := Option.bind_eq_some_iff.1 hz
    cases hz
    have := hcast hn
    omega

theorem readInt?_toString_eq (n : Nat) :
    readInt? (toString n) = if n < 10 ^ maxDigits then some (n : Int) else none := by
  have hblank : ∀ c ∈ decimals, isBlank c = false := by decide
  have hsign : ∀ c ∈ decimals, c ≠ '-' ∧ c ≠ '+' := by decide
  have htrim : trim (toString n) = toString n :=
    trim_eq_self fun c hc => hblank c (mem_toDigits (toList_natRepr n ▸ hc))
  unfold readInt?
  rw [htrim, toList_natRepr]
  rcases hd : Nat.toDigits 10 n with _ | ⟨c, cs⟩
  · exact absurd hd Nat.toDigits_ne_nil
  · obtain ⟨hminus, hplus⟩ := hsign c (mem_toDigits (hd ▸ mem_cons_self))
    have hread := hd ▸ readNat?_toDigits n
    split
    · rename_i heq
      exact absurd (cons.inj heq).1 hminus
    · rename_i heq
      exact absurd (cons.inj heq).1 hplus
    · rw [hread]
      split <;> rfl

theorem readInt?_toString (h : n < 10 ^ maxDigits) : readInt? (toString n) = some (n : Int) :=
  (readInt?_toString_eq n).trans (if_pos h)

/-! ## Parts -/

theorem occursIn_eq_false (piece : List Char) : ∀ {s : List Char}, c ∉ s → occursIn (c :: piece) s = false
  | [], _ => rfl
  | d :: s, h => by
    obtain ⟨hd, hs⟩ := not_or.1 (mt mem_cons.2 h)
    have hfirst : (c == d) = false := by simpa using hd
    rw [occursIn, occursIn_eq_false piece hs, isPrefixOf_cons_cons, hfirst]
    rfl

section Parts

variable (c : Char) (sep : List Char)

theorem splitFrom_append (rest : List Char) : ∀ {part : List Char}, c ∉ part → ∀ before : List Char,
    splitFrom (c :: sep) 0 before (part ++ rest) = splitFrom (c :: sep) 0 (part.reverse ++ before) rest
  | [], _, _ => rfl
  | d :: part, h, before => by
    obtain ⟨hd, hpart⟩ := not_or.1 (mt mem_cons.2 h)
    rw [cons_append, splitFrom, if_neg (by simp [hd]), splitFrom_append rest hpart]
    simp

theorem splitFrom_skip (all rest : List Char) : ∀ passed before : List Char,
    splitFrom all passed.length before (passed ++ rest) = splitFrom all 0 before rest
  | [], _ => rfl
  | d :: passed, before => by
    exact splitFrom_skip all rest passed before

theorem splitFrom_part_sep (rest : List Char) {part : List Char} (h : c ∉ part) (before : List Char) :
    splitFrom (c :: sep) 0 before (part ++ c :: (sep ++ rest)) =
      (before.reverse ++ part) :: splitFrom (c :: sep) 0 [] rest := by
  have hprefix : (c :: sep).isPrefixOf (c :: (sep ++ rest)) = true := by
    rw [ isPrefixOf_iff_prefix]
    exact ⟨rest, rfl⟩
  rw [splitFrom_append c sep _ h, splitFrom, if_pos hprefix, length_cons, Nat.add_sub_cancel, splitFrom_skip,
    reverse_append, reverse_reverse]

theorem splitFrom_intercalate : ∀ (p : List Char) (ps : List (List Char)), (∀ q ∈ p :: ps, c ∉ q) →
    splitFrom (c :: sep) 0 [] (intercalate (c :: sep) (p :: ps)) = p :: ps
  | p, [], h => by simpa [splitFrom] using splitFrom_append c sep [] (h p mem_cons_self) []
  | p, q :: ps, h => by
    rw [intercalate_cons_cons, append_assoc, cons_append,
      splitFrom_part_sep c sep _ (h p mem_cons_self),
      splitFrom_intercalate q ps fun r hr => h r (mem_cons_of_mem _ hr)]
    rfl

variable {c sep}

/-- Parts without the first character of a separator are what the separator cuts their join into. -/
theorem split_join (hs : s.toList = c :: sep) {ps : List String} (hne : ps ≠ []) (h : ∀ p ∈ ps, c ∉ p.toList) :
    split s (join s ps) = ps := by
  unfold split join
  rw [String.toList_intercalate]
  obtain ⟨p, ps, rfl⟩ := exists_cons_of_ne_nil hne
  rw [map_cons, hs, splitFrom_intercalate]
  · simp
  · intro q hq
    rw [← map_cons, mem_map] at hq
    obtain ⟨p', hp', rfl⟩ := hq
    exact h p' hp'

end Parts

theorem splitFrom_ne_nil (sep : List Char) : ∀ (skip : Nat) (part cs : List Char), splitFrom sep skip part cs ≠ []
  | 0, _, [] | _ + 1, _, [] => cons_ne_nil _ _
  | skip + 1, part, _ :: cs => splitFrom_ne_nil sep skip part cs
  | 0, part, c :: cs => by
    rw [splitFrom]
    split
    · exact cons_ne_nil _ _
    · exact splitFrom_ne_nil sep 0 (c :: part) cs

theorem split_ne_nil (sep s : String) : split sep s ≠ [] := fun h => splitFrom_ne_nil _ _ _ _ (map_eq_nil_iff.1 h)

/-- The parts, joined by the separator, are the text behind what is skipped. -/
theorem intercalate_splitFrom {sep : List Char} (hsep : sep ≠ []) : ∀ (skip : Nat) (before cs : List Char),
    intercalate sep (splitFrom sep skip before cs) = before.reverse ++ cs.drop skip
  | 0, before, [] | _ + 1, before, [] => by simp [splitFrom]
  | skip + 1, before, _ :: cs => intercalate_splitFrom hsep skip before cs
  | 0, before, c :: cs => by
    rw [splitFrom]
    split
    · rename_i hc
      obtain ⟨d, tail, rfl⟩ := exists_cons_of_ne_nil hsep
      obtain ⟨rest, hrest⟩ := isPrefixOf_iff_prefix.1 hc
      obtain ⟨rfl, rfl⟩ := cons.inj hrest
      have hback := intercalate_splitFrom hsep tail.length [] (tail ++ rest)
      obtain ⟨p, ps, hparts⟩ := exists_cons_of_ne_nil (splitFrom_ne_nil (d :: tail) tail.length [] (tail ++ rest))
      rw [hparts] at hback
      simp [hparts, hback]
    · simp [intercalate_splitFrom hsep 0 (c :: before) cs]

theorem join_split {sep : String} (hsep : sep ≠ "") (s : String) : join sep (split sep s) = s := by
  refine String.toList_injective ?_
  have hback : map String.toList (split sep s) = splitFrom sep.toList 0 [] s.toList := by simp [split]
  rw [join, String.toList_intercalate, hback, intercalate_splitFrom (by simpa using hsep)]
  rfl

end Arena.Text
