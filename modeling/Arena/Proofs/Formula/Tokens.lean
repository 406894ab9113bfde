/-
Where the tokens of a text come from. A character that no token holds cuts a text in two, with the tokens of both parts;
and each token begins at some place of the text, so a text without the characters that a kind of token begins with has
none of that kind.
-/
import Arena.Formula.Lexicon
import Mathlib.Data.List.Nodup

namespace Arena.Formula

open List

variable {c : Char} {w : String} {ms : List Matcher} {ws : List String} {lx : Lexicon} {lexeme : List Char}
  {kind : TokenKind} {t : Token} {p : Char → Prop} {s tail : List Char} {r : Rule} {m : Matcher}

/-! ## Characters that no token holds -/

/-- A matcher that reads from the front of a text and never reads past a character. -/
structure StopsAt (c : Char) (m : Matcher) : Prop where
  reads : ∀ s lexeme rest, m s = some (lexeme, rest) → s = lexeme ++ rest
  stops : ∀ a b, m (a ++ c :: b) = (m a).map fun r => (r.1, r.2 ++ c :: b)

theorem isPrefix_append_sep {b : List Char} : ∀ {w a : List Char}, c ∉ w →
    (w <+: a ++ c :: b ↔ w <+: a)
  | [], a, _ => by simp
  | x :: w, [], hc => by
    simp only [mem_cons, not_or] at hc
    simp [Ne.symm hc.1]
  | x :: w, y :: a, hc => by
    simp only [mem_cons, not_or] at hc
    rw [cons_append, cons_prefix_cons, cons_prefix_cons, isPrefix_append_sep hc.2]

theorem literal_eq_some (h : literal w s = some (lexeme, tail)) : lexeme = w.toList ∧ s = w.toList ++ tail := by
  unfold literal at h
  split at h
  · rename_i hp
    obtain ⟨t, rfl⟩ := isPrefixOf_iff_prefix.1 hp
    cases h
    exact ⟨rfl, by simp⟩
  · cases h

theorem stopsAt_literal (hc : c ∉ w.toList) : StopsAt c (literal w) where
  reads s lexeme rest h := by
    obtain ⟨rfl, hs⟩ := literal_eq_some h
    exact hs
  stops a b := by
    unfold literal
    by_cases hp : w.toList <+: a
    · have hp' : w.toList <+: a ++ c :: b := (isPrefix_append_sep hc).2 hp
      rw [if_pos ( isPrefixOf_iff_prefix.2 hp), if_pos ( isPrefixOf_iff_prefix.2 hp')]
      rw [drop_append_of_le_length hp.length_le]; rfl
    · have hp' : ¬ w.toList <+: a ++ c :: b := fun h => hp ((isPrefix_append_sep hc).1 h)
      rw [if_neg (fun h => hp ( isPrefixOf_iff_prefix.1 h)),
        if_neg (fun h => hp' ( isPrefixOf_iff_prefix.1 h))]; rfl

theorem takeWhile_append_sep {p : Char → Bool} (hc : p c = false) (a b : List Char) :
    (a ++ c :: b).takeWhile p = a.takeWhile p := by
  induction a with
  | nil => simp [hc]
  | cons x a ih => by_cases hx : p x <;> simp [hx, ih]

theorem dropWhile_append_sep {p : Char → Bool} (hc : p c = false) (a b : List Char) :
    (a ++ c :: b).dropWhile p = a.dropWhile p ++ c :: b := by
  induction a with
  | nil => simp [hc]
  | cons x a ih => by_cases hx : p x <;> simp_all

theorem stopsAt_run {p : Char → Bool} (hc : p c = false) : StopsAt c (run p) where
  reads s lexeme rest h := by
    unfold run at h
    split at h
    · cases h
    · cases h; exact (takeWhile_append_dropWhile ..).symm
  stops a b := by
    unfold run
    rw [takeWhile_append_sep hc, dropWhile_append_sep hc]
    split <;> rfl

theorem stopsAt_anyRun {p : Char → Bool} (hc : p c = false) : StopsAt c (anyRun p) where
  reads s lexeme rest h := by
    cases h
    exact (takeWhile_append_dropWhile ..).symm
  stops a b := by
    unfold anyRun
    rw [takeWhile_append_sep hc, dropWhile_append_sep hc]
    rfl

theorem stopsAt_sequence (h : ∀ m ∈ ms, StopsAt c m) : StopsAt c (sequence ms) := by
  induction ms with
  | nil => exact ⟨fun s l r h => by cases h; rfl, fun a b => rfl⟩
  | cons m ms ih =>
    obtain ⟨hm, hms⟩ := forall_mem_cons.1 h
    have ih := ih hms
    refine ⟨fun s l r h => ?_, fun a b => ?_⟩
    · unfold sequence at h
      split at h
      · cases h
      · rename_i x rest hx
        split at h
        · cases h
        · rename_i y rest' hy
          cases h
          rw [hm.reads _ _ _ hx, ih.reads _ _ _ hy, append_assoc]
    · simp only [sequence]
      rw [hm.stops]
      cases m a with
      | none => rfl
      | some r =>
        simp only [Option.map_some]
        rw [ih.stops]
        cases sequence ms r.2 <;> rfl

theorem numerals_reads : ∀ (fuel : Nat) (s lexeme rest : List Char),
    numerals fuel s = some (lexeme, rest) → s = lexeme ++ rest
  | 0, s, lexeme, rest, h => by cases h
  | fuel + 1, s, lexeme, rest, h => by
    unfold numerals at h
    split at h
    · cases h
    · rename_i n tail hrun
      have hs := (stopsAt_run (c := ',') (by decide)).reads _ _ _ hrun
      split at h
      · split at h
        · rename_i more rest' hmore
          cases h
          rw [hs, numerals_reads fuel _ _ _ hmore]
          simp
        · cases h
          exact hs
      · cases h
        exact hs

/-- The fuel of a list of numerals does not matter, as long as there is more of it than text. -/
theorem numerals_stops (hc : Text.isDigit c = false) (hcomma : c ≠ ',') (b : List Char) :
    ∀ (fuel more : Nat) (a : List Char), a.length < fuel → a.length < more →
      numerals more (a ++ c :: b) = (numerals fuel a).map fun r => (r.1, r.2 ++ c :: b)
  | 0, _, _, h, _ => by omega
  | _, 0, _, _, h => by omega
  | fuel + 1, more + 1, a, hf, hm => by
    have hrun := stopsAt_run (p := Text.isDigit) hc
    unfold numerals
    rw [hrun.stops]
    cases hr : run Text.isDigit a with
    | none => rfl
    | some r =>
      obtain ⟨n, rest⟩ := r
      have hlen := congrArg length (hrun.reads _ _ _ hr)
      rw [length_append] at hlen
      simp only [Option.map_some]
      rcases rest with _ | ⟨x, rest⟩
      · split
        · rename_i heq
          exact absurd (cons.inj heq).1 hcomma
        · rfl
      · by_cases hx : x = ','
        · subst hx
          rw [length_cons] at hlen
          simp only [cons_append]
          rw [numerals_stops hc hcomma b fuel more rest (by omega) (by omega)]
          cases numerals fuel rest <;> rfl
        · split
          · rename_i heq
            exact absurd (cons.inj heq).1 hx
          · split
            · rename_i heq
              exact absurd (cons.inj heq).1 hx
            · rfl

theorem stopsAt_numeralList (hc : Text.isDigit c = false) (hcomma : c ≠ ',') : StopsAt c numeralList where
  reads s lexeme rest h := numerals_reads _ s lexeme rest h
  stops a b := by
    exact numerals_stops hc hcomma b _ _ a (by omega) (by rw [length_append]; omega)

theorem stopsAt_firstOf (h : ∀ m ∈ ms, StopsAt c m) : StopsAt c (firstOf ms) := by
  induction ms with
  | nil => exact ⟨fun s l r h => by simp [firstOf] at h, fun a b => rfl⟩
  | cons m ms ih =>
    obtain ⟨hm, hms⟩ := forall_mem_cons.1 h
    have ih := ih hms
    refine ⟨fun s l r h => ?_, fun a b => ?_⟩
    · unfold firstOf at h
      split at h
      · rename_i hr; cases h; exact hm.reads s l r hr
      · exact ih.reads s l r h
    · simp only [firstOf]
      rw [hm.stops, ih.stops]
      cases m a <;> rfl

theorem firstOf_eq_none (h : ∀ m ∈ ms, m s = none) : firstOf ms s = none := by
  induction ms with
  | nil => rfl
  | cons m ms ih =>
    obtain ⟨hm, hms⟩ := forall_mem_cons.1 h
    simp only [firstOf, hm]
    exact ih hms

theorem stopsAt_oneOf (h : ∀ w ∈ ws, c ∉ w.toList) : StopsAt c (oneOf ws) := by
  apply stopsAt_firstOf
  intro m hm
  obtain ⟨w, hw, rfl⟩ := mem_map.1 hm
  exact stopsAt_literal (h w hw)

namespace Lexicon

/-- A lexicon none of whose tokens is empty or holds a character. -/
structure Separates (lx : Lexicon) (c : Char) : Prop where
  rules : ∀ r ∈ lx, StopsAt c r.reads
  empty : lx.front? [] = none

theorem front?_append (h : ∀ r ∈ lx, StopsAt c r.reads) (a b : List Char) : lx.front? (a ++ c :: b) = lx.front? a := by
  induction lx with
  | nil => rfl
  | cons r rs ih =>
    obtain ⟨hr, hrs⟩ := forall_mem_cons.1 h
    simp only [front?]
    rw [hr.stops, ih hrs]
    cases r.reads a <;> rfl

/-! ## Where tokens begin -/

theorem exists_front_of_mem : ∀ (s : List Char) (skip : Nat), t ∈ lx.tokensFrom skip s →
    ∃ c rest lexeme, c ∈ s ∧ lx.front? (c :: rest) = some (t.kind, lexeme) ∧ t.text = String.ofList lexeme
  | [], _, h => by simp [tokensFrom] at h
  | x :: s, skip + 1, h => by
    obtain ⟨c, rest, lexeme, hc, hf⟩ := exists_front_of_mem s skip (by simpa [tokensFrom] using h)
    exact ⟨c, rest, lexeme, mem_cons_of_mem _ hc, hf⟩
  | x :: s, 0, h => by
    simp only [tokensFrom] at h
    cases hf : lx.front? (x :: s) with
    | none =>
      rw [hf] at h
      obtain ⟨c, rest, lexeme, hc, hf⟩ := exists_front_of_mem s 0 h
      exact ⟨c, rest, lexeme, mem_cons_of_mem _ hc, hf⟩
    | some r =>
      rw [hf] at h
      rcases mem_cons.1 h with rfl | h
      · exact ⟨x, s, r.2, mem_cons_self .., hf, rfl⟩
      · obtain ⟨c, rest, lexeme, hc, hf⟩ := exists_front_of_mem s _ h
        exact ⟨c, rest, lexeme, mem_cons_of_mem _ hc, hf⟩

theorem tokensFrom_drop : ∀ (skip : Nat) (s : List Char),
    lx.tokensFrom skip s = lx.tokensFrom 0 (s.drop skip)
  | 0, _ => rfl
  | _ + 1, [] => rfl
  | skip + 1, _ :: s => tokensFrom_drop skip s

theorem tokensFrom_front (hne : lexeme ≠ []) (hs : s = lexeme ++ tail)
    (h : lx.front? s = some (kind, lexeme)) :
    lx.tokensFrom 0 s = ⟨kind, String.ofList lexeme⟩ :: lx.tokensFrom 0 tail := by
  obtain ⟨c, lexeme, rfl⟩ := exists_cons_of_ne_nil hne
  rw [cons_append] at hs
  subst hs
  simp only [tokensFrom, h]
  rw [tokensFrom_drop, length_cons, Nat.add_sub_cancel, drop_left]

theorem exists_rule_of_front (h : lx.front? s = some (kind, lexeme)) :
    ∃ r ∈ lx, r.kind = kind ∧ ∃ rest, r.reads s = some (lexeme, rest) := by
  induction lx with
  | nil => cases h
  | cons r rs ih =>
    unfold front? at h
    split at h
    · rename_i rest hr
      cases h
      exact ⟨r, mem_cons_self .., rfl, rest, hr⟩
    · obtain ⟨r', hr', h⟩ := ih h
      exact ⟨r', mem_cons_of_mem _ hr', h⟩

theorem rule_unique (hkinds : (lx.map (·.kind)).Nodup) {r r' : Rule} (hr : r ∈ lx) (hr' : r' ∈ lx)
    (h : r.kind = r'.kind) : r = r' := inj_on_of_nodup_map hkinds hr hr' h

theorem reads_none_of_front {bs : Lexicon} {s : List Char} : ∀ {as : Lexicon},
    front? (as ++ r :: bs) s = some (kind, lexeme) → (∀ x ∈ as ++ [r], x.kind ≠ kind) → r.reads s = none
  | [], h, hk => by
    simp only [nil_append, front?] at h
    split at h
    · cases h
      exact absurd rfl (hk r (by simp))
    · assumption
  | x :: as, h, hk => by
    simp only [cons_append, front?] at h
    split at h
    · cases h
      exact absurd rfl (hk x (by simp))
    · exact reads_none_of_front h fun y hy => hk y (by simp only [cons_append, mem_cons, hy, or_true])

end Lexicon

/-! ## Operators of one character -/

/-- A matcher that does not look behind a character, at places that begin with a character of a class. -/
structure StopsFrom (p : Char → Prop) (c : Char) (m : Matcher) : Prop where
  short : ∀ x a lexeme rest, p x → m (x :: a) = some (lexeme, rest) → lexeme.length ≤ a.length + 1
  stops : ∀ x a b, p x → m (x :: (a ++ c :: b)) = (m (x :: a)).map fun r => (r.1, r.2 ++ c :: b)

theorem StopsAt.stopsFrom (h : StopsAt c m) (p : Char → Prop) : StopsFrom p c m where
  short x a lexeme rest _ hm := by
    have hlen := congrArg length (h.reads _ _ _ hm)
    rw [length_cons, length_append] at hlen
    omega
  stops x a b _ := h.stops (x :: a) b

theorem stopsFrom_of_none (h : ∀ x a, p x → m (x :: a) = none) : StopsFrom p c m where
  short x a lexeme rest hx hm := by
    rw [h x a hx] at hm
    cases hm
  stops x a b hx := by rw [h x _ hx, h x _ hx]; rfl

theorem stopsFrom_firstOf (h : ∀ m ∈ ms, StopsFrom p c m) : StopsFrom p c (firstOf ms) := by
  induction ms with
  | nil => exact stopsFrom_of_none fun x a _ => rfl
  | cons m ms ih =>
    obtain ⟨hm, hms⟩ := forall_mem_cons.1 h
    have ih := ih hms
    refine ⟨fun x a l r hx h => ?_, fun x a b hx => ?_⟩
    · unfold firstOf at h
      split at h
      · rename_i hr
        cases h
        exact hm.short x a l r hx hr
      · exact ih.short x a l r hx h
    · simp only [firstOf]
      rw [hm.stops x a b hx, ih.stops x a b hx]
      cases m (x :: a) <;> rfl

namespace Lexicon

theorem front?_stopsFrom (h : ∀ r ∈ lx, StopsFrom p c r.reads) {x : Char} (hx : p x)
    (a b : List Char) : lx.front? (x :: (a ++ c :: b)) = lx.front? (x :: a) := by
  induction lx with
  | nil => rfl
  | cons r rs ih =>
    obtain ⟨hr, hrs⟩ := forall_mem_cons.1 h
    simp only [front?]
    rw [hr.stops x a b hx, ih hrs]
    cases r.reads (x :: a) <;> rfl

theorem length_stopsFrom (h : ∀ r ∈ lx, StopsFrom p c r.reads) {x : Char} (hx : p x) {a : List Char}
    (hf : lx.front? (x :: a) = some (kind, lexeme)) : lexeme.length ≤ a.length + 1 := by
  obtain ⟨r, hr, -, rest, hread⟩ := exists_rule_of_front hf
  exact (h r hr).short x a lexeme rest hx hread

/-- The tokens before a character that only begins tokens are those of the text up to it. -/
theorem tokensFrom_before (h : ∀ r ∈ lx, StopsFrom p c r.reads) (b : List Char) :
    ∀ (a : List Char) (skip : Nat), skip ≤ a.length → (∀ x ∈ a, p x) →
      lx.tokensFrom skip (a ++ c :: b) = lx.tokensFrom skip a ++ lx.tokensFrom 0 (c :: b)
  | [], skip, hs, _ => by
    obtain rfl : skip = 0 := by simpa using hs
    rfl
  | x :: a, skip + 1, hs, hp => by
    exact tokensFrom_before h b a skip (by simpa using hs) fun y hy => hp y (mem_cons_of_mem x hy)
  | x :: a, 0, _, hp => by
    obtain ⟨hx, ha⟩ := forall_mem_cons.1 hp
    have hfront := front?_stopsFrom h hx a b
    simp only [cons_append, tokensFrom, hfront]
    cases hf : lx.front? (x :: a) with
    | none => exact tokensFrom_before h b a 0 (Nat.zero_le _) ha
    | some r =>
      have hl := length_stopsFrom h hx hf
      simp only [cons_append, cons.injEq, true_and]
      exact tokensFrom_before h b a _ (by omega) ha

/-- The tokens of a text are those before and those behind a separating character. -/
theorem tokensFrom_append (h : lx.Separates c) (b a : List Char) (skip : Nat) (hs : skip ≤ a.length) :
    lx.tokensFrom skip (a ++ c :: b) = lx.tokensFrom skip a ++ lx.tokensFrom 0 b := by
  have hc : lx.front? (c :: b) = none := (front?_append h.rules [] b).trans h.empty
  have hrules : ∀ r ∈ lx, StopsFrom (fun _ => True) c r.reads := fun r hr => (h.rules r hr).stopsFrom _
  rw [tokensFrom_before hrules b a skip hs fun _ _ => trivial]
  simp only [tokensFrom, hc]

end Lexicon

theorem oneOf_eq_some (h : oneOf ws s = some (lexeme, tail)) : ∃ w ∈ ws, lexeme = w.toList ∧ s = w.toList ++ tail := by
  unfold oneOf at h
  induction ws with
  | nil => cases h
  | cons w ws ih =>
    simp only [map_cons, firstOf] at h
    split at h
    · rename_i hw
      cases h
      exact ⟨w, mem_cons_self, literal_eq_some hw⟩
    · obtain ⟨v, hv, hread⟩ := ih h
      exact ⟨v, mem_cons_of_mem w hv, hread⟩

theorem Lexicon.exists_rule (hkinds : (lx.map (·.kind)).Nodup) {s : String} (ht : t ∈ lx.tokens s)
    (hr : r ∈ lx) (hk : t.kind = r.kind) :
    ∃ s lexeme rest, r.reads s = some (lexeme, rest) ∧ t.text = String.ofList lexeme := by
  obtain ⟨c, tail, lexeme, -, hfront, htext⟩ := exists_front_of_mem _ _ ht
  obtain ⟨r', hr', hkind, rest, hread⟩ := exists_rule_of_front hfront
  rw [rule_unique hkinds hr' hr (hkind.trans hk)] at hread
  exact ⟨_, lexeme, rest, hread, htext⟩

theorem Lexicon.text_mem (hkinds : (lx.map (·.kind)).Nodup) {s : String} (ht : t ∈ lx.tokens s)
    (hr : r ∈ lx) (hk : t.kind = r.kind) (hws : r.reads = oneOf ws) : t.text ∈ ws := by
  obtain ⟨_, lexeme, rest, hread, htext⟩ := exists_rule hkinds ht hr hk
  rw [hws] at hread
  obtain ⟨w, hw, rfl, -⟩ := oneOf_eq_some hread
  rwa [htext, String.ofList_toList]

theorem Lexicon.text_ne (as bs : Lexicon) (r : Rule) (hreads : ∀ x ∈ as ++ r :: bs, StopsAt c x.reads)
    (hw : ∀ rest, r.reads (w.toList ++ rest) ≠ none) {s : String} (ht : t ∈ tokens (as ++ r :: bs) s)
    (hk : ∀ x ∈ as ++ [r], x.kind ≠ t.kind) : t.text ≠ w := by
  obtain ⟨d, tail, lexeme, -, hfront, htext⟩ := exists_front_of_mem _ _ ht
  obtain ⟨x, hx, -, rest, hread⟩ := exists_rule_of_front hfront
  rintro rfl
  refine hw rest ?_
  rw [htext, String.toList_ofList, ← (hreads x hx).reads _ _ _ hread]
  exact reads_none_of_front hfront hk

theorem literal_head {d : Char} {ds : List Char} (hw : w.toList = d :: ds) {r : List Char × List Char}
    (h : literal w (c :: s) = some r) : c = d := by
  have hs := (literal_eq_some h).2
  rw [hw] at hs
  exact (cons.inj hs).1

end Arena.Formula
