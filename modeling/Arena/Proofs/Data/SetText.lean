/-
The text of a set of names denotes the set: `Names.read` gives back the names that `Names.print` writes, whatever their
characters. A quoted name is read up to its closing quote, names are separated by a comma and a blank, and stripping the
braces takes only the outer ones, because what stands between them begins and ends with a quote.
-/
import Arena.Proofs.Data.Names
import Arena.Proofs.Text.Numerals

namespace Arena

open Arena.Text Datum List

variable {ns : List String} {n : String} {a : Names} {q : Char}

/-! ## Hexadecimal escapes -/

namespace Expression

variable {α : Type} {c : Char}

theorem hexDigit?_digitChar : ∀ d < 16, hexDigit? (Nat.digitChar d) = some d := by decide

theorem length_hexDigits (w n : Nat) : (hexDigits w n).length = w := by
  induction w generalizing n with
  | zero => rfl
  | succ w ih => simp [hexDigits, ih]

theorem hexValue?_append (cs : List Char) (c : Char) :
    hexValue? (cs ++ [c]) = (hexValue? cs).bind fun n => (hexDigit? c).map fun d => n * 16 + d := by
  unfold hexValue?
  rw [foldlM_append]
  cases foldlM (fun n c => do return n * 16 + (← hexDigit? c)) 0 cs with
  | none => rfl
  | some n => cases h : hexDigit? c <;> simp [h]

theorem hexValue?_hexDigits (w n : Nat) (h : n < 16 ^ w) : hexValue? (hexDigits w n) = some n := by
  induction w generalizing n with
  | zero => simp at h; subst h; rfl
  | succ w ih =>
    have hd : n / 16 < 16 ^ w := by rw [Nat.div_lt_iff_lt_mul (by decide)]; rwa [Nat.pow_succ] at h
    rw [hexDigits, hexValue?_append, ih _ hd, hexDigit?_digitChar _ (Nat.mod_lt _ (by decide))]
    simp only [Option.bind_some, Option.map_some, Option.some.injEq]
    omega

theorem readEscape?_hex {mark : Char} {w : Nat} (hm : (mark, w) ∈ [('x', 2), ('u', 4), ('U', 8)])
    (hc : c.toNat < 16 ^ w) (rest : List Char) :
    readEscape? (mark :: (hexDigits w c.toNat ++ rest)) = some ([c], rest) := by
  have hl := length_hexDigits w c.toNat
  have hv := hexValue?_hexDigits w c.toNat hc
  simp only [mem_cons, not_mem_nil, or_false] at hm
  rcases hm with ⟨rfl, rfl⟩ | ⟨rfl, rfl⟩ | ⟨rfl, rfl⟩ <;>
    simp [readEscape?, hv, hl]

/-! ## Quoted names -/

def IsQuote (q : Char) : Prop := q = '\'' ∨ q = '"'

instance (q : Char) : Decidable (IsQuote q) := inferInstanceAs (Decidable (_ ∨ _))

theorem isQuote_quoteFor (s : List Char) : IsQuote (quoteFor s) := by
  unfold quoteFor IsQuote; split <;> simp

theorem readQuoted?_escapeChar (hq : IsQuote q) (c : Char) (fuel : Nat)
    (before rest : List Char) :
    readQuoted? q (fuel + 1) before (escapeChar q c ++ rest) = readQuoted? q fuel (c :: before) rest := by
  have hback : ∀ tail, readQuoted? q (fuel + 1) before ('\\' :: tail) =
      (readEscape? tail).bind fun r => readQuoted? q fuel (r.1.reverse ++ before) r.2 := by
    intro tail
    have : ('\\' : Char) ≠ q := by rcases hq with rfl | rfl <;> decide
    rw [readQuoted?, if_neg this]; rfl
  -- the cases are those of the writer: quotes and backslashes, blanks with a letter of their own,
  -- printable characters, and hexadecimal digits in three widths
  unfold escapeChar
  split
  · rename_i h
    have hc : c = '\'' ∨ c = '"' ∨ c = '\\' := by
      simp only [Bool.or_eq_true, decide_eq_true_eq] at h
      rcases h with rfl | rfl
      · rcases hq with h | h
        · exact .inl h
        · exact .inr (.inl h)
      · exact .inr (.inr rfl)
    simp only [cons_append]
    rw [hback]
    rcases hc with rfl | rfl | rfl <;> rfl
  · rename_i h
    simp only [Bool.or_eq_true, decide_eq_true_eq, not_or] at h
    iterate 3
      split
      · rename_i h1; subst h1; simp only [cons_append]; rw [hback]; rfl
    rename_i hn _
    split
    · simp only [cons_append, nil_append]
      rw [readQuoted?, if_neg h.1, if_neg hn, if_neg h.2]
    iterate 2
      split
      · rename_i h1
        simp only [cons_append]
        rw [hback, readEscape?_hex (by simp) (by simpa using h1)]; rfl
    · simp only [cons_append]
      have hlt : c.toNat < 16 ^ 8 := c.val.toNat_lt
      rw [hback, readEscape?_hex (by simp) hlt]; rfl

theorem readQuoted?_escaped (hq : IsQuote q) (rest : List Char) :
    ∀ (s before : List Char) (fuel : Nat), s.length < fuel →
      readQuoted? q fuel before (s.flatMap (escapeChar q) ++ q :: rest) = some (before.reverse ++ s, rest)
  | [], before, 0, h => by simp at h
  | [], before, fuel + 1, _ => by simp [readQuoted?]
  | _ :: _, before, 0, h => by simp at h
  | c :: s, before, fuel + 1, h => by
    rw [flatMap_cons, append_assoc, readQuoted?_escapeChar hq,
      readQuoted?_escaped hq rest s (c :: before) fuel (by simpa using h)]
    simp

theorem escapeChar_ne_nil (q c : Char) : escapeChar q c ≠ [] := by
  unfold escapeChar; split_ifs <;> simp

theorem length_le_flatMap {β : Type} {f : α → List β} (hf : ∀ x, f x ≠ []) (xs : List α) :
    xs.length ≤ (xs.flatMap f).length := by
  induction xs with
  | nil => simp
  | cons x xs ih =>
    have := length_pos_iff.2 (hf x)
    rw [flatMap_cons, length_append, length_cons]; omega

/-! ## Lexemes of a set -/

theorem lexemes_mark (hc : c ∈ ['\x7b', '\x7d', ',', '[', ']', '(', ')']) (fuel : Nat) (rest : List Char) :
    lexemes (fuel + 1) (c :: rest) = (lexemes fuel rest).map (.mark c :: ·) := by
  have hl : isLetter c = false := by revert c; decide
  simp only [mem_cons, not_mem_nil, or_false] at hc
  rcases hc with rfl | rfl | rfl | rfl | rfl | rfl | rfl <;> (cases h : lexemes fuel rest <;> simp [lexemes, h, hl])

theorem lexemes_blank (fuel : Nat) (rest : List Char) : lexemes (fuel + 1) (' ' :: rest) = lexemes fuel rest := by
  simp [lexemes]

theorem lexemes_quoted (s : List Char) (fuel : Nat) (rest : List Char) :
    lexemes (fuel + 1) (quoteList s ++ rest) = (lexemes fuel rest).map (.text (String.ofList s) :: ·) := by
  have hq := isQuote_quoteFor s
  have hread : readQuoted? (quoteFor s) ((s.flatMap (escapeChar (quoteFor s)) ++ quoteFor s :: rest).length + 1) []
      (s.flatMap (escapeChar (quoteFor s)) ++ quoteFor s :: rest) = some (s, rest) := by
    rw [readQuoted?_escaped hq]
    · rfl
    · have := length_le_flatMap (escapeChar_ne_nil (quoteFor s)) s
      rw [length_append]; omega
  unfold quoteList
  simp only [cons_append, append_assoc, nil_append]
  generalize hqs : quoteFor s = q at *
  rcases hq with rfl | rfl <;>
  · simp only [lexemes]
    rw [hread]
    simp only [Option.bind_eq_bind, Option.bind_some]
    cases lexemes fuel rest <;> rfl

/-! ## Items between brackets -/

section Items

variable {chars : α → List Char} {lexs : α → List Lexeme} {datum : α → Datum} {P : α → Prop} {close : Char}
  {cost depth fuel : Nat} {x : α} {xs : List α}

/-- What stands behind the first item, up to the closing bracket. -/
def series (chars : α → List Char) (xs : List α) : List Char := xs.flatMap fun x => ',' :: ' ' :: chars x

def seriesLexemes (lexs : α → List Lexeme) (xs : List α) : List Lexeme := xs.flatMap fun x => .mark ',' :: lexs x

/-- The items that satisfy `P` are read back from their text, `cost` steps through the characters and
`depth` steps through the lexemes of each. -/
structure Legible (chars : α → List Char) (lexs : α → List Lexeme) (datum : α → Datum) (P : α → Prop)
    (close : Char) (cost depth : Nat) : Prop where
  closes : close = '\x7d' ∨ close = ']'
  cost_le : ∀ x, cost ≤ (chars x).length
  depth_le : ∀ x, depth ≤ (lexs x).length
  begins : ∀ x, ∃ l ls, lexs x = l :: ls ∧ l ≠ .mark close
  lexemes_eq : ∀ x, P x → ∀ fuel rest, lexemes (fuel + cost) (chars x ++ rest) = (lexemes fuel rest).map (lexs x ++ ·)
  value?_eq : ∀ x fuel rest, joinTexts rest = ("", rest) →
    value? (fuel + depth) (lexs x ++ rest) = some (.ok (datum x), rest)

theorem joinTexts_seriesLexemes (xs : List α) :
    joinTexts (seriesLexemes lexs xs ++ [.mark close]) = ("", seriesLexemes lexs xs ++ [.mark close]) := by
  cases xs <;> rfl

variable (hl : Legible chars lexs datum P close cost depth)

include hl

theorem lexemes_series :
    ∀ (xs : List α) (fuel : Nat), (∀ x ∈ xs, P x) → (series chars xs).length + 2 ≤ fuel →
      lexemes fuel (series chars xs ++ [close]) = some (seriesLexemes lexs xs ++ [.mark close]) := by
  intro xs
  induction xs with
  | nil =>
    intro fuel _ h
    obtain ⟨k, rfl⟩ : ∃ k, fuel = k + 2 := ⟨fuel - 2, by omega⟩
    simp only [series, flatMap_nil, nil_append]
    rcases hl.closes with rfl | rfl <;> (rw [lexemes_mark (by simp)]; rfl)
  | cons x xs ih =>
    -- the comma and the blank take one unit of fuel each
    intro fuel hP h
    have hcost := hl.cost_le x
    simp only [series, flatMap_cons, length_append, length_cons] at ih h
    obtain ⟨k, rfl⟩ : ∃ k, fuel = k + cost + 2 := ⟨fuel - (cost + 2), by omega⟩
    have hrest := ih k (fun y hy => hP y (mem_cons_of_mem _ hy)) (by omega)
    simp only [series, seriesLexemes, flatMap_cons, cons_append, append_assoc] at hrest ⊢
    rw [lexemes_mark (by simp), lexemes_blank, hl.lexemes_eq x (hP x mem_cons_self), hrest]
    simp

theorem itemsFrom?_series :
    ∀ (xs : List α) (x : α) (fuel : Nat), xs.length + depth + 1 ≤ fuel →
      ∃ comma, itemsFrom? fuel close (lexs x ++ (seriesLexemes lexs xs ++ [.mark close])) =
        some ((x :: xs).map fun y => .ok (datum y), comma, []) := by
  intro xs
  induction xs with
  | nil =>
    intro x fuel h
    obtain ⟨k, rfl⟩ : ∃ k, fuel = k + depth + 1 := ⟨fuel - (depth + 1), by simp at h; omega⟩
    refine ⟨false, ?_⟩
    rw [itemsFrom?, hl.value?_eq x _ _ (joinTexts_seriesLexemes [])]
    rcases hl.closes with rfl | rfl <;> rfl
  | cons y ys ih =>
    intro x fuel h
    obtain ⟨k, rfl⟩ : ∃ k, fuel = k + depth + 1 := ⟨fuel - (depth + 1), by simp at h; omega⟩
    obtain ⟨comma, hi⟩ := ih y (k + depth) (by simp at h ⊢; omega)
    obtain ⟨l, ls, hy, hne⟩ := hl.begins y
    rw [itemsFrom?, hl.value?_eq x _ _ (joinTexts_seriesLexemes (y :: ys))]
    simp only [seriesLexemes, flatMap_cons, hy, cons_append] at hi ⊢
    cases l with
    | mark c =>
      have : c ≠ close := by rintro rfl; exact hne rfl
      simp [this, hi]
    | _ => simp [hi]

theorem items?_series (hfuel : xs.length + depth + 2 ≤ fuel) :
    ∃ comma, items? fuel close (lexs x ++ (seriesLexemes lexs xs ++ [.mark close])) =
      some ((x :: xs).map fun y => .ok (datum y), comma, []) := by
  obtain ⟨k, rfl⟩ : ∃ k, fuel = k + 1 := ⟨fuel - 1, by omega⟩
  obtain ⟨comma, hi⟩ := itemsFrom?_series hl xs x k (by omega)
  obtain ⟨l, ls, hx, hne⟩ := hl.begins x
  refine ⟨comma, hi ▸ ?_⟩
  rw [hx]
  cases l with
  | mark c =>
    have : c ≠ close := by rintro rfl; exact hne rfl
    simp [items?, this]
  | _ => rfl

/-- Items between brackets are read as what the value reader makes of their lexemes. -/
theorem read_series (hP : ∀ y ∈ x :: xs, P y) {o : Char} (ho : o ∈ ['\x7b', '\x7d', ',', '[', ']', '(', ')']) {v : Outcome Datum}
    (hvalue : ∀ fuel, xs.length + depth + 3 ≤ fuel →
      value? fuel (.mark o :: (lexs x ++ (seriesLexemes lexs xs ++ [.mark close]))) = some (v, [])) :
    read (String.ofList (o :: (chars x ++ (series chars xs ++ [close])))) = v := by
  have hcost := hl.cost_le x
  have hdepth := hl.depth_le x
  have hlex : lexemes ((o :: (chars x ++ (series chars xs ++ [close]))).length + 1)
      (o :: (chars x ++ (series chars xs ++ [close]))) =
        some (.mark o :: (lexs x ++ (seriesLexemes lexs xs ++ [.mark close]))) := by
    obtain ⟨k, hk⟩ : ∃ k, (chars x).length = k + cost := ⟨_, (Nat.sub_add_cancel hcost).symm⟩
    have hfuel : (o :: (chars x ++ (series chars xs ++ [close]))).length =
        (k + (series chars xs).length + 2) + cost := by
      simp only [length_cons, length_append, length_nil]
      omega
    rw [lexemes_mark ho, hfuel, hl.lexemes_eq x (hP x mem_cons_self),
      lexemes_series hl xs _ (fun y hy => hP y (mem_cons_of_mem _ hy)) (by omega)]
    rfl
  have hlen : xs.length ≤ (seriesLexemes lexs xs).length := length_le_flatMap (fun _ => cons_ne_nil _ _) xs
  unfold read
  simp only [String.toList_ofList, hlex]
  rw [hvalue]
  simp only [length_cons, length_append]
  omega

end Items

/-! ## The value of a set -/

/-- What stands behind the first name of a set, up to the closing brace. -/
def others (ns : List String) : List Char := ns.flatMap fun n => ',' :: ' ' :: quoteList n.toList

theorem legible_text : Legible (fun n : String => quoteList n.toList) (fun n => [.text n]) text (fun _ => True) '\x7d' 1 1 where
  closes := .inl rfl
  cost_le n := by simp [quoteList]
  depth_le _ := Nat.le_refl 1
  begins n := ⟨_, _, rfl, nofun⟩
  lexemes_eq n _ fuel rest := by rw [lexemes_quoted, String.ofList_toList]; rfl
  value?_eq n fuel rest h := by simp [value?, h]

theorem valuesOf_map (f : α → Datum) (xs : List α) : valuesOf (xs.map fun x => .ok (f x)) = .ok (xs.map f) := by
  unfold valuesOf
  induction xs with
  | nil => rfl
  | cons x xs ih => rw [map_cons, mapM_cons, ih]; rfl

theorem fixedAll_texts (ns : List String) : fixedAll (ns.map text) = true := by
  induction ns with
  | nil => rfl
  | cons n ns ih => simp [fixedAll, fixed, ih]

theorem makeSet_texts (h : ns.Nodup) : makeSet (ns.map text) = .ok (.set (ns.map text)) := by
  have hfold : ns.foldl (fun s x => if s.any (same (text x)) then s else s ++ [text x]) (map text []) =
      (distinct ns).map text := by
    refine foldl_hom (map text) fun s x => ?_
    have hany : (s.map text).any (same (text x)) = s.contains x := by
      rw [any_map, contains_eq_any_beq]
      rfl
    rw [hany]
    split <;> simp
  unfold makeSet
  rw [fixedAll_texts, foldl_map]
  exact congrArg (Except.ok ∘ Datum.set) (hfold.trans (congrArg _ (distinct_of_nodup h)))

end Expression

/-! ## Sets of names -/

namespace Names

open Expression

theorem intercalate_cons (sep x : List Char) (xs : List (List Char)) :
    intercalate sep (x :: xs) = x ++ xs.flatMap (sep ++ ·) := by
  induction xs generalizing x with
  | nil => simp [intercalate]
  | cons y ys ih => rw [intercalate_cons_cons, ih]; simp

theorem join_quote (n : String) (ns : List String) :
    join ", " ((n :: ns).map quote) = String.ofList (quoteList n.toList ++ others ns) := by
  apply String.toList_injective
  unfold join
  rw [String.toList_intercalate, map_map, map_cons, intercalate_cons, flatMap_map]
  simp [quote, others]

theorem isQuote_not_brace (h : IsQuote q) : (q == '\x7b' || q == '\x7d') = false := by
  rcases h with rfl | rfl <;> decide

theorem exists_last_quote (n : String) (ns : List String) :
    ∃ s q, IsQuote q ∧ quoteList n.toList ++ others ns = s ++ [q] := by
  have hone : ∀ m : String, ∃ s q, IsQuote q ∧ quoteList m.toList = s ++ [q] := fun m =>
    ⟨_, _, isQuote_quoteFor m.toList, rfl⟩
  rcases eq_nil_or_concat ns with rfl | ⟨ns, m, rfl⟩
  · obtain ⟨s, q, hq, h⟩ := hone n
    exact ⟨s, q, hq, by simp [others, h]⟩
  · obtain ⟨s, q, hq, h⟩ := hone m
    refine ⟨quoteList n.toList ++ others ns ++ ',' :: ' ' :: s, q, hq, ?_⟩
    simp [others, h]

def braced (cs : List Char) : String := "\x7b" ++ String.ofList cs ++ "\x7d"

theorem braced_eq (cs : List Char) : braced cs = String.ofList (['\x7b'] ++ (cs ++ ['\x7d'])) :=
  String.toList_injective (by simp [braced])

theorem stripOf_braced (n : String) (ns : List String) :
    stripOf (fun c => c == '\x7b' || c == '\x7d') (braced (quoteList n.toList ++ others ns)) =
      String.ofList (quoteList n.toList ++ others ns) := by
  rw [braced_eq, stripOf_append (by decide) (by decide) (fun c hc => ?_) fun c hc => ?_]
  · exact Option.some.inj hc ▸ isQuote_not_brace (isQuote_quoteFor n.toList)
  · obtain ⟨s, q, hq, hs⟩ := exists_last_quote n ns
    rw [hs, getLast?_concat] at hc
    exact Option.some.inj hc ▸ isQuote_not_brace hq

theorem printAll_texts (ns : List String) : printAll (ns.map text) = ns.map quote := by
  induction ns with
  | nil => rfl
  | cons n ns ih => rw [map_cons, printAll, ih]; rfl

/-- The text of a set whose names are written in the given order. -/
def printInOrder (ns : List String) : String := (Datum.set (ns.map text)).print

theorem printInOrder_cons (n : String) (ns : List String) :
    printInOrder (n :: ns) = braced (quoteList n.toList ++ others ns) := by
  rw [braced, ← join_quote, ← printAll_texts]
  rfl

theorem print_eq (a : Names) : a.print = printInOrder (sorted a) := by
  unfold print
  rcases hs : sorted a with _ | ⟨n, ns⟩
  · obtain rfl : a = [] := (hs ▸ sorted_perm a).symm.eq_nil
    rfl
  · have hne : a.isEmpty = false := by rw [← (sorted_perm a).isEmpty_eq, hs]; rfl
    rw [hne, ← printAll_texts]; rfl

theorem print_cons (h : sorted a = n :: ns) : a.print = braced (quoteList n.toList ++ others ns) := by
  rw [print_eq, h, printInOrder_cons]

theorem read_braced (h : (n :: ns).Nodup) :
    Expression.read (braced (quoteList n.toList ++ others ns)) = .ok (.set ((n :: ns).map text)) := by
  rw [braced_eq, append_assoc]
  refine read_series legible_text (fun _ _ => trivial) (by simp) fun fuel hfuel => ?_
  obtain ⟨k, rfl⟩ : ∃ k, fuel = k + 1 := ⟨fuel - 1, by omega⟩
  obtain ⟨comma, hi⟩ := items?_series (x := n) legible_text (show ns.length + 1 + 2 ≤ k by omega)
  have hset : (Except.ok ((n :: ns).map text) : Outcome (List Datum)).bind makeSet = .ok (.set ((n :: ns).map text)) :=
    makeSet_texts h
  rw [value?]
  · simp only [hi, valuesOf_map, hset]
  · intro rest h; cases h

/-- Names that are written in any order denote their set, also with the braces taken off and put on again. -/
theorem readDatum_printInOrder (h : ns.Nodup) : readDatum (printInOrder ns) = .ok (.set (ns.map text)) ∧
    (if printInOrder ns = "set()" then .ok (.set []) else Expression.read (printInOrder ns)) =
      .ok (.set (ns.map text)) := by
  rcases ns with _ | ⟨n, ns⟩
  · exact ⟨rfl, rfl⟩
  · have hne : braced (quoteList n.toList ++ others ns) ≠ "set()" := by
      rw [braced_eq]
      intro he
      have := congrArg String.toList he
      simp at this
    unfold readDatum
    rw [printInOrder_cons, if_neg hne, if_neg hne, stripOf_braced]
    exact ⟨read_braced h, read_braced h⟩

theorem readDatum_print (h : a.Nodup) : readDatum a.print = .ok (.set ((sorted a).map text)) ∧
    (if a.print = "set()" then .ok (.set []) else Expression.read a.print) = .ok (.set ((sorted a).map text)) :=
  print_eq a ▸ readDatum_printInOrder (nodup_sorted h)

theorem read_of_readDatum {s : String} (h : readDatum s = .ok (.set (ns.map text))) : read s = .ok ns := by
  unfold read
  rw [h]
  exact mapM_map_eq fun _ _ => rfl

theorem read_print (h : a.Nodup) : read a.print = .ok (sorted a) := read_of_readDatum (readDatum_print h).1

/-! ## Sets in pieces -/

theorem readPieces_eq (s : String) : readPieces s = readDatum s := by
  unfold readPieces readDatum
  rw [join_split (by decide)]

/-- A set survives its text, whatever its names are and in whatever order they are written. -/
theorem readPieces_print (h : ns.Nodup) : readPieces (printInOrder ns) = .ok (.set (ns.map text)) ∧
    read (printInOrder ns) = .ok ns := by
  have hread := (readDatum_printInOrder h).1
  exact ⟨(readPieces_eq _).trans hread, read_of_readDatum hread⟩

theorem readPieces_print_marks : ["it's", "'\"", "a\\", "\x7b,\x7d"].Nodup ∧
    printInOrder ["it's", "'\"", "a\\", "\x7b,\x7d"] = "\x7b\"it's\", '\\'\"', 'a\\\\', '\x7b,\x7d'\x7d" ∧
    read "\x7b\"it's\", '\\'\"', 'a\\\\', '\x7b,\x7d'\x7d" = .ok ["it's", "'\"", "a\\", "\x7b,\x7d"] :=
  have h : ["it's", "'\"", "a\\", "\x7b,\x7d"].Nodup := by decide
  have ht : printInOrder ["it's", "'\"", "a\\", "\x7b,\x7d"] =
    "\x7b\"it's\", '\\'\"', 'a\\\\', '\x7b,\x7d'\x7d" := by decide
  ⟨h, ht, ht ▸ (readPieces_print h).2⟩

end Names

end Arena
