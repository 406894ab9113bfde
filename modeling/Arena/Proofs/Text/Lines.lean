/-
Lines and words that are written and read again: a text of lines without line ends is cut into these lines, a join of
words without blanks into these words, and a trimmed line stays as it is.
-/
import Arena.Proofs.Text.Numerals

namespace Arena.Text

open List

variable {p : Char → Bool} {c d : Char} {s : String} {ws : List String} {ls : List String} {l : String} {cs : List Char}

theorem map_eq_self {α : Type} {f : α → α} {xs : List α} (h : ∀ x ∈ xs, f x = x) : xs.map f = xs :=
  (map_congr_left h).trans (map_id xs)

theorem toList_repeated (h : s.toList = [c]) (n : Nat) : (repeated s n).toList = replicate n c := by
  rw [repeated, String.toList_join, flatMap_replicate, h, flatten_replicate_singleton]

/-! ## Lines -/

theorem unifyLineEndsList_eq_self (h : '\r' ∉ cs) : unifyLineEndsList cs = cs := by
  fun_induction unifyLineEndsList cs with
  | case1 => rfl
  | case2 rest ih => simp at h
  | case3 c rest _ ih =>
    obtain ⟨hc, hrest⟩ := not_or.1 (mt mem_cons.2 h)
    rw [if_neg (Ne.symm hc), ih hrest]

theorem not_mem_unifyLineEndsList (cs : List Char) : '\r' ∉ unifyLineEndsList cs := by
  fun_induction unifyLineEndsList cs with
  | case1 => simp
  | case2 rest ih => simpa using ih
  | case3 c rest h ih =>
    rw [mem_cons, not_or]
    refine ⟨?_, ih⟩
    split
    · decide
    · rename_i hc
      exact fun e => hc e.symm

theorem linesFrom_append (rest : List Char) : ∀ {line : List Char}, '\n' ∉ line → ∀ before : List Char,
    linesFrom before (line ++ rest) = linesFrom (line.reverse ++ before) rest
  | [], _, _ => rfl
  | c :: line, h, before => by
    obtain ⟨hc, hline⟩ := not_or.1 (mt mem_cons.2 h)
    rw [cons_append, linesFrom, if_neg (Ne.symm hc), linesFrom_append rest hline]
    simp

theorem flatten_linesFrom : ∀ (cs before : List Char), (linesFrom before cs).flatten = before.reverse ++ cs
  | [], before => by
    cases before <;> simp [linesFrom]
  | c :: cs, before => by
    unfold linesFrom
    split
    · simp [flatten_linesFrom cs []]
    · simp [flatten_linesFrom cs (c :: before)]

def IsLine (l : List Char) : Prop := ∃ body, '\n' ∉ body ∧ l = body ++ ['\n']

theorem linesFrom_flatten (rest : List Char) : ∀ {ls : List (List Char)}, (∀ l ∈ ls, IsLine l) →
    linesFrom [] (ls.flatten ++ rest) = ls ++ linesFrom [] rest
  | [], _ => rfl
  | l :: ls, h => by
    obtain ⟨⟨body, hbody, rfl⟩, hls⟩ := forall_mem_cons.1 h
    rw [flatten_cons, append_assoc, append_assoc, linesFrom_append _ hbody, singleton_append, linesFrom, linesFrom_flatten rest hls]
    simp

/-- Of the lines of a text, the last ones are those of what they make up, and the ones before them have line ends. -/
theorem linesFrom_eq_append {b : List (List Char)} (hb : b ≠ []) : ∀ {cs before : List Char} {a : List (List Char)},
    '\n' ∉ before → linesFrom before cs = a ++ b → linesFrom [] b.flatten = b ∧ ∀ l ∈ a, IsLine l
  | cs, before, [], hbefore, h => by
    rw [nil_append] at h
    have hline : '\n' ∉ before.reverse := by simpa using hbefore
    have hself := linesFrom_append cs hline []
    rw [reverse_reverse, append_nil, h] at hself
    refine ⟨?_, by simp⟩
    rw [← h, flatten_linesFrom, h, hself]
  | [], before, l :: a, _, h => by
    unfold linesFrom at h
    split at h
    · cases h
    · exact absurd (append_eq_nil_iff.1 (cons.inj h).2.symm).2 hb
  | c :: cs, before, l :: a, hbefore, h => by
    unfold linesFrom at h
    split at h
    · rename_i hc
      obtain ⟨rfl, htail⟩ := cons.inj h
      obtain ⟨hrest, ha⟩ := linesFrom_eq_append hb not_mem_nil htail
      exact ⟨hrest, forall_mem_cons.2 ⟨⟨before.reverse, by simpa using hbefore, by simp [hc]⟩, ha⟩⟩
    · rename_i hc
      exact linesFrom_eq_append hb (by simpa [hbefore] using Ne.symm hc) h

theorem lines_append {ls tail : List String} (htail : linesFrom [] (tail.map String.toList).flatten = tail.map String.toList)
    (hls : ∀ l ∈ ls, IsLine l.toList) (hcr : ∀ l ∈ ls ++ tail, '\r' ∉ l.toList) :
    lines (unifyLineEnds (String.join (ls ++ tail))) = ls ++ tail := by
  have hflat : '\r' ∉ ((ls ++ tail).map String.toList).flatten := by
    simpa [-map_append] using hcr
  unfold lines unifyLineEnds
  rw [String.toList_join, flatMap_def, unifyLineEndsList_eq_self hflat, String.toList_ofList, map_append, flatten_append,
    linesFrom_flatten _ (forall_mem_map.2 hls), htail, ← map_append, map_map]
  exact map_eq_self fun l _ => String.ofList_toList

theorem lines_join (h : ∀ l ∈ ls, '\n' ∉ l.toList ∧ '\r' ∉ l.toList) :
    lines (unifyLineEnds (String.join (ls.map (· ++ "\n")))) = ls.map (· ++ "\n") := by
  rw [← append_nil (ls.map _)]
  exact lines_append rfl (forall_mem_map.2 fun l hl => ⟨l.toList, (h l hl).1, by simp⟩)
    (by simpa using fun l hl => (h l hl).2)

theorem mem_linesFrom {l : List Char} : ∀ {cs before : List Char}, '\n' ∉ before → l ∈ linesFrom before cs →
    ∃ body, '\n' ∉ body ∧ (l = body ∨ l = body ++ ['\n'])
  | [], before, hb, hl => by
    unfold linesFrom at hl
    split at hl
    · cases hl
    · exact ⟨before.reverse, by simpa using hb, .inl (mem_singleton.1 hl)⟩
  | c :: cs, before, hb, hl => by
    unfold linesFrom at hl
    split at hl
    · rename_i hc
      rcases mem_cons.1 hl with rfl | hl
      · exact ⟨before.reverse, by simpa using hb, .inr (by simp [hc])⟩
      · exact mem_linesFrom not_mem_nil hl
    · rename_i hc
      exact mem_linesFrom (by simpa [hb] using Ne.symm hc) hl

/-! ## Trimmed lines -/

theorem head?_dropWhile (h : (cs.dropWhile p).head? = some c) : p c = false := by
  have := head?_dropWhile_not p cs
  rw [h] at this
  exact this

theorem toList_stripOf (p : Char → Bool) (s : String) :
    (stripOf p s).toList = ((s.toList.dropWhile p).reverse.dropWhile p).reverse := by
  unfold stripOf dropRight dropLeft
  rw [String.toList_ofList]

theorem getLast?_stripOf (h : (stripOf p s).toList.getLast? = some c) : p c = false := by
  rw [toList_stripOf, getLast?_reverse] at h
  exact head?_dropWhile h

theorem head?_stripOf (h : (stripOf p s).toList.head? = some c) : p c = false := by
  rw [toList_stripOf] at h
  obtain ⟨cut, hcut⟩ := dropWhile_suffix (l := (s.toList.dropWhile p).reverse) p
  -- what is left is a front of the text without the blanks before it
  have hfront : s.toList.dropWhile p = ((s.toList.dropWhile p).reverse.dropWhile p).reverse ++ cut.reverse := by
    rw [← reverse_append, hcut, reverse_reverse]
  have hhead : (s.toList.dropWhile p).head? = some c := by
    rw [hfront, head?_append, h]
    rfl
  exact head?_dropWhile hhead

theorem trim_trim (s : String) : trim (trim s) = trim s := trim_of_ends fun _ hc => hc.elim head?_stripOf getLast?_stripOf

theorem trim_append_blank {b : String} (hb : b.toList = [c]) (hc : isBlank c = true) (s : String) :
    trim (s ++ b) = trim s := by
  apply String.toList_injective
  unfold trim
  rw [toList_stripOf, toList_stripOf, String.toList_append, hb, dropWhile_append]
  by_cases hs : s.toList.dropWhile isBlank = []
  · simp [hs, hc]
  · rw [if_neg (by simpa using hs), reverse_append, reverse_singleton, singleton_append,
      dropWhile_cons_of_pos hc]

theorem trim_lineEnd (cs : List Char) : trim (String.ofList (cs ++ ['\n'])) = trim (String.ofList cs) := by
  rw [String.ofList_append]
  exact trim_append_blank (c := '\n') (by simp) (by decide) _

theorem trim_line (s : String) : trim (s ++ "\n") = trim s :=
  trim_append_blank (c := '\n') (by simp) (by decide) s

theorem mem_stripOf (h : c ∈ (stripOf p s).toList) : c ∈ s.toList := by
  rw [toList_stripOf, mem_reverse] at h
  have hin := mem_reverse.1 ((dropWhile_sublist p).subset h)
  exact (dropWhile_sublist p).subset hin

theorem dropRight_append {a : List Char} (ha : a.getLast? = some c) (hc : p c = false) (b : List Char) :
    dropRight p (a ++ b) = a ++ dropRight p b := by
  have hself : a.reverse.dropWhile p = a.reverse := by
    rw [← head?_reverse] at ha
    obtain ⟨cs, hcs⟩ := head?_eq_some_iff.1 ha
    rw [hcs, dropWhile_cons_of_neg (by simp [hc])]
  unfold dropRight
  rw [reverse_append, dropWhile_append]
  split
  · rename_i hb
    rw [hself, List.isEmpty_iff.1 hb]
    simp
  · rw [reverse_append, reverse_reverse]

theorem trimRight_append (hs : s.toList.getLast? = some c) (hc : isBlank c = false) (rest : String) :
    trimRight (s ++ rest) = s ++ trimRight rest := by
  apply String.toList_injective
  unfold trimRight
  rw [String.toList_ofList, String.toList_append, dropRight_append hs hc, String.toList_append, String.toList_ofList]

theorem trim_append (hfirst : s.toList.head? = some c) (hc : isBlank c = false) (hlast : s.toList.getLast? = some d)
    (hd : isBlank d = false) (rest : String) : trim (s ++ rest) = s ++ trimRight rest := by
  obtain ⟨cs, hcs⟩ := head?_eq_some_iff.1 hfirst
  have hleft : dropLeft isBlank (s ++ rest).toList = (s ++ rest).toList := by
    unfold dropLeft
    rw [String.toList_append, hcs, cons_append, dropWhile_cons_of_neg (by simp [hc])]
  rw [← trimRight_append hlast hd]
  unfold trim stripOf trimRight
  rw [hleft]

theorem isEmpty_trim_of_mem (hc : c ∈ s.toList) (hblank : isBlank c = false) : (trim s).isEmpty = false := by
  rw [← Bool.not_eq_true]
  intro hempty
  have htrim : (trim s).toList = [] := by simpa using hempty
  unfold trim at htrim
  rw [toList_stripOf, reverse_eq_nil_iff, dropWhile_eq_nil_iff] at htrim
  rw [← takeWhile_append_dropWhile (p := isBlank) (l := s.toList), mem_append] at hc
  rcases hc with hc | hc
  · exact absurd (mem_takeWhile_imp hc) (by simp [hblank])
  · exact absurd (htrim c (mem_reverse.2 hc)) (by simp [hblank])

def trimmedLines (s : String) : List String := (lines (unifyLineEnds s)).map trim

theorem not_mem_of_mem_lines (h : l ∈ lines (unifyLineEnds s)) : '\r' ∉ l.toList := by
  obtain ⟨cs, hcs, rfl⟩ := mem_map.1 h
  rw [String.toList_ofList]
  intro hm
  have hflat := mem_flatten_of_mem hcs hm
  rw [flatten_linesFrom, unifyLineEnds, String.toList_ofList] at hflat
  exact not_mem_unifyLineEndsList _ hflat

/-- A line without blanks around it. -/
abbrev IsTrimmed (l : String) : Prop := trim l = l ∧ '\n' ∉ l.toList ∧ '\r' ∉ l.toList

theorem trimmedLines_spec (h : l ∈ trimmedLines s) : IsTrimmed l := by
  obtain ⟨line, hline, rfl⟩ := mem_map.1 h
  refine ⟨trim_trim _, fun hm => ?_, fun hm => not_mem_of_mem_lines hline (mem_stripOf hm)⟩
  obtain ⟨cs, hcs, rfl⟩ := mem_map.1 hline
  obtain ⟨body, hbody, rfl | rfl⟩ := mem_linesFrom not_mem_nil hcs
  · exact hbody (by simpa using mem_stripOf hm)
  · rw [trim_lineEnd] at hm
    exact hbody (by simpa using mem_stripOf hm)

theorem trimmedLines_lines (h : ∀ l ∈ ls, '\n' ∉ l.toList ∧ '\r' ∉ l.toList) :
    trimmedLines (String.join (ls.map (· ++ "\n"))) = ls.map trim := by
  rw [trimmedLines, lines_join h, map_map]
  exact map_congr_left fun l _ => trim_line l

theorem trimmedLines_join (h : ∀ l ∈ ls, IsTrimmed l) : trimmedLines (String.join (ls.map (· ++ "\n"))) = ls := by
  rw [trimmedLines_lines fun l hl => (h l hl).2]
  exact map_eq_self fun l hl => (h l hl).1

/-! ## Words -/

/-- A text that has characters, none of them blank. -/
def IsWord (w : String) : Prop := w ≠ "" ∧ ∀ c ∈ w.toList, isBlank c = false

instance (w : String) : Decidable (IsWord w) := inferInstanceAs (Decidable (_ ∧ _))

theorem mem_wordsFrom {w : List Char} : ∀ (cs before : List Char), (∀ c ∈ before, isBlank c = false) →
    w ∈ wordsFrom before cs → w ≠ [] ∧ ∀ c ∈ w, isBlank c = false
  | [], before, hb, hw => by
    unfold wordsFrom at hw
    split at hw
    · cases hw
    · rename_i hne
      obtain rfl := mem_singleton.1 hw
      exact ⟨by simpa using hne, fun c hc => hb c (mem_reverse.1 hc)⟩
  | c :: cs, before, hb, hw => by
    unfold wordsFrom at hw
    split at hw
    · split at hw
      · exact mem_wordsFrom cs [] (by simp) hw
      · rename_i hne
        rcases mem_cons.1 hw with rfl | hw
        · exact ⟨by simpa using hne, fun c hc => hb c (mem_reverse.1 hc)⟩
        · exact mem_wordsFrom cs [] (by simp) hw
    · rename_i hc
      rw [Bool.not_eq_true] at hc
      exact mem_wordsFrom cs (c :: before) (forall_mem_cons.2 ⟨hc, hb⟩) hw

theorem isWord_of_mem_words {w : String} (h : w ∈ words s) : IsWord w := by
  obtain ⟨cs, hcs, rfl⟩ := mem_map.1 h
  obtain ⟨hne, hall⟩ := mem_wordsFrom _ [] (by simp) hcs
  refine ⟨fun e => hne ?_, by simpa using hall⟩
  have := congrArg String.toList e
  simpa using this

theorem wordsFrom_append (rest : List Char) : ∀ {w : List Char}, (∀ c ∈ w, isBlank c = false) → ∀ before : List Char,
    wordsFrom before (w ++ rest) = wordsFrom (w.reverse ++ before) rest
  | [], _, _ => rfl
  | c :: w, h, before => by
    obtain ⟨hc, hw⟩ := forall_mem_cons.1 h
    rw [cons_append, wordsFrom, if_neg (by simp [hc]), wordsFrom_append rest hw]
    simp

theorem wordsFrom_intercalate : ∀ (ws : List (List Char)), (∀ w ∈ ws, w ≠ [] ∧ ∀ c ∈ w, isBlank c = false) →
    wordsFrom [] ([' '].intercalate ws) = ws
  | [], _ => rfl
  | [w], h => by
    obtain ⟨hne, hw⟩ := h w mem_cons_self
    simpa [wordsFrom, hne] using wordsFrom_append [] hw []
  | w :: w' :: ws, h => by
    obtain ⟨⟨hne, hw⟩, hws⟩ := forall_mem_cons.1 h
    have hblank : isBlank ' ' = true := by decide
    rw [intercalate_cons_cons, append_assoc, singleton_append, wordsFrom_append _ hw, append_nil, wordsFrom, if_pos hblank,
      if_neg (by simpa using hne), reverse_reverse, wordsFrom_intercalate (w' :: ws) hws]

theorem words_join (h : ∀ w ∈ ws, IsWord w) : words (join " " ws) = ws := by
  have hall : ∀ w ∈ ws.map String.toList, w ≠ [] ∧ ∀ c ∈ w, isBlank c = false := by
    intro cs hcs
    obtain ⟨w, hw, rfl⟩ := mem_map.1 hcs
    refine ⟨fun e => (h w hw).1 (String.toList_injective (e.trans rfl)), (h w hw).2⟩
  unfold words join
  rw [String.toList_intercalate, show " ".toList = [' '] from rfl, wordsFrom_intercalate _ hall, map_map]
  conv_rhs => rw [← map_id ws]
  exact map_congr_left fun w _ => String.ofList_toList

theorem exists_ends (sep : List Char) : ∀ {ws : List (List Char)}, ws ≠ [] →
    ∃ w ∈ ws, ∃ w' ∈ ws, w <+: sep.intercalate ws ∧ w' <:+ sep.intercalate ws
  | [w], _ => ⟨w, mem_cons_self, w, mem_cons_self, by simp⟩
  | w :: v :: ws, _ => by
    obtain ⟨-, -, w', hw', -, hsuffix⟩ := exists_ends sep (cons_ne_nil v ws)
    rw [intercalate_cons_cons]
    exact ⟨w, mem_cons_self, w', mem_cons_of_mem w hw', (prefix_append ..).trans (prefix_append ..),
      hsuffix.trans (suffix_append ..)⟩

theorem trim_join (h : ∀ w ∈ ws, IsWord w) : trim (join " " ws) = join " " ws := by
  rcases eq_or_ne ws [] with rfl | hne
  · decide
  obtain ⟨cs, hcs, ds, hds, ⟨rest, hfirst⟩, front, hlast⟩ := exists_ends [' '] (by simpa using hne : ws.map String.toList ≠ [])
  obtain ⟨w, hw, rfl⟩ := mem_map.1 hcs
  obtain ⟨w', hw', rfl⟩ := mem_map.1 hds
  have hlist : (join " " ws).toList = [' '].intercalate (ws.map String.toList) := String.toList_intercalate
  refine trim_of_ends fun c hc => ?_
  rw [hlist] at hc
  rcases hc with hc | hc
  · rw [← hfirst, head?_append_of_ne_nil _ (by simpa using (h w hw).1)] at hc
    exact (h w hw).2 c (mem_of_head? hc)
  · rw [← hlast, getLast?_append_of_ne_nil _ (by simpa using (h w' hw').1)] at hc
    exact (h w' hw').2 c (mem_of_getLast? hc)

theorem mem_intercalate (sep : List Char) : ∀ (ws : List (List Char)), c ∈ sep.intercalate ws →
    c ∈ sep ∨ ∃ w ∈ ws, c ∈ w
  | [], h => by cases h
  | [w], h => by
    rw [intercalate_singleton] at h
    exact .inr ⟨w, mem_cons_self, h⟩
  | w :: w' :: ws, h => by
    rw [intercalate_cons_cons, mem_append, mem_append] at h
    rcases h with (h | h) | h
    · exact .inr ⟨w, mem_cons_self, h⟩
    · exact .inl h
    · rcases mem_intercalate sep (w' :: ws) h with h | ⟨v, hv, h⟩
      · exact .inl h
      · exact .inr ⟨v, mem_cons_of_mem w hv, h⟩

theorem mem_join {sep : String} (h : c ∈ (join sep ws).toList) : c ∈ sep.toList ∨ ∃ w ∈ ws, c ∈ w.toList := by
  unfold join at h
  rw [String.toList_intercalate] at h
  rcases mem_intercalate _ _ h with h | ⟨cs, hcs, h⟩
  · exact .inl h
  · obtain ⟨w, hw, rfl⟩ := mem_map.1 hcs
    exact .inr ⟨w, hw, h⟩

/-! ## Parts -/

theorem isLine_join (h : ∀ w ∈ ws, IsWord w) : IsTrimmed (join " " ws) := by
  have hchar : ∀ c, isBlank c = true → c ≠ ' ' → c ∉ (join " " ws).toList := by
    intro c hc hspace hmem
    rcases mem_join hmem with hsep | ⟨w, hw, hcw⟩
    · exact hspace (mem_singleton.1 hsep)
    · rw [(h w hw).2 c hcw] at hc
      cases hc
  exact ⟨trim_join h, hchar _ (by decide) (by decide), hchar _ (by decide) (by decide)⟩

theorem join_concat (sep last : String) : ∀ front : List String,
    join sep (front ++ [last]) = String.join (front.map (· ++ sep)) ++ last
  | [] => by simp [join]
  | w :: front => by
    have ih := join_concat sep last front
    unfold join at ih ⊢
    rw [cons_append, String.intercalate_cons_of_ne_nil (by simp), ih, map_cons, String.join_cons]
    simp only [String.append_assoc]

theorem join_append (sep : String) (hne : ls ≠ []) : join sep ls ++ sep = String.join (ls.map (· ++ sep)) := by
  obtain ⟨front, last, rfl⟩ : ∃ front last, ls = front ++ [last] := ⟨_, _, (dropLast_append_getLast hne).symm⟩
  simp [join_concat, String.append_assoc]

theorem trimmedLines_open (last : String) (h : ∀ l ∈ ls, '\n' ∉ l.toList ∧ '\r' ∉ l.toList)
    (hlast : ls.getLast? = some last) (hne : last ≠ "") : trimmedLines (join "\n" ls) = ls.map trim := by
  obtain ⟨front, rfl⟩ := getLast?_eq_some_iff.1 hlast
  obtain ⟨hfront, hend⟩ := forall_mem_append.1 h
  have hend := forall_mem_singleton.1 hend
  have htail : linesFrom [] ([last].map String.toList).flatten = [last].map String.toList := by
    have hopen := linesFrom_append [] hend.1 []
    simpa [linesFrom, hne] using hopen
  have hlines : lines (unifyLineEnds (String.join (front.map (· ++ "\n") ++ [last]))) = front.map (· ++ "\n") ++ [last] := by
    refine lines_append htail (forall_mem_map.2 fun l hl => ⟨l.toList, (hfront l hl).1, by simp⟩) ?_
    simpa only [forall_mem_append, forall_mem_map, forall_mem_singleton] using
      ⟨fun l hl => by simpa using (hfront l hl).2, hend.2⟩
  rw [String.join_append, String.join_cons, String.join_nil, String.append_empty, ← join_concat] at hlines
  simp [trimmedLines, hlines, trim_line]

theorem mem_splitFrom {part : List Char} : ∀ (cs before : List Char), c ∉ before →
    part ∈ splitFrom [c] 0 before cs → c ∉ part ∧ ∀ d ∈ part, d ∈ before ∨ d ∈ cs
  | [], before, hb, h => by
    obtain rfl := mem_singleton.1 h
    exact ⟨by simpa using hb, fun d hd => .inl (mem_reverse.1 hd)⟩
  | x :: cs, before, hb, h => by
    rw [splitFrom] at h
    split at h
    · rcases mem_cons.1 h with rfl | h
      · exact ⟨by simpa using hb, fun d hd => .inl (mem_reverse.1 hd)⟩
      · obtain ⟨hc, hmem⟩ := mem_splitFrom cs [] (by simp) h
        exact ⟨hc, fun d hd => .inr (mem_cons_of_mem x (by simpa using hmem d hd))⟩
    · rename_i hx
      obtain ⟨hc, hmem⟩ := mem_splitFrom cs (x :: before) (by simpa [isPrefixOf, hb] using hx) h
      refine ⟨hc, fun d hd => ?_⟩
      have hor := hmem d hd
      simp only [mem_cons] at hor ⊢
      tauto

theorem mem_split_comma {part : String} (h : part ∈ split "," s) :
    ',' ∉ part.toList ∧ ∀ d ∈ part.toList, d ∈ s.toList := by
  obtain ⟨cs, hcs, rfl⟩ := mem_map.1 h
  obtain ⟨hc, hmem⟩ := mem_splitFrom s.toList [] (by simp) hcs
  rw [String.toList_ofList]
  exact ⟨hc, fun d hd => by simpa using hmem d hd⟩

theorem exists_mem_split_comma (hd : d ∈ s.toList) : d = ',' ∨ ∃ part ∈ split "," s, d ∈ part.toList := by
  rw [← join_split (show "," ≠ "" by decide) s] at hd
  exact (mem_join hd).imp_left mem_singleton.1

end Arena.Text
