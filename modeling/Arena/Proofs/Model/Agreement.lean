/-
Three readers of one text: a plain model is read section by section, a graded structure from the lines that are not
blank, a chart by counting titles. In the usual layout they agree exactly if the section of unknown transitions is
there, no blank lines stand behind the matrix, the names and the initial state, and no name of a state ends in a
character that is dropped.
-/
import Arena.Diagram.Chart
import Arena.Proofs.Fuzzy.Structure
import Arena.Proofs.Model.Fields
import Arena.Proofs.Model.Layout

namespace Arena

open Text List

variable {line source ending : String} {b : Section × List String} {s : Section} {m : Model}

open Diagram Fuzzy Chart

namespace Diagram.Chart

variable {lines as bs cs : List String}

def cells (line : String) : List String := (split " " line).map trim

theorem cells_ne_nil (line : String) : cells line ≠ [] := fun h =>
  split_ne_nil " " line (map_eq_nil_iff.1 h)

theorem cells_join {ws : List String} (hne : ws ≠ []) (h : ∀ w ∈ ws, IsWord w) : cells (join " " ws ++ "\n") = ws := by
  obtain ⟨front, last, rfl⟩ : ∃ front last, ws = front ++ [last] := ⟨_, _, (dropLast_append_getLast hne).symm⟩
  obtain ⟨hfront, hlast⟩ := forall_mem_append.1 h
  have hlast := forall_mem_singleton.1 hlast
  have hspace : ∀ {w : String}, IsWord w → ' ' ∉ w.toList := fun hw hin => by
    have := hw.2 ' ' hin
    revert this
    decide
  unfold cells
  have hsep : " ".toList = [' '] := by decide
  rw [join_concat, String.append_assoc, ← join_concat, split_join hsep (by simp)]
  · rw [map_append, map_singleton, trim_line, trim_eq_self hlast.2]
    congr 1
    exact map_eq_self fun w hw => trim_eq_self (hfront w hw).2
  · refine forall_mem_append.2 ⟨fun w hw => hspace (hfront w hw), forall_mem_singleton.2 ?_⟩
    simpa using hspace hlast

theorem ne_zero_of_mem_cells {w : String} (h : trim line = "") (hw : w ∈ cells (line ++ "\n")) : w ≠ "0" := by
  rintro rfl
  obtain ⟨part, hpart, htrim⟩ := mem_map.1 hw
  obtain ⟨cs, hcs, rfl⟩ := mem_map.1 hpart
  have hzero : '0' ∈ (trim (String.ofList cs)).toList := by
    rw [htrim]
    decide
  have hin := (mem_splitFrom _ [] not_mem_nil hcs).2 '0' (by simpa using mem_stripOf hzero)
  have hline : '0' ∈ line.toList := by simpa using hin
  have := isEmpty_trim_of_mem hline (by decide)
  rw [h] at this
  cases this

theorem withoutMark_eq_self {c : Char} {rest : List Char} (hc : c.toNat ≠ 0xFEFF)
    (h : (unifyLineEnds source).toList = c :: rest) : withoutMark source = source := by
  unfold withoutMark
  split
  · rename_i d cs hcs
    refine if_neg fun hd => hc ?_
    have hd' : d ≠ '\r' := by
      rintro rfl
      exact absurd hd (by decide)
    rw [unifyLineEnds, String.toList_ofList, hcs, unifyLineEndsList, if_neg hd'] at h
    · exact (cons.inj h).1 ▸ hd
    · exact fun _ heq => absurd heq hd'
  · rfl

/-- The parts with the lines of a part that is no place to begin at. -/
def Parts.add (p : Parts) (lines : List String) : Nat → Parts
  | 1 => { p with moves := p.moves ++ lines.map cells }
  | 2 => { p with doubts := p.doubts ++ lines.map cells }
  | 3 => { p with names := (lines.getLast?.map cells).getD p.names }
  | _ => p

theorem readLines_append {part : Nat} (hpart : part ≠ 4) (rest : List String) : ∀ {lines : List String},
    (∀ line ∈ lines, line ∉ headers) → ∀ p : Parts,
      readLines part p (lines ++ rest) = readLines part (p.add lines part) rest
  | [], _, p => by
    rcases part with _ | _ | _ | _ | n <;> simp [Parts.add]
  | line :: lines, h, p => by
    obtain ⟨hline, hlines⟩ := forall_mem_cons.1 h
    have ih := readLines_append hpart rest hlines
    rw [cons_append, readLines, if_neg (by simpa using hline)]
    rcases part with _ | _ | _ | _ | _ | n
    · exact ih p
    · simp only [ih]
      simp [Parts.add, cells]
    · simp only [ih]
      simp [Parts.add, cells]
    · simp only [ih]
      cases lines <;> simp [Parts.add, cells, getLast?_cons]
    · exact absurd rfl hpart
    · exact ih p

theorem readLines_header (hline : line ∈ headers) (part : Nat) (p : Parts) (rest : List String) :
    readLines part p (line :: rest) = readLines (part + 1) p rest := by
  rw [readLines, if_pos (contains_iff_mem.2 hline)]

theorem readLines_done {part : Nat} (hpart : 4 < part) (p : Parts) : ∀ lines : List String, readLines part p lines = p
  | [] => rfl
  | line :: lines => by
    obtain ⟨n, rfl⟩ : ∃ n, part = n + 5 := ⟨part - 5, by omega⟩
    rw [readLines]
    split
    · exact readLines_done (by omega) p lines
    · exact readLines_done hpart p lines

theorem readLines_block (hline : line ∈ headers) {part : Nat} (hpart : part ≠ 3) (hlines : ∀ l ∈ lines, l ∉ headers)
    (p : Parts) (rest : List String) :
    readLines part p (line :: (lines ++ rest)) = readLines (part + 1) (p.add lines (part + 1)) rest := by
  rw [readLines_header hline, readLines_append (by omega) _ hlines]

theorem readLines_four (has : ∀ l ∈ as, l ∉ headers) (hbs : ∀ l ∈ bs, l ∉ headers) (hcs : ∀ l ∈ cs, l ∉ headers)
    (hline : line ∉ headers) (rest : List String)
    (h : lines = "Transition\n" :: (as ++ "Unkown_Transition_by\n" :: (bs ++ "Name_State\n" ::
      (cs ++ "Initial_State\n" :: line :: rest)))) :
    readLines 0 {} lines = ⟨as.map cells, bs.map cells, (cs.getLast?.map cells).getD [], cells line⟩ := by
  rw [h, readLines_block (by decide) (by decide) has, readLines_block (by decide) (by decide) hbs,
    readLines_block (by decide) (by decide) hcs, readLines_header (by decide), readLines, if_neg (by simpa using hline)]
  simp [readLines_done, Parts.add, cells]

/-- With three titles the names of the places count as doubts, and there is no place to begin at. -/
theorem readLines_three (has : ∀ l ∈ as, l ∉ headers) (hbs : ∀ l ∈ bs, l ∉ headers) (hcs : ∀ l ∈ cs, l ∉ headers)
    (h : lines = "Transition\n" :: (as ++ "Name_State\n" :: (bs ++ "Initial_State\n" :: cs))) :
    readLines 0 {} lines = ⟨as.map cells, bs.map cells, (cs.getLast?.map cells).getD [], []⟩ := by
  rw [h, ← append_nil cs, readLines_block (by decide) (by decide) has, readLines_block (by decide) (by decide) hbs,
    readLines_block (by decide) (by decide) hcs]
  simp [readLines, Parts.add]

end Diagram.Chart

namespace Model

/-! ## Titles among the lines of blocks -/

section Titles

variable {bs : List (Section × List String)} (hplain : ∀ b ∈ bs, b.1 ∈ plainSections)
  (huntitled : ∀ b ∈ bs, ∀ line ∈ b.2, header? .plain line = none)

include hplain huntitled

theorem title_not_mem_blockLines (hs : s ∈ plainSections) (hne : ∀ b ∈ bs, b.1 ≠ s) : title s ∉ blockLines bs := by
  intro hmem
  obtain ⟨b, hb, hmem⟩ := mem_flatMap.1 hmem
  have htitle := header?_title_of_mem hs
  rcases mem_cons.1 hmem with heq | hmem
  · rw [heq, header?_title_of_mem (hplain b hb)] at htitle
    exact hne b hb (Option.some.inj htitle)
  · rw [huntitled b hb _ hmem] at htitle
    cases htitle

variable (hnodup : (bs.map (·.1)).Nodup)

include hnodup

theorem idxOf?_blockLines (front : List (Section × List String)) {back : List (Section × List String)}
    (hbs : bs = front ++ b :: back) : (blockLines bs).idxOf? (title b.1) = some (blockLines front).length := by
  subst hbs
  have hne : ∀ c ∈ front, c.1 ≠ b.1 := by
    rw [map_append, nodup_append] at hnodup
    exact fun c hc => hnodup.2.2 c.1 (mem_map_of_mem hc) b.1 (by simp)
  have hnot := title_not_mem_blockLines (fun c hc => hplain c (mem_append_left _ hc))
    (fun c hc => huntitled c (mem_append_left _ hc)) (hplain b (by simp)) hne
  have hsplit : blockLines (front ++ b :: back) = blockLines front ++ title b.1 :: (b.2 ++ blockLines back) :=
    flatMap_append
  rw [hsplit, Layout.idxOf?_append hnot]

theorem lineBehind_blockLines (hmem : (s, [line]) ∈ bs) : Kripke.lineBehind (blockLines bs) (title s) = .ok line := by
  obtain ⟨front, back, hbs⟩ := append_of_mem hmem
  have hline : (blockLines bs)[(blockLines front).length + 1]? = some line := by
    rw [hbs, blockLines, flatMap_append]
    exact (getElem?_append_right (by simp [blockLines])).trans (by simp [blockLines])
  unfold Kripke.lineBehind Kripke.lineIndex
  rw [idxOf?_blockLines hplain huntitled hnodup front hbs]
  simp only [orFault, bind, Except.bind, hline]

/-- The matrix ends at the next section, which is that of unknown transitions if there is one. -/
theorem matrixLines_blockLines {rows : List String} {cs : List (Section × List String)}
    (hbs : bs = (.transition, rows) :: b :: cs) (hb : b.1 = .unknown ∨ b.1 = .stateNames ∧ ∀ c ∈ bs, c.1 ≠ .unknown) :
    Kripke.matrixLines (blockLines bs) = .ok rows := by
  have hfirst : (blockLines bs).idxOf? "Transition" = some 0 :=
    idxOf?_blockLines hplain huntitled hnodup [] hbs
  have hlast : (blockLines bs).idxOf? (title b.1) = some (rows.length + 1) := by
    rw [idxOf?_blockLines hplain huntitled hnodup [(.transition, rows)] hbs]
    simp [blockLines]
  have hcut : ((blockLines bs).take (rows.length + 1)).drop 1 = rows := by simp [hbs, blockLines]
  rcases hb with hb | ⟨hb, hne⟩
  · have hin : "Unkown_Transition_by" ∈ blockLines bs := by simp [hbs, blockLines, hb, title]
    simp only [hb, title] at hlast
    simp [Kripke.matrixLines, Kripke.lineIndex, hfirst, hlast, hin, hcut, orFault, bind, Except.bind, pure, Except.pure]
  · have hnot := title_not_mem_blockLines hplain huntitled (by decide) hne
    simp only [hb, title] at hlast hnot
    simp [Kripke.matrixLines, Kripke.lineIndex, hfirst, hlast, hnot, hcut, orFault, bind, Except.bind, pure, Except.pure]

end Titles

/-! ## Texts in the usual layout -/

/-- A model text: cells with single blanks between them, and blank lines behind the sections. -/
structure Sheet where
  rows : List (List String)
  /-- The section of unknown transitions may be left out. -/
  doubts? : Option (List (List String))
  names : List String
  initial : String
  props : List String
  labels : List (List String)
  agents : String
  /-- The blank lines behind each section. -/
  gap : Section → List String

namespace Sheet

def rowLines (rows : List (List String)) : List String := rows.map (join " ")

def doubtBlock (t : Sheet) : List (Section × List String) :=
  (t.doubts?.map fun rows => (Section.unknown, rowLines rows ++ t.gap .unknown)).toList

def labelBlocks (t : Sheet) : List (Section × List String) :=
  [(.propositions, rowLines [t.props] ++ t.gap .propositions), (.labelling, rowLines t.labels ++ t.gap .labelling)]

def blocks (t : Sheet) : List (Section × List String) :=
  (.transition, rowLines t.rows ++ t.gap .transition) :: (t.doubtBlock ++
    ((.stateNames, rowLines [t.names] ++ t.gap .stateNames) ::
      (.initialState, rowLines [[t.initial]] ++ t.gap .initialState) :: t.labelBlocks))

/-- The lines of the text, the last of which may have a line end. -/
def lines (t : Sheet) (ending : String) : List String :=
  (blockLines t.blocks ++ [title .agentCount]).map (· ++ "\n") ++ [t.agents ++ ending]

/-- The words of the lines that are not blank lines between sections. -/
def contents (t : Sheet) : List (List String) :=
  t.rows ++ t.doubts?.getD [] ++ t.labels ++ [t.names, t.props, [t.initial], [t.agents]]

/-- The matrix has a row and a column for each state, of which there is one, words are words, and lines other than
titles are no titles. -/
structure Proper (t : Sheet) : Prop where
  square : t.rows.length = t.names.length ∧ ∀ row ∈ t.rows, row.length = t.names.length
  named : t.names ≠ []
  words : ∀ row ∈ t.contents, ∀ w ∈ row, IsWord w
  untitled : ∀ row ∈ t.contents, header? .plain (join " " row) = none
  blank : ∀ s, ∀ line ∈ t.gap s, trim line = ""

section Lines

variable {t : Sheet} (h : t.Proper)

include h

omit h in
theorem of_mem_blocks (hb : b ∈ t.blocks) : b.1 ∈ plainSections ∧
    ∃ rows, (∀ row ∈ rows, row ∈ t.contents) ∧ b.2 = rowLines rows ++ t.gap b.1 := by
  simp only [blocks, doubtBlock, labelBlocks, mem_cons, mem_append, Option.mem_toList, Option.map_eq_some_iff,
    not_mem_nil, or_false] at hb
  rcases hb with rfl | ⟨rows, hdoubts, rfl⟩ | rfl | rfl | rfl | rfl
  · exact ⟨by simp [plainSections], t.rows, by simp +contextual [contents], rfl⟩
  · exact ⟨by simp [plainSections], rows, by simp +contextual [contents, hdoubts], rfl⟩
  · exact ⟨by simp [plainSections], [t.names], by simp [contents], rfl⟩
  · exact ⟨by simp [plainSections], [[t.initial]], by simp [contents], rfl⟩
  · exact ⟨by simp [plainSections], [t.props], by simp [contents], rfl⟩
  · exact ⟨by simp [plainSections], t.labels, by simp +contextual [contents], rfl⟩

theorem Proper.untitled_trim (hb : b ∈ t.blocks) (hline : line ∈ b.2) : header? .plain (trim line) = none := by
  obtain ⟨-, rows, hrows, hlines⟩ := of_mem_blocks hb
  rcases mem_append.1 (hlines ▸ hline) with hline | hline
  · obtain ⟨row, hrow, rfl⟩ := mem_map.1 hline
    rw [trim_join (h.words row (hrows row hrow))]
    exact h.untitled row (hrows row hrow)
  · rw [h.blank b.1 line hline]
    rfl

theorem Proper.untitled_agents : header? .plain t.agents = none := by
  have := h.untitled [t.agents] (by simp [contents])
  simpa [join] using this

theorem Proper.trim_agents (hending : ending ∈ ["", "\n"]) : trim (t.agents ++ ending) = t.agents := by
  have hword : IsWord t.agents := h.words [t.agents] (by simp [contents]) _ (by simp)
  have htrim := trim_eq_self hword.2
  rcases mem_cons.1 hending with rfl | hending
  · rw [String.append_empty, htrim]
  · rw [mem_singleton.1 hending, trim_line, htrim]

def trimBlock (b : Section × List String) : Section × List String := (b.1, b.2.map trim)

def inner (t : Sheet) : List (Section × List String) := t.blocks.map trimBlock ++ [(.agentCount, [t.agents])]

omit h in
theorem inner_plain : ∀ b ∈ t.inner, b.1 ∈ plainSections := by
  intro b hb
  rcases mem_append.1 hb with hb | hb
  · obtain ⟨c, hc, rfl⟩ := mem_map.1 hb
    exact (of_mem_blocks hc).1
  · rw [mem_singleton.1 hb]
    simp [plainSections]

theorem Proper.inner_untitled : ∀ b ∈ t.inner, ∀ line ∈ b.2, header? .plain line = none := by
  intro b hb line hline
  rcases mem_append.1 hb with hb | hb
  · obtain ⟨c, hc, rfl⟩ := mem_map.1 hb
    obtain ⟨l, hl, rfl⟩ := mem_map.1 hline
    exact h.untitled_trim hc hl
  · rw [mem_singleton.1 hb] at hline
    rw [mem_singleton.1 hline]
    exact h.untitled_agents

theorem Proper.getLast?_trim (row : List String) (hrow : row ∈ t.contents) (s : Section) :
    ((rowLines [row] ++ t.gap s).map trim).getLast? =
      some (if t.gap s = [] then join " " row else "") := by
  rcases eq_nil_or_concat (t.gap s) with hgap | ⟨ls, line, hgap⟩
  · simp [rowLines, hgap, trim_join (h.words row hrow)]
  · have hblank := h.blank s line (by simp [hgap])
    simp [hgap, hblank]

theorem Proper.words_trim (rows : List (List String)) (hrows : ∀ row ∈ rows, row ∈ t.contents) (s : Section) :
    ((rowLines rows ++ t.gap s).map trim).map Text.words = rows ++ (t.gap s).map fun _ => [] := by
  rw [map_append, map_append, rowLines, map_map, map_map, map_map]
  congr 1
  · refine map_eq_self fun row hrow => ?_
    have hwords := h.words row (hrows row hrow)
    simp only [Function.comp_apply, trim_join hwords, words_join hwords]
  · refine map_congr_left fun line hline => ?_
    rw [Function.comp_apply, h.blank s line hline]
    rfl

def wordsOnly (b : Section × List String) : Section × List String := (b.1, b.2.filter (· ≠ ""))

theorem Proper.wordsOnly_trimBlock (s : Section) (rows : List (List String))
    (hrows : ∀ row ∈ rows, row ∈ t.contents ∧ row ≠ []) :
    wordsOnly (trimBlock (s, rowLines rows ++ t.gap s)) = (s, rowLines rows) := by
  have hgap : ((t.gap s).map trim).filter (· ≠ "") = [] := by
    rw [filter_eq_nil_iff]
    intro line hline
    obtain ⟨l, hl, rfl⟩ := mem_map.1 hline
    simp [h.blank s l hl]
  have hrow : (rowLines rows).map trim = rowLines rows := by
    refine map_eq_self fun line hline => ?_
    obtain ⟨row, hmem, rfl⟩ := mem_map.1 hline
    exact trim_join (h.words row (hrows row hmem).1)
  unfold wordsOnly trimBlock
  rw [map_append, filter_append, hgap, append_nil, hrow, filter_eq_self.2]
  intro line hline
  obtain ⟨row, hmem, rfl⟩ := mem_map.1 hline
  have hwords := words_join (h.words row (hrows row hmem).1)
  refine decide_eq_true fun hempty => ?_
  rw [hempty] at hwords
  exact (hrows row hmem).2 hwords.symm

theorem Proper.row_mem {row : List String} (hrow : row ∈ t.rows) : row ∈ t.contents ∧ row ≠ [] := by
  refine ⟨by simp [contents, hrow], ?_⟩
  rw [← length_pos_iff, h.square.2 row hrow]
  exact length_pos_iff.2 h.named

omit h in
theorem not_mem_headers (hline : header? .plain (trim line) = none) : line ∉ headers := by
  have htitle : ∀ l ∈ headers, header? .plain (trim l) ≠ none := by decide
  exact fun hmem => htitle line hmem hline

/-! ## The three readers -/

variable (hending : ending ∈ ["", "\n"]) (hs : Text.lines (unifyLineEnds source) = t.lines ending)

include hending hs

theorem Proper.trimmedLines : trimmedLines source = blockLines t.inner := by
  have htitle : ∀ s ∈ plainSections, trim (title s) = title s := by decide
  have hblocks : (blockLines t.blocks).map trim = blockLines (t.blocks.map trimBlock) := by
    unfold blockLines
    rw [map_flatMap, flatMap_map]
    refine flatMap_congr fun b hb => ?_
    rw [map_cons, htitle _ (of_mem_blocks hb).1]
    rfl
  have hcomp : trim ∘ (· ++ "\n") = trim := funext trim_line
  unfold Text.trimmedLines
  rw [hs, lines, map_append, map_map, hcomp, map_append, hblocks, map_singleton,
    map_singleton, h.trim_agents hending, htitle _ (by decide)]
  simp [blockLines, inner]

theorem Proper.model_eq (hm : load .plain source = .ok m) :
    m.graph = t.rows.map (·.map Cell.ofWord) ++ (t.gap .transition).map (fun _ => []) ∧
      m.states = (if t.gap .stateNames = [] then t.names.map kept else []) ∧
      m.initial = if t.gap .initialState = [] then t.initial else "" := by
  rw [load_eq_ok, h.trimmedLines hending hs, reads_blockLines inner_plain h.inner_untitled] at hm
  obtain ⟨-, rfl⟩ := hm
  obtain ⟨hgraph, hstates, hinitial⟩ :
      linesIn t.inner .transition = (rowLines t.rows ++ t.gap .transition).map trim ∧
      linesIn t.inner .stateNames = (rowLines [t.names] ++ t.gap .stateNames).map trim ∧
      linesIn t.inner .initialState = (rowLines [[t.initial]] ++ t.gap .initialState).map trim := by
    cases hd : t.doubts? <;> simp [linesIn, inner, trimBlock, blocks, doubtBlock, labelBlocks]
  refine ⟨?_, ?_, ?_⟩
  · have hwords := h.words_trim t.rows (by simp +contextual [contents]) .transition
    have hcells := congrArg (map (map Cell.ofWord)) hwords
    rw [map_map] at hcells
    simp only [modelOf, hgraph]
    refine hcells.trans ?_
    simp
  · have hwords := words_join (h.words t.names (by simp [contents]))
    simp only [modelOf, hstates, h.getLast?_trim t.names (by simp [contents]) .stateNames]
    split <;> simp [keptWords, hwords, show Text.words "" = [] from rfl]
  · simp only [modelOf, hinitial, h.getLast?_trim [t.initial] (by simp [contents]) .initialState]
    simp [join]

theorem Proper.wordedLines : Kripke.wordedLines source = blockLines (t.inner.map wordsOnly) := by
  have htitle : ∀ s ∈ plainSections, title s ≠ "" := by decide
  unfold Kripke.wordedLines
  rw [h.trimmedLines hending hs]
  unfold blockLines
  rw [filter_flatMap, flatMap_map]
  refine flatMap_congr fun b hb => ?_
  rw [filter_cons_of_pos (by simpa using htitle _ (inner_plain b hb))]
  rfl

theorem Proper.kripke_eq {α : Type} [Degree α] {k : Kripke α}
    (hk : Kripke.read source = .ok k) : k.states = t.names ∧ k.initial = t.initial ∧
      ∀ q u, u ∈ (k.post q).keys ↔ ∃ (i j : Nat) (row : List String) (w : String), t.names[i]? = some q ∧
        t.names[j]? = some u ∧ t.rows[i]? = some row ∧ row[j]? = some w ∧ w ≠ "0" := by
  obtain ⟨names, matrix, hnames, hstates, hmatrix, hinitial, hpost⟩ := Kripke.of_read hk
  have hplain : ∀ b ∈ t.inner.map wordsOnly, b.1 ∈ plainSections := fun b hb => by
    obtain ⟨c, hc, rfl⟩ := mem_map.1 hb
    exact inner_plain c hc
  have huntitled : ∀ b ∈ t.inner.map wordsOnly, ∀ line ∈ b.2, header? .plain line = none := fun b hb line hline => by
    obtain ⟨c, hc, rfl⟩ := mem_map.1 hb
    exact h.inner_untitled c hc line (mem_filter.1 hline).1
  have hnodup : ((t.inner.map wordsOnly).map (·.1)).Nodup := by
    cases hd : t.doubts? <;> simp [inner, blocks, doubtBlock, labelBlocks, hd, wordsOnly, trimBlock]
  have hmem : ∀ b ∈ t.blocks, wordsOnly (trimBlock b) ∈ t.inner.map wordsOnly := fun b hb =>
    mem_map_of_mem (mem_append_left _ (mem_map_of_mem hb))
  have hname := hmem (.stateNames, rowLines [t.names] ++ t.gap .stateNames) (by simp [blocks])
  have hstart := hmem (.initialState, rowLines [[t.initial]] ++ t.gap .initialState) (by simp [blocks])
  rw [h.wordsOnly_trimBlock _ _ (by simp [contents, h.named])] at hname
  rw [h.wordsOnly_trimBlock _ _ (by simp [contents])] at hstart
  have hrows : Kripke.matrixLines (blockLines (t.inner.map wordsOnly)) = .ok (rowLines t.rows) := by
    have hfirst := h.wordsOnly_trimBlock .transition t.rows fun row => h.row_mem
    cases hd : t.doubts? with
    | none =>
      refine matrixLines_blockLines hplain huntitled hnodup (by rw [← hfirst, inner, blocks, doubtBlock, hd]; rfl)
        (.inr ⟨rfl, ?_⟩)
      simp [inner, blocks, doubtBlock, labelBlocks, hd, wordsOnly, trimBlock]
    | some rows =>
      exact matrixLines_blockLines hplain huntitled hnodup (by rw [← hfirst, inner, blocks, doubtBlock, hd]; rfl) (.inl rfl)
  rw [h.wordedLines hending hs] at hnames hmatrix hinitial
  cases hnames.symm.trans (lineBehind_blockLines hplain huntitled hnodup hname)
  cases hmatrix.symm.trans hrows
  have hwords : k.states = t.names := hstates.trans (words_join (h.words t.names (by simp [contents])))
  have hcells : ((rowLines t.rows).take k.states.length).map Text.words = t.rows := by
    rw [hwords, ← h.square.1, take_of_length_le (by simp [rowLines]), rowLines, map_map]
    exact map_eq_self fun row hrow => words_join (h.words row (h.row_mem hrow).1)
  rw [hcells, hwords] at hpost
  exact ⟨hwords, Except.ok.inj (hinitial.symm.trans (lineBehind_blockLines hplain huntitled hnodup hstart)), hpost⟩

omit h hending in
theorem withoutMark_eq : withoutMark source = source := by
  have hflat := Text.flatten_linesFrom (Text.unifyLineEnds source).toList []
  have hlines : Text.linesFrom [] (Text.unifyLineEnds source).toList = (t.lines ending).map String.toList := by
    rw [← hs, Text.lines]
    simp [Function.comp_def]
  simp only [hlines, lines, blocks, blockLines, flatMap_cons] at hflat
  exact withoutMark_eq_self (by decide) hflat.symm

theorem Proper.parts_eq :
    (Chart.Parts.read source).moves = t.rows ++ (t.gap .transition).map (fun line => cells (line ++ "\n")) ∧
      (t.doubts? = none → (Chart.Parts.read source).initial = []) ∧
      (t.doubts?.isSome = true → (Chart.Parts.read source).initial = [t.initial] ∧
        (t.gap .stateNames = [] → (Chart.Parts.read source).names = t.names)) := by
  have hcells : ∀ row ∈ t.contents, row ≠ [] → cells (join " " row ++ "\n") = row := fun row hrow hne =>
    cells_join hne (h.words row hrow)
  have hbody : ∀ b ∈ t.blocks, ∀ line ∈ b.2.map (· ++ "\n"), line ∉ headers := by
    intro b hb line hline
    obtain ⟨l, hl, rfl⟩ := mem_map.1 hline
    exact not_mem_headers (trim_line l ▸ h.untitled_trim hb hl)
  have hmoves : ((rowLines t.rows ++ t.gap .transition).map (· ++ "\n")).map cells =
      t.rows ++ (t.gap .transition).map fun line => cells (line ++ "\n") := by
    rw [map_map, map_append, rowLines, map_map]
    congr 1
    exact map_eq_self fun row hrow => hcells row (h.row_mem hrow).1 (h.row_mem hrow).2
  have hinitial : t.initial ++ "\n" ∉ headers := hbody (.initialState, rowLines [[t.initial]] ++ t.gap .initialState)
    (by simp [blocks]) _ (by simp [rowLines, join])
  have hrows := hbody (.transition, _) mem_cons_self
  have hnames := hbody (.stateNames, rowLines [t.names] ++ t.gap .stateNames) (by simp [blocks])
  unfold Chart.Parts.read
  rw [withoutMark_eq hs, hs]
  cases hd : t.doubts? with
  | some rows =>
    have hdoubts := hbody (.unknown, rowLines rows ++ t.gap .unknown) (by simp [blocks, doubtBlock, hd])
    rw [readLines_four hrows hdoubts hnames hinitial ((t.gap .initialState ++ blockLines t.labelBlocks ++
      [title .agentCount]).map (· ++ "\n") ++ [t.agents ++ ending]) ?_]
    · refine ⟨hmoves, fun hnone => absurd hnone (by simp), fun _ => ⟨?_, fun hgap => ?_⟩⟩
      · have := hcells [t.initial] (by simp [contents]) (by simp)
        simpa [join] using this
      · simp [hgap, rowLines, hcells t.names (by simp [contents]) h.named]
    · simp [lines, blocks, doubtBlock, hd, blockLines, title, rowLines, join]
  | none =>
    have hlabels : ∀ line ∈ blockLines t.labelBlocks, line ++ "\n" ∉ headers := by
      intro line hline
      obtain ⟨b, hb, hline⟩ := mem_flatMap.1 hline
      rcases mem_cons.1 hline with rfl | hline
      · have htitle : ∀ s ∈ [Section.propositions, .labelling], title s ++ "\n" ∉ headers := by decide
        exact htitle b.1 (by simpa [labelBlocks] using mem_map_of_mem (f := (·.1)) hb)
      · exact hbody b (by simp [blocks, hb]) _ (mem_map_of_mem hline)
    have hrest : ∀ line ∈ (rowLines [[t.initial]] ++ t.gap .initialState).map (· ++ "\n") ++ ((blockLines t.labelBlocks ++
        [title .agentCount]).map (· ++ "\n") ++ [t.agents ++ ending]), line ∉ headers := by
      refine forall_mem_append.2 ⟨hbody (.initialState, _) (by simp [blocks]), forall_mem_append.2
        ⟨?_, forall_mem_singleton.2 (not_mem_headers (by rw [h.trim_agents hending]; exact h.untitled_agents))⟩⟩
      rw [forall_mem_map]
      exact forall_mem_append.2 ⟨hlabels, forall_mem_singleton.2 (by decide)⟩
    rw [readLines_three hrows hnames hrest ?_]
    · exact ⟨hmoves, fun _ => rfl, fun hsome => absurd hsome (by simp)⟩
    · simp [lines, blocks, doubtBlock, hd, blockLines, title]

end Lines

end Sheet

/-! ## Agreement -/

/-- A cell of the matrix of a model, by its place, that is not zero. -/
def HasMove (m : Model) (i j : Nat) (w : String) : Prop :=
  ∃ row c, m.graph[i]? = some row ∧ row[j]? = some c ∧ c ≠ .zero ∧ c.write = w

/-- The model, the graded structure and the parts of a chart have the same states, the same initial state and the same
cells other than zero. -/
structure Agree {α : Type} (m : Model) (k : Kripke α) (p : Chart.Parts) : Prop where
  states : m.states = k.states ∧ p.names = k.states
  initial : m.initial = k.initial ∧ p.initial = [k.initial]
  moves : ∀ i j w, m.HasMove i j w ↔ ∃ row, p.moves[i]? = some row ∧ row[j]? = some w ∧ w ≠ "0"
  edges : ∀ q u, u ∈ (k.post q).keys ↔ ∃ i j w, m.HasMove i j w ∧ m.states[i]? = some q ∧ m.states[j]? = some u

theorem hasMove_iff {rows : List (List String)} {more : List (List Cell)} (hmore : ∀ row ∈ more, row = [])
    (hm : m.graph = rows.map (·.map Cell.ofWord) ++ more) (i j : Nat) (w : String) :
    m.HasMove i j w ↔ ∃ row, rows[i]? = some row ∧ row[j]? = some w ∧ w ≠ "0" := by
  constructor
  · rintro ⟨row, c, hrow, hc, hzero, rfl⟩
    rw [hm] at hrow
    by_cases hi : i < rows.length
    · rw [getElem?_append_left (by simpa using hi), getElem?_map, Option.map_eq_some_iff] at hrow
      obtain ⟨ws, hws, rfl⟩ := hrow
      rw [getElem?_map, Option.map_eq_some_iff] at hc
      obtain ⟨w, hw, rfl⟩ := hc
      have hne : w ≠ "0" := fun heq => hzero (if_pos heq)
      exact ⟨ws, hws, by rw [hw, Cell.ofWord, if_neg hne]; rfl, by rwa [Cell.ofWord, if_neg hne]⟩
    · rw [getElem?_append_right (by simpa using hi)] at hrow
      rw [hmore row (mem_of_getElem? hrow)] at hc
      cases hc
  · rintro ⟨row, hrow, hw, hne⟩
    have hcell : Cell.ofWord w = .text w := if_neg hne
    refine ⟨row.map Cell.ofWord, .text w, ?_, by rw [getElem?_map, hw, ← hcell]; rfl, by simp [Cell.zero], rfl⟩
    have hi := lt_of_getElem? hrow
    rw [hm, getElem?_append_left (by simpa using hi), getElem?_map, hrow]
    rfl

/-- On a text in the usual layout that is read, the three readers agree exactly if the section of unknown transitions is
there, the names of the states are kept, and there are no blank lines before the atomic propositions but behind the
unknown transitions. -/
theorem agree_iff {α : Type} [Degree α] {t : Sheet} (h : t.Proper) {ending source : String}
    (hending : ending ∈ ["", "\n"]) (hs : Text.lines (Text.unifyLineEnds source) = t.lines ending) {m : Model}
    (hm : load .plain source = .ok m) {k : Kripke α} (hk : Kripke.read source = .ok k) :
    Agree m k (Chart.Parts.read source) ↔ t.doubts?.isSome = true ∧ (∀ q ∈ t.names, kept q = q) ∧
      t.gap .transition = [] ∧ t.gap .stateNames = [] ∧ t.gap .initialState = [] := by
  obtain ⟨hgraph, hstates, hinitial⟩ := h.model_eq hending hs hm
  obtain ⟨hknames, hkinitial, hpost⟩ := h.kripke_eq hending hs hk
  obtain ⟨hmoves, hwithout, hwith⟩ := h.parts_eq hending hs
  have hmove := hasMove_iff (by simp) hgraph
  constructor
  · intro ha
    have hdoubts : t.doubts?.isSome = true := by
      rw [← Option.ne_none_iff_isSome]
      intro hnone
      have := ha.initial.2
      rw [hwithout hnone] at this
      cases this
    have hgapNames : t.gap .stateNames = [] := by
      by_contra hgap
      have hm := ha.states.1
      rw [hstates, if_neg hgap, hknames] at hm
      exact h.named hm.symm
    have hgapInitial : t.gap .initialState = [] := by
      by_contra hgap
      have hm := ha.initial.1
      rw [hinitial, if_neg hgap, hkinitial] at hm
      exact (h.words [t.initial] (by simp [Sheet.contents]) _ (by simp)).1 hm.symm
    refine ⟨hdoubts, ?_, ?_, hgapNames, hgapInitial⟩
    · have hm := ha.states.1
      rw [hstates, if_pos hgapNames, hknames] at hm
      exact map_inj_left.1 (hm.trans (map_id _).symm)
    · -- the first blank line behind the matrix is a row of its own in the chart
      by_contra hgap
      obtain ⟨line, rest, hgap⟩ := exists_cons_of_ne_nil hgap
      obtain ⟨w, ws, hcells⟩ := exists_cons_of_ne_nil (cells_ne_nil (line ++ "\n"))
      have hblank := h.blank .transition line (by simp [hgap])
      have hw : w ≠ "0" := ne_zero_of_mem_cells hblank (by simp [hcells])
      have hrow := (ha.moves t.rows.length 0 w).2 ⟨w :: ws, by simp [hmoves, hgap, hcells], rfl, hw⟩
      obtain ⟨row, hrow, -⟩ := (hmove _ _ _).1 hrow
      simp at hrow
  · rintro ⟨hdoubts, hkept, hgap, hgapNames, hgapInitial⟩
    obtain ⟨hpinitial, hpnames⟩ := hwith hdoubts
    rw [if_pos hgapNames, map_congr_left hkept, map_id'] at hstates
    rw [if_pos hgapInitial] at hinitial
    rw [hgap, map_nil, append_nil] at hmoves
    refine ⟨⟨hstates.trans hknames.symm, (hpnames hgapNames).trans hknames.symm⟩,
      ⟨hinitial.trans hkinitial.symm, by rw [hpinitial, hkinitial]⟩, fun i j w => by rw [hmove, hmoves], fun q u => ?_⟩
    rw [hpost, hstates]
    simp only [hmove]
    constructor
    · rintro ⟨i, j, row, w, hq, hu, hrow, hw, hne⟩
      exact ⟨i, j, w, ⟨row, hrow, hw, hne⟩, hq, hu⟩
    · rintro ⟨i, j, w, ⟨row, hrow, hw, hne⟩, hq, hu⟩
      exact ⟨i, j, row, w, hq, hu, hrow, hw, hne⟩

/-- A lamp that is switched on, with or without the section of unknown transitions. -/
def lampSheet (doubts? : Option (List (List String))) : Sheet where
  rows := [["A", "A"], ["0", "A"]]
  doubts? := doubts?
  names := ["off", "on"]
  initial := "off"
  props := ["lit"]
  labels := [["0"], ["1"]]
  agents := "1"
  gap _ := []

def lampText (doubts? : Option (List (List String))) : String := String.join ((lampSheet doubts?).lines "\n")

theorem lines_lampText : ∀ d ∈ [some [], none], lines (unifyLineEnds (lampText d)) = (lampSheet d).lines "\n" := by
  intro d hd
  have hlines : (lampSheet d).lines "\n" =
      (blockLines (lampSheet d).blocks ++ [title .agentCount, "1"]).map (· ++ "\n") := by
    simp [Sheet.lines, lampSheet]
  rw [lampText, hlines]
  refine lines_join ?_
  rcases mem_pair.1 hd with rfl | rfl <;> decide

theorem load_lampText : ∀ d ∈ [some [], none], ∃ m, load .plain (lampText d) = .ok m ∧ m.initial = "off" := by
  intro d hd
  have hlines : trimmedLines (lampText d) = ((lampSheet d).lines "\n").map trim := by
    rw [trimmedLines, lines_lampText d hd]
  rcases mem_pair.1 hd with rfl | rfl <;>
  exact ⟨_, load_of_lines hlines (by decide) (by decide) rfl, by decide⟩

theorem read_lampText : ∀ d ∈ [some [], none], ∃ k : Kripke Number, Kripke.read (lampText d) = .ok k := by
  intro d hd
  have hread : (Kripke.read (lampText d) : Outcome (Kripke Number)).isOk = true := by
    unfold Kripke.read
    rw [lines_lampText d hd]
    rcases mem_pair.1 hd with rfl | rfl <;> decide
  cases hk : (Kripke.read (lampText d) : Outcome (Kripke Number)) with
  | ok k => exact ⟨k, rfl⟩
  | error f =>
    rw [hk] at hread
    cases hread

theorem proper_lampSheet : (lampSheet (some [])).Proper where
  square := by decide
  named := by decide
  words := by decide
  untitled := by decide
  blank s line hline := by cases hline

/-- All three readers agree on the lamp with a section of unknown transitions, though it has no rows. -/
theorem agree_lamp : ∃ (m : Model) (k : Kripke Number), load .plain (lampText (some [])) = .ok m ∧
    Kripke.read (lampText (some [])) = .ok k ∧ Agree m k (Chart.Parts.read (lampText (some []))) := by
  obtain ⟨m, hm, -⟩ := load_lampText (some []) (by simp)
  obtain ⟨k, hk⟩ := read_lampText (some []) (by simp)
  have hagree := agree_iff proper_lampSheet (by simp) (lines_lampText (some []) (by simp)) hm hk
  exact ⟨m, k, hm, hk, hagree.2 ⟨rfl, by decide, rfl, rfl, rfl⟩⟩

/-- Without that section, the chart has no place to begin at. -/
theorem disagree_lamp : ∃ (m : Model) (k : Kripke Number), load .plain (lampText none) = .ok m ∧
    Kripke.read (lampText none) = .ok k ∧ m.initial = "off" ∧ (Chart.Parts.read (lampText none)).initial = [] := by
  obtain ⟨m, hm, hinitial⟩ := load_lampText none (by simp)
  obtain ⟨k, hk⟩ := read_lampText none (by simp)
  have hlines := lines_lampText none (by simp)
  refine ⟨m, k, hm, hk, hinitial, ?_⟩
  rw [Chart.Parts.read, Sheet.withoutMark_eq hlines, hlines]
  decide

end Model

end Arena
