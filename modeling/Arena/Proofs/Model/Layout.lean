/-
Model texts with their sections in the standard order. When the matrix, the names of the states and the labels are
replaced, the text is read with the new parts in place of the old ones.
-/
import Arena.Proofs.Model.Renaming

namespace Arena.Model

open Text List

variable {t : String} {a : List String} {m : Model}

/-- The lines of a model, by the titles that they stand between. -/
structure Layout where
  front : List String
  rows : List String
  unknown : List String
  names : List String
  middle : List String
  labels : List String
  back : List String

namespace Layout

variable {l : Layout} {rows names labels : List String} {source : String}

/-- The titles at which a text is cut when parts of it are replaced. -/
def marks : List String :=
  ["Transition", "Unkown_Transition_by", "Name_State", "Initial_State", "Labelling", "Number_of_agents"]

def lines (l : Layout) : List String :=
  l.front ++ "Transition" :: (l.rows ++ "Unkown_Transition_by" :: (l.unknown ++ "Name_State" :: (l.names ++
    "Initial_State" :: (l.middle ++ "Labelling" :: (l.labels ++ "Number_of_agents" :: l.back)))))

def text (l : Layout) : String := String.join (l.lines.map (· ++ "\n"))

/-- Each title that a text is cut at stands in one place, the lines that can be replaced are no titles at all, and
no line has blanks around it. -/
@[mk_iff] structure Proper (l : Layout) : Prop where
  rest : ∀ line ∈ l.front ++ l.unknown ++ l.middle ++ l.back,
    line ∉ marks ∧ trim line = line ∧ '\n' ∉ line.toList ∧ '\r' ∉ line.toList
  inside : ∀ line ∈ l.rows ++ l.names ++ l.labels, Insertable line

instance (l : Layout) : Decidable l.Proper := decidable_of_iff' _ (proper_iff l)

section Lines

variable (h : l.Proper)

theorem not_mem_marks {line : String} (h : Insertable line) : line ∉ marks := by
  have hmarks : ∀ t ∈ marks, header? .plain t ≠ none := by decide
  exact fun hmem => hmarks line hmem h.noHeader

include h

theorem Proper.apart (ht : t ∈ marks) : t ∉ l.front ∧ t ∉ l.rows ∧ t ∉ l.unknown ∧ t ∉ l.names ∧
    t ∉ l.middle ∧ t ∉ l.labels ∧ t ∉ l.back := by
  have hrest : t ∉ l.front ++ l.unknown ++ l.middle ++ l.back := fun hmem => (h.rest t hmem).1 ht
  have hinside : t ∉ l.rows ++ l.names ++ l.labels := fun hmem => not_mem_marks (h.inside t hmem) ht
  simp only [mem_append] at hrest hinside
  tauto

theorem Proper.trimmed : ∀ line ∈ l.lines, IsTrimmed line := by
  have hmarks : ∀ t ∈ marks, IsTrimmed t := by decide
  intro line hline
  by_cases hrest : line ∈ l.front ++ l.unknown ++ l.middle ++ l.back
  · exact (h.rest line hrest).2
  by_cases hinside : line ∈ l.rows ++ l.names ++ l.labels
  · exact (h.inside line hinside).trimmed
  refine hmarks line ?_
  simp only [mem_append] at hrest hinside
  simp only [lines, mem_append, mem_cons] at hline
  simp only [marks, mem_cons]
  tauto

theorem Proper.trimmedLines_text : trimmedLines l.text = l.lines := trimmedLines_join h.trimmed

theorem Proper.lines_text : Text.lines (unifyLineEnds l.text) = l.lines.map (· ++ "\n") :=
  lines_join fun line hline => (h.trimmed line hline).2

end Lines

/-! ## Replacing -/

theorem idxOf?_append {x : String} (h : x ∉ a) (b : List String) : (a ++ x :: b).idxOf? x = some a.length := by
  rw [idxOf?_eq_some_iff]
  refine ⟨by simp, by simp, fun j hj => ?_⟩
  rw [getElem_append_left hj]
  exact fun heq => h (heq ▸ getElem_mem hj)

theorem replaceBetween_eq {first last f z : String} {b : List String} (hf : first ++ "\n" = f) (hz : last ++ "\n" = z)
    (hfirst : f ∉ a) (hlast : z ∉ a ++ f :: b) (c new : List String) :
    replaceBetween first last new (a ++ f :: (b ++ z :: c)) = .ok (a ++ f :: (new ++ z :: c)) := by
  have hsplit : a ++ f :: (b ++ z :: c) = (a ++ f :: b) ++ z :: c := by simp
  have hj := idxOf?_append hlast c
  rw [← hsplit] at hj
  unfold replaceBetween
  rw [hf, hz, idxOf?_append hfirst, hj]
  simp only [orFault, bind, Except.bind, pure, Except.pure, take_length_add_append]
  simp

/-- The lines that are kept, with their sections. -/
def others (l : Layout) : List (Option Section × String) :=
  entries none l.front ++ (entries (some .unknown) l.unknown ++
    (entries (some .initialState) l.middle ++ entries (some .agentCount) l.back))

section Replace

variable (h : l.Proper)

include h

theorem Proper.block_rows : Block l.lines .transition l.front l.rows ("Unkown_Transition_by" :: (l.unknown ++
    "Name_State" :: (l.names ++ "Initial_State" :: (l.middle ++ "Labelling" :: (l.labels ++
      "Number_of_agents" :: l.back))))) where
  eq := rfl
  notBefore := (h.apart (show "Transition" ∈ marks by decide)).1
  notAfter := by simp [title, h.apart (show "Transition" ∈ marks by decide)]
  inside line hline := (h.inside line (by simp [hline])).noHeader
  next := by
    rintro _ ⟨⟩
    decide

theorem Proper.entries_lines : entries none l.lines = entries none l.front ++ (l.rows.map (some .transition, ·) ++
    (entries (some .unknown) l.unknown ++ (l.names.map (some .stateNames, ·) ++ (entries (some .initialState) l.middle ++
      (l.labels.map (some .labelling, ·) ++ entries (some .agentCount) l.back))))) := by
  have hinside : ∀ line ∈ l.rows ++ l.names ++ l.labels, header? .plain line = none := fun line hline =>
    (h.inside line hline).noHeader
  simp only [forall_mem_append] at hinside
  rw [lines, entries_append_header (t := .transition) rfl, entries_block _ _ hinside.1.1,
    entries_header (t := .unknown) rfl, entries_append_header (t := .stateNames) rfl, entries_block _ _ hinside.1.2,
    entries_header (t := .initialState) rfl, entries_append_header (t := .labelling) rfl,
    entries_block _ _ hinside.2, entries_header (t := .agentCount) rfl]

/-- The matrix, the names and the labels are read from the lines that can be replaced, the rest from the others. -/
theorem Proper.reads_iff : Reads l.lines m ↔ (∀ e ∈ l.others, Readable e) ∧
    m = { modelOf (linesOf l.others) with
      graph := l.rows.map fun line => (words line).map Cell.ofWord
      states := (l.names.getLast?.map keptWords).getD []
      labels := l.labels.map fun line => (words line).map labelCell } := by
  have hnone : ∀ s ∈ [Section.transition, .stateNames, .labelling],
      linesOf (entries none l.front) s = [] ∧ linesOf (entries (some .unknown) l.unknown) s = [] ∧
        linesOf (entries (some .initialState) l.middle) s = [] ∧ linesOf (entries (some .agentCount) l.back) s = [] := by
    intro s hs
    obtain ⟨hmark, hopen⟩ : title s ∈ marks ∧ s ≠ .unknown ∧ s ≠ .initialState ∧ s ≠ .agentCount := by
      revert s
      decide
    have hapart := h.apart hmark
    exact ⟨linesOf_eq_nil (by simp) hapart.1, linesOf_eq_nil (by simpa using hopen.1.symm) hapart.2.2.1,
      linesOf_eq_nil (by simpa using hopen.2.1.symm) hapart.2.2.2.2.1,
      linesOf_eq_nil (by simpa using hopen.2.2.symm) hapart.2.2.2.2.2.2⟩
  have hfree : ∀ s ∈ [Section.transition, .stateNames, .labelling], ∀ line, Readable (some s, line) := by
    simp [Readable]
  simp only [forall_mem_cons] at hnone hfree
  rw [Reads, h.entries_lines]
  refine and_congr ?_ ?_
  · simp only [others, forall_mem_append, forall_mem_map, hfree, implies_true, true_and]
  · simp [modelOf, others, linesOf_block, hnone]

variable (hrows : ∀ line ∈ rows, Insertable line) (hnames : ∀ line ∈ names, Insertable line)
  (hlabels : ∀ line ∈ labels, Insertable line)

include hrows hnames hlabels

theorem Proper.reads_replace (hm : Reads l.lines m) :
    Reads (lines { l with rows := rows, names := names, labels := labels }) { m with
      graph := rows.map fun line => (words line).map Cell.ofWord
      states := (names.getLast?.map keptWords).getD []
      labels := labels.map fun line => (words line).map labelCell } := by
  have hproper : Proper { l with rows := rows, names := names, labels := labels } :=
    ⟨h.rest, by simpa only [forall_mem_append] using ⟨⟨hrows, hnames⟩, hlabels⟩⟩
  obtain ⟨hread, rfl⟩ := h.reads_iff.1 hm
  exact hproper.reads_iff.2 ⟨hread, rfl⟩

end Replace

/-! ## Lines as they stand in a text -/

def map (f : String → String) (l : Layout) : Layout :=
  ⟨l.front.map f, l.rows.map f, l.unknown.map f, l.names.map f, l.middle.map f, l.labels.map f, l.back.map f⟩

def rawNames (l : Layout) : List String :=
  l.front ++ "Transition\n" :: (l.rows ++ "Unkown_Transition_by\n" :: l.unknown)

def rawLabels (l : Layout) : List String :=
  l.rawNames ++ "Name_State\n" :: (l.names ++ "Initial_State\n" :: l.middle)

/-- The lines with their line ends. -/
def rawLines (l : Layout) : List String :=
  l.rawLabels ++ "Labelling\n" :: (l.labels ++ "Number_of_agents\n" :: l.back)

theorem map_trim_rawLines (l : Layout) : l.rawLines.map trim = (l.map trim).lines := by
  have hmarks : trim "Transition\n" = "Transition" ∧ trim "Unkown_Transition_by\n" = "Unkown_Transition_by" ∧
      trim "Name_State\n" = "Name_State" ∧ trim "Initial_State\n" = "Initial_State" ∧
      trim "Labelling\n" = "Labelling" ∧ trim "Number_of_agents\n" = "Number_of_agents" := by decide
  simp [rawLines, rawLabels, rawNames, lines, map, hmarks]

/-- The layout with other lines, which are given without their ends. -/
def replaced (l : Layout) (rows names labels : List String) : Layout :=
  { l with rows := rows.map (· ++ "\n"), names := names.map (· ++ "\n"), labels := labels.map (· ++ "\n") }

/-- A text in which each of the titles that it is cut at stands once, alone on its line and in their order, and no title
at all among the lines that can be replaced. -/
structure Cuts (l : Layout) (source : String) : Prop where
  lines : Text.lines (unifyLineEnds source) = l.rawLines
  rest : ∀ line ∈ l.front ++ l.unknown ++ l.middle ++ l.back, trim line ∉ marks
  inside : ∀ line ∈ l.rows ++ l.names ++ l.labels, header? .plain (trim line) = none

theorem Proper.cuts (h : l.Proper) : (l.map (· ++ "\n")).Cuts l.text := by
  refine ⟨?_, fun raw hraw => ?_, fun raw hraw => ?_⟩
  · rw [h.lines_text]
    simp [Layout.lines, rawLines, rawLabels, rawNames, map]
  · simp only [map, ← map_append] at hraw
    obtain ⟨line, hline, rfl⟩ := mem_map.1 hraw
    rw [trim_line, (h.rest line hline).2.1]
    exact (h.rest line hline).1
  · simp only [map, ← map_append] at hraw
    obtain ⟨line, hline, rfl⟩ := mem_map.1 hraw
    rw [trim_line, (h.inside line hline).trimmed.1]
    exact (h.inside line hline).noHeader

/-- No line before the last title is one of the titles. -/
def Apart (l : Layout) : Prop := ∀ t, trim t ∈ marks →
  t ∉ l.front ∧ t ∉ l.rows ∧ t ∉ l.unknown ∧ t ∉ l.names ∧ t ∉ l.middle ∧ t ∉ l.labels

section Apart

variable (h : l.Apart) (new : List String)

include h

theorem Apart.replace_rows : replaceBetween "Transition" "Unkown_Transition_by" new l.rawLines =
    .ok (rawLines { l with rows := new }) := by
  simp only [rawLines, rawLabels, rawNames, append_assoc, cons_append]
  exact replaceBetween_eq (by decide) (by decide) (h _ (by decide)).1
    (by simp [h "Unkown_Transition_by\n" (by decide)]) _ _

theorem Apart.replace_names : replaceBetween "Name_State" "Initial_State" new l.rawLines =
    .ok (rawLines { l with names := new }) := by
  simp only [rawLines, rawLabels, append_assoc, cons_append]
  exact replaceBetween_eq (by decide) (by decide) (by simp [rawNames, h "Name_State\n" (by decide)])
    (by simp [rawNames, h "Initial_State\n" (by decide)]) _ _

theorem Apart.replace_labels : replaceBetween "Labelling" "Number_of_agents" new l.rawLines =
    .ok (rawLines { l with labels := new }) :=
  replaceBetween_eq (by decide) (by decide) (by simp [rawLabels, rawNames, h "Labelling\n" (by decide)])
    (by simp [rawLabels, rawNames, h "Number_of_agents\n" (by decide)]) _ _

end Apart

section Cuts

variable (h : l.Cuts source)

include h

theorem Cuts.trimmedLines_eq : trimmedLines source = (l.map trim).lines := by
  rw [trimmedLines, h.lines, map_trim_rawLines]

theorem Cuts.proper : (l.map trim).Proper := by
  have hall : ∀ line ∈ (l.map trim).lines, IsTrimmed line := fun line hline =>
    trimmedLines_spec (h.trimmedLines_eq ▸ hline)
  refine ⟨fun line hline => ⟨?_, hall line ?_⟩, fun line hline => ⟨?_, hall line ?_⟩⟩
  · simp only [map, ← map_append] at hline
    obtain ⟨raw, hraw, rfl⟩ := mem_map.1 hline
    exact h.rest raw hraw
  · simp only [mem_append] at hline
    simp only [Layout.lines, mem_append, mem_cons]
    tauto
  · simp only [map, ← map_append] at hline
    obtain ⟨raw, hraw, rfl⟩ := mem_map.1 hline
    exact h.inside raw hraw
  · simp only [mem_append] at hline
    simp only [Layout.lines, mem_append, mem_cons]
    tauto

theorem Cuts.apart : l.Apart := by
  intro t ht
  have hraw : ∀ {lines : List String}, trim t ∉ lines.map trim → t ∉ lines := fun hnot hmem => hnot (mem_map_of_mem hmem)
  obtain ⟨h₁, h₂, h₃, h₄, h₅, h₆, -⟩ := h.proper.apart ht
  exact ⟨hraw h₁, hraw h₂, hraw h₃, hraw h₄, hraw h₅, hraw h₆⟩

variable (hrows : ∀ line ∈ rows, Insertable line) (hnames : ∀ line ∈ names, Insertable line)
  (hlabels : ∀ line ∈ labels, Insertable line)

include hrows hnames

theorem Cuts.replaceBetween_lines (labels : List String) :
    (do
      let lines ← replaceBetween "Transition" "Unkown_Transition_by" (rows.map (· ++ "\n")) l.rawLines
      let lines ← replaceBetween "Name_State" "Initial_State" (names.map (· ++ "\n")) lines
      replaceBetween "Labelling" "Number_of_agents" (labels.map (· ++ "\n")) lines) =
      .ok (l.replaced rows names labels).rawLines := by
  have hnew : ∀ {lines : List String}, (∀ line ∈ lines, Insertable line) → ∀ {t}, trim t ∈ marks →
      t ∉ lines.map (· ++ "\n") := by
    intro lines hlines t ht hmem
    obtain ⟨line, hline, rfl⟩ := mem_map.1 hmem
    rw [trim_line, (hlines line hline).trimmed.1] at ht
    exact not_mem_marks (hlines line hline) ht
  have hfirst : Apart { l with rows := rows.map (· ++ "\n") } := fun t ht =>
    ⟨(h.apart t ht).1, hnew hrows ht, (h.apart t ht).2.2⟩
  have hsecond : Apart { l with rows := rows.map (· ++ "\n"), names := names.map (· ++ "\n") } := fun t ht =>
    ⟨(h.apart t ht).1, hnew hrows ht, (h.apart t ht).2.2.1, hnew hnames ht, (h.apart t ht).2.2.2.2⟩
  simp only [h.apart.replace_rows, hfirst.replace_names, hsecond.replace_labels, bind, Except.bind, replaced]

include hlabels

theorem Cuts.trimmedLines_replace : trimmedLines (String.join (l.replaced rows names labels).rawLines) =
    Layout.lines { l.map trim with rows := rows, names := names, labels := labels } := by
  have hsplit : ∀ l : Layout, l.rawLines = (l.rawLabels ++ "Labelling\n" :: l.labels) ++
      "Number_of_agents\n" :: l.back := fun l => by simp [rawLines]
  have hsource : linesFrom [] (unifyLineEnds source).toList = l.rawLines.map String.toList := by
    rw [← h.lines, Text.lines]
    simp [Function.comp_def]
  rw [hsplit, map_append] at hsource
  obtain ⟨htail, hfront⟩ := linesFrom_eq_append (by simp) not_mem_nil hsource
  generalize hnew : l.replaced rows names labels = l'
  have hlines : ∀ line ∈ l'.rawLabels ++ "Labelling\n" :: l'.labels,
      line ∈ l.rawLabels ++ "Labelling\n" :: l.labels ∨ ∃ new, Insertable new ∧ new ++ "\n" = line := by
    subst hnew
    simp only [replaced, rawLabels, rawNames]
    grind
  have htext : Text.lines (unifyLineEnds (String.join l'.rawLines)) = l'.rawLines := by
    have hback : l'.back = l.back := hnew ▸ rfl
    rw [hsplit l', hback]
    refine lines_append htail (fun line hline => ?_) fun line hline => ?_
    · rcases hlines line hline with hold | ⟨new, hins, rfl⟩
      · exact hfront _ (mem_map_of_mem hold)
      · exact ⟨new.toList, hins.trimmed.2.1, by simp⟩
    · have hold : ∀ line ∈ l.rawLines, '\r' ∉ line.toList := fun line hline => not_mem_of_mem_lines (h.lines ▸ hline)
      rw [hsplit, forall_mem_append] at hold
      rcases mem_append.1 hline with hline | hline
      · rcases hlines line hline with hline | ⟨new, hins, rfl⟩
        · exact hold.1 line hline
        · simpa using hins.trimmed.2.2
      · exact hold.2 line hline
  have htrim : ∀ {lines : List String}, (∀ line ∈ lines, Insertable line) → (lines.map (· ++ "\n")).map trim = lines := by
    intro lines hall
    rw [map_map]
    exact map_eq_self fun line hline => (trim_line line).trans (hall line hline).trimmed.1
  rw [trimmedLines, htext, map_trim_rawLines, ← hnew]
  simp only [replaced, Layout.map, htrim hrows, htrim hnames, htrim hlabels]

end Cuts

/-! ## Cells and names -/

theorem rowText_text (row : List String) : rowText (row.map Cell.text) = join " " row := by
  rw [rowText, map_map]
  exact congrArg _ (map_id row)

/-- A row of labels that is read back from the line that it is written to. -/
structure IsLabelRow (row : List Cell) : Prop where
  cells : ∀ c ∈ row, IsWord c.write ∧ labelCell c.write = c
  noHeader : header? .plain (rowText row) = none

theorem IsLabelRow.words {row : List Cell} (h : IsLabelRow row) : ∀ w ∈ row.map Cell.write, IsWord w := by
  simpa using fun c hc => (h.cells c hc).1

section Parts

variable {g : List (List String)} (hg : ∀ row ∈ g, (∀ w ∈ row, IsWord w) ∧ header? .plain (join " " row) = none)
  {states : List String} (hs : ∀ q ∈ states, Nameable q) {labels : Matrix} (hl : ∀ row ∈ labels, IsLabelRow row)

include hg in
theorem insertable_rows : ∀ line ∈ (g.map (·.map Cell.text)).map rowText, Insertable line := by
  intro line hline
  rw [map_map] at hline
  obtain ⟨row, hmem, rfl⟩ := mem_map.1 hline
  rw [Function.comp_apply, rowText_text]
  exact ⟨(hg row hmem).2, isLine_join (hg row hmem).1⟩

include hs in
theorem insertable_names : ∀ line ∈ [join " " states], Insertable line := by
  intro line hline
  rw [mem_singleton.1 hline]
  exact insertable_join (fun q hq => (hs q hq).word) fun q hq => (hs q hq).noHeader

include hl in
theorem insertable_labels : ∀ line ∈ labels.map rowText, Insertable line := by
  intro line hline
  obtain ⟨row, hmem, rfl⟩ := mem_map.1 hline
  exact ⟨(hl row hmem).noHeader, isLine_join (hl row hmem).words⟩

include hg hs hl

theorem words_parts :
    ((g.map (·.map Cell.text)).map rowText).map (fun l => (words l).map Cell.ofWord) = g.map (·.map Cell.ofWord) ∧
      ([join " " states].getLast?.map keptWords).getD [] = states ∧
        (labels.map rowText).map (fun l => (words l).map labelCell) = labels := by
  refine ⟨?_, keptWords_join hs, ?_⟩
  · rw [map_map, map_map]
    refine map_congr_left fun row hrow => ?_
    rw [Function.comp_apply, Function.comp_apply, rowText_text, words_join (hg row hrow).1]
  · rw [map_map]
    refine map_eq_self fun row hrow => ?_
    rw [Function.comp_apply, rowText, words_join (hl row hrow).words, map_map]
    exact map_eq_self fun c hc => ((hl row hrow).cells c hc).2

/-- A text with another matrix of words, other names and other labels is read as the model with these parts. -/
theorem Cuts.load_withStates (h : l.Cuts source) (hm : load .plain source = .ok m) :
    ∃ text, withStates source (g.map (·.map Cell.text)) states (.ok labels) = .ok text ∧
      load .plain text = .ok { m with graph := g.map (·.map Cell.ofWord), states := states, labels := labels } := by
  have hrows := insertable_rows hg
  have hnames := insertable_names hs
  have hlabels := insertable_labels hl
  have hends : ∀ g : Matrix, g.map (fun row => rowText row ++ "\n") = (g.map rowText).map (· ++ "\n") := by
    simp
  obtain ⟨lines₁, h₁, hparts⟩ := bind_eq_ok.1 (h.replaceBetween_lines hrows hnames (labels.map rowText))
  obtain ⟨lines₂, h₂, h₃⟩ := bind_eq_ok.1 hparts
  rw [map_singleton] at h₂
  have hreads := h.proper.reads_replace hrows hnames hlabels (h.trimmedLines_eq ▸ load_eq_ok.1 hm)
  obtain ⟨hgraph, hstates, hlabelRows⟩ := words_parts hg hs hl
  rw [hgraph, hstates, hlabelRows, ← h.trimmedLines_replace hrows hnames hlabels] at hreads
  refine ⟨_, ?_, load_eq_ok.2 hreads⟩
  unfold withStates
  simp only [h.lines, hends, h₁, h₂, h₃, bind, Except.bind, pure, Except.pure]

end Parts

end Layout

end Arena.Model
