/-
Another matrix written into a model text. The rows behind the title of the matrix are replaced, and the line behind them
becomes the title of the unknown transitions, whatever it was. So the text is read back as the model with the new
matrix, without the section behind the matrix.
-/
import Arena.Proofs.Model.Fields

namespace Arena

variable {c : Cell} {line : String}

/-- A cell that is no transition or a word. -/
def Cell.IsEntry : Cell → Prop
  | .num n => n = 0
  | .text w => Text.IsWord w

instance : DecidablePred Cell.IsEntry
  | .num n => inferInstanceAs (Decidable (n = 0))
  | .text w => inferInstanceAs (Decidable (Text.IsWord w))

theorem Cell.IsEntry.isWord (h : c.IsEntry) : Text.IsWord c.write := by
  cases c with
  | num n =>
    cases (show n = 0 from h)
    decide
  | text w => exact h

theorem Cell.Written.isEntry (h : c.Written) : c.IsEntry := by
  cases c with
  | num n =>
    have hback := h.2
    unfold ofWord at hback
    split at hback <;> cases hback
    rfl
  | text w => exact h.1

theorem Cell.IsEntry.ofWord_write_iff (h : c.IsEntry) : ofWord c.write = c ↔ c ≠ .text "0" := by
  cases c with
  | num n =>
    cases (show n = 0 from h)
    decide
  | text w =>
    unfold ofWord write
    by_cases hw : w = "0" <;> simp [hw]

end Arena

namespace Arena.Model

open List Text

variable {before after lines rows : List String} {s : Section} {g : Matrix} {m : Model}

/-! ## Lines up to the next title -/

theorem entries_eq (o : Option Section) : ∀ lines : List String,
    entries o lines = (lines.takeWhile fun l => (header? .plain l).isNone).map (o, ·) ++
      entries none (lines.dropWhile fun l => (header? .plain l).isNone)
  | [] => rfl
  | line :: lines => by
    cases hl : header? .plain line with
    | some t => simp [entries, hl]
    | none =>
      have ih := entries_eq o lines
      simp [entries, hl, ih]

theorem linesOf_entries (o : Option Section) (lines : List String) (s : Section) :
    linesOf (entries o lines) s =
      (if o = some s then lines.takeWhile fun l => (header? .plain l).isNone else []) ++
        linesOf (entries none (lines.dropWhile fun l => (header? .plain l).isNone)) s := by
  rw [entries_eq, linesOf_append]
  congr 1
  by_cases h : o = some s
  · subst h
    rw [linesOf_block, if_pos rfl, if_pos rfl]
  · rw [if_neg h, eq_nil_iff_forall_not_mem]
    intro line hline
    obtain ⟨_, -, heq⟩ := mem_map.1 (mem_linesOf.1 hline)
    exact h (Prod.mk.inj heq).1

theorem length_linesOf_le (s : Section) : ∀ (o : Option Section) (lines : List String),
    (linesOf (entries o lines) s).length ≤ (lines.filter fun l => (header? .plain l).isNone).length
  | _, [] => by simp [entries]
  | o, line :: lines => by
    cases hl : header? .plain line with
    | some t =>
      have ih := length_linesOf_le s (some t) lines
      rw [entries_header hl, filter_cons_of_neg (by simp [hl])]
      exact ih
    | none =>
      have ih := length_linesOf_le s o lines
      rw [filter_cons_of_pos (by simp [hl])]
      simp only [entries, hl]
      have hsplit := linesOf_append [(o, line)] (entries o lines) s
      rw [singleton_append, linesOf_singleton] at hsplit
      rw [hsplit]
      split <;> simp <;> omega

theorem linesOf_untitled (h : ∀ line ∈ lines, header? .plain line = none) : linesOf (entries (some s) lines) s = lines := by
  have hblock := entries_block (some s) [] h
  rw [append_nil, entries, append_nil] at hblock
  rw [hblock, linesOf_block, if_pos rfl]

theorem dropWhile_ne_title (h : title s ∉ lines) : lines.dropWhile (· ≠ title s) = [] := by
  rw [dropWhile_eq_nil_iff]
  exact fun line hline => decide_eq_true fun heq => h (heq ▸ hline)

/-! ## Texts with one title for each section -/

/-- Lines with at most one title for each section. -/
def TitledOnce (lines : List String) : Prop := (lines.filter fun l => (header? .plain l).isSome).Nodup

instance (lines : List String) : Decidable (TitledOnce lines) := inferInstanceAs (Decidable (Nodup _))

theorem TitledOnce.not_mem (h : TitledOnce (before ++ line :: after))
    (hl : header? .plain line = some s) : line ∉ before ∧ line ∉ after := by
  unfold TitledOnce at h
  rw [filter_append, filter_cons_of_pos (by simp [hl]), nodup_append] at h
  obtain ⟨-, hafter, hdisjoint⟩ := h
  have hmem : ∀ {ls : List String}, line ∈ ls → line ∈ ls.filter fun l => (header? .plain l).isSome := fun hin =>
    mem_filter.2 ⟨hin, by simp [hl]⟩
  exact ⟨fun hin => hdisjoint line (hmem hin) line mem_cons_self rfl,
    fun hin => (nodup_cons.1 hafter).1 (hmem hin)⟩

/-- The section that stands behind the matrix; if there is none, that of the unknown transitions. -/
def behindMatrix (lines : List String) : Section :=
  ((lines.dropWhile (· ≠ title .transition)).tail.findSome? (header? .plain)).getD .unknown

/-- The lines around the rows of the matrix, if there is a matrix. -/
theorem TitledOnce.exists_block (h : TitledOnce lines) (hmem : title .transition ∈ lines) :
    ∃ before rows after, Block lines .transition before rows after := by
  obtain ⟨before, rest, rfl⟩ := append_of_mem hmem
  have hapart := h.not_mem (s := .transition) rfl
  refine ⟨before, rest.takeWhile fun l => (header? .plain l).isNone,
    rest.dropWhile fun l => (header? .plain l).isNone, ?_, hapart.1, ?_, ?_, ?_⟩
  · rw [takeWhile_append_dropWhile]
  · exact fun hin => hapart.2 ((dropWhile_sublist _).subset hin)
  · intro line hline
    simpa using mem_takeWhile_imp hline
  · intro line hline hnone
    have := head?_dropWhile_not (fun l => (header? .plain l).isNone) rest
    rw [Option.mem_def.1 hline] at this
    simp [hnone] at this

theorem Block.behindMatrix_eq (h : Block lines .transition before rows after) :
    behindMatrix lines = (after.head?.bind (header? .plain)).getD .unknown := by
  have hrows : rows.findSome? (header? .plain) = none := findSome?_eq_none_iff.2 h.inside
  have hafter : after.findSome? (header? .plain) = after.head?.bind (header? .plain) := by
    cases after with
    | nil => rfl
    | cons line after =>
      obtain ⟨s, hs⟩ := Option.ne_none_iff_exists'.1 (h.next line rfl)
      simp [hs]
  unfold behindMatrix
  rw [h.eq, dropWhile_append, dropWhile_ne_title h.notBefore]
  simp [findSome?_append, hrows, hafter]

/-! ## What is written -/

/-- The lines behind the matrix as they are written: the first one becomes the title of the unknown transitions. -/
def retitled : List String → List String
  | [] => []
  | _ :: rest => title .unknown :: rest

theorem Block.replaceRows_eq (h : Block lines .transition before rows after) (hlen : g.length = rows.length) :
    replaceRows false g lines = before ++ title .transition :: (g.map rowText ++ retitled after) := by
  have hrows : title .transition ∉ rows := fun hmem => by
    have := h.inside _ hmem
    cases this
  have hafter : replaceRows true [] after = retitled after := by
    have hnot := h.notAfter
    cases after with
    | nil => rfl
    | cons line after =>
      rw [mem_cons, not_or] at hnot
      have hline : line ≠ "Transition" := Ne.symm hnot.1
      have hrest : replaceRows false [] after = after := by
        simpa [replaceRows] using replaceRows_outside [] [] hnot.2
      simp [replaceRows, hline, hrest, retitled, title]
  rw [h.eq, replaceRows_outside g _ h.notBefore, replaceRows_title, replaceRows_inside after hlen hrows, hafter]

/-- A matrix of which no cell is the text of the number zero and no row is a title. -/
def Legible (g : Matrix) : Prop :=
  ∀ row ∈ g, (∀ c ∈ row, c ≠ .text "0") ∧ header? .plain (rowText row) = none

instance (g : Matrix) : Decidable (Legible g) := inferInstanceAs (Decidable (∀ _ ∈ _, _))

section Rows

variable (hg : ∀ row ∈ g, ∀ c ∈ row, c.IsEntry)

include hg

theorem words_rows : (g.map rowText).map (fun l => (words l).map Cell.ofWord) =
    g.map fun row => row.map fun c => Cell.ofWord c.write := by
  rw [map_map]
  refine map_congr_left fun row hrow => ?_
  have hwords : words (rowText row) = row.map Cell.write := words_join fun w hw => by
    obtain ⟨c, hc, rfl⟩ := mem_map.1 hw
    exact (hg row hrow c hc).isWord
  rw [Function.comp_apply, hwords, map_map]
  rfl

theorem words_rows_eq_iff : (g.map rowText).map (fun l => (words l).map Cell.ofWord) = g ↔
    ∀ row ∈ g, ∀ c ∈ row, c ≠ .text "0" := by
  rw [words_rows hg]
  conv_lhs => rhs; rw [← map_id g]
  rw [map_inj_left]
  refine forall₂_congr fun row hrow => ?_
  conv_lhs => rhs; rw [id, ← map_id row]
  rw [map_inj_left]
  exact forall₂_congr fun c hc => (hg row hrow c hc).ofWord_write_iff

theorem trimmed_rows : ∀ line ∈ g.map rowText, Text.IsTrimmed line := by
  intro line hline
  obtain ⟨row, hrow, rfl⟩ := mem_map.1 hline
  exact trimmed_rowText fun c hc => (hg row hrow c hc).isWord

end Rows

/-! ## What is read back -/

/-- A model without what a section gives. -/
def cleared (m : Model) : Section → Model
  | .transition => { m with graph := [] }
  | .stateNames => { m with states := [] }
  | .initialState => { m with initial := "" }
  | .propositions => { m with props := [] }
  | .labelling => { m with labels := [] }
  | .agentCount => { m with agents := .text "" }
  | .resource => { m with resource := 0 }
  | .actionCosts => { m with actionCosts := [] }
  | _ => m

theorem modelOf_cleared {f f' : Section → List String} (hs : s ≠ .transition)
    (hgraph : (f' .transition).map (fun l => (words l).map Cell.ofWord) = g)
    (hrest : ∀ t, t ≠ .transition → t ≠ .unknown → f' t = if t = s then [] else f t) :
    modelOf f' = ({ modelOf f with graph := g } : Model).cleared s := by
  have hnames := hrest .stateNames (by decide) (by decide)
  have hinitial := hrest .initialState (by decide) (by decide)
  have hprops := hrest .propositions (by decide) (by decide)
  have hlabels := hrest .labelling (by decide) (by decide)
  have hagents := hrest .agentCount (by decide) (by decide)
  have hresource := hrest .resource (by decide) (by decide)
  have hcosts := hrest .actionCosts (by decide) (by decide)
  unfold modelOf
  rw [hgraph, hnames, hinitial, hprops, hlabels, hagents, hresource, hcosts]
  cases s with
  | transition => exact absurd rfl hs
  | _ => rfl

theorem readable_iff {es : List (Option Section × String)} : (∀ e ∈ es, Readable e) ↔
    ∀ s ∈ [Section.agentCount, Section.resource], ∀ line ∈ linesOf es s, (readInt? line).isSome = true := by
  constructor
  · intro h s hs line hline
    have hread : Readable (some s, line) := h _ (mem_linesOf.1 hline)
    exact hread (by simpa using hs)
  · rintro h ⟨t, line⟩ he (rfl | rfl)
    · exact h .agentCount (by simp) line (mem_linesOf.2 he)
    · exact h .resource (by simp) line (mem_linesOf.2 he)

section Written

variable (hb : Block lines .transition before rows after)

include hb

/-- The matrix that is read back has the rows that are written, up to the first that is a title. -/
theorem Block.written_rows (new : List String) :
    linesOf (entries none (before ++ title .transition :: (new ++ retitled after))) .transition =
      linesOf (entries (some .transition) new) .transition := by
  have hfront : linesOf (entries none before) .transition = [] := linesOf_eq_nil (by simp) hb.notBefore
  have hnot := hb.notAfter
  rw [entries_append_header (header?_title_of_mem (by decide)), linesOf_append, hfront, nil_append]
  cases after with
  | nil => rw [retitled, append_nil]
  | cons line after =>
    have hrest : linesOf (entries (some .unknown) after) .transition = [] :=
      linesOf_eq_nil (by simp) (fun hmem => hnot (mem_cons_of_mem line hmem))
    rw [retitled, entries_append_header (t := .unknown) rfl, linesOf_append, hrest, append_nil]

/-- The other sections keep their lines, but for the one behind the matrix. -/
theorem Block.written_lines (hone : TitledOnce lines) {new : List String}
    (hnew : ∀ line ∈ new, header? .plain line = none) {t : Section} (ht : t ≠ .transition) (hu : t ≠ .unknown) :
    linesOf (entries none (before ++ title .transition :: (new ++ retitled after))) t =
      if t = behindMatrix lines then [] else linesOf (entries none lines) t := by
  have hblock : ∀ block : List String, linesOf (block.map (some .transition, ·)) t = [] := fun block => by
    rw [linesOf_block, if_neg (Ne.symm ht)]
  rw [hb.behindMatrix_eq, hb.eq, entries_append_header (header?_title_of_mem (by decide)),
    entries_append_header (header?_title_of_mem (by decide)), entries_block _ _ hnew, entries_block _ _ hb.inside]
  simp only [linesOf_append, hblock]
  cases after with
  | nil => simp [retitled, hu]
  | cons line after =>
    obtain ⟨s, hs⟩ := Option.ne_none_iff_exists'.1 (hb.next line rfl)
    -- the section behind the matrix has no other title, so that it has no lines left
    have honce : TitledOnce ((before ++ title .transition :: rows) ++ line :: after) := by
      simpa [hb.eq] using hone
    have hapart := honce.not_mem hs
    have hgone : ∀ o ≠ some s, linesOf (entries o after) s = [] := fun o ho =>
      linesOf_eq_nil ho (eq_title hs ▸ hapart.2)
    have hfront : linesOf (entries none before) s = [] :=
      linesOf_eq_nil (by simp) fun hmem => hapart.1 (eq_title hs ▸ mem_append_left _ hmem)
    rw [retitled, entries_header hs, entries_header (rfl : header? .plain (title .unknown) = some .unknown)]
    simp only [head?_cons, Option.bind_some, hs, Option.getD_some]
    by_cases hts : t = s
    · subst hts
      rw [if_pos rfl, hfront, hgone _ (by simpa using Ne.symm hu)]
      rfl
    · rw [if_neg hts, linesOf_entries (some .unknown), linesOf_entries (some s),
        if_neg (by simpa using Ne.symm hu), if_neg (by simpa using Ne.symm hts)]

theorem Block.behindMatrix_ne : behindMatrix lines ≠ .transition := by
  rw [hb.behindMatrix_eq]
  have hnot := hb.notAfter
  cases after with
  | nil => simp
  | cons line after =>
    obtain ⟨s, hs⟩ := Option.ne_none_iff_exists'.1 (hb.next line rfl)
    rw [head?_cons, Option.bind_some, hs]
    rintro rfl
    exact hnot (eq_title hs ▸ mem_cons_self)

end Written

theorem unchanged_of_not_mem (h : title .transition ∉ lines) (g : Matrix) :
    replaceRows false g lines = lines ∧ behindMatrix lines = .unknown ∧
      linesOf (entries none lines) .transition = [] := by
  refine ⟨?_, ?_, linesOf_eq_nil (by simp) h⟩
  · have hout := replaceRows_outside g [] h
    rwa [append_nil, replaceRows, append_nil] at hout
  · unfold behindMatrix
    rw [dropWhile_ne_title h]
    rfl

theorem mem_replaceRows (inside : Bool) (g : Matrix) (lines : List String)
    (h : line ∈ replaceRows inside g lines) : line ∈ lines ∨ line ∈ g.map rowText ∨ line = title .unknown := by
  fun_induction replaceRows inside g lines <;> simp_all [title] <;> grind

section Rewriting

variable (hm : Reads lines m) (hone : TitledOnce lines) (hlen : g.length = m.graph.length)
  (hg : ∀ row ∈ g, ∀ c ∈ row, c.IsEntry)

include hm hone hlen

theorem exists_written (hmem : title .transition ∈ lines) : ∃ before rows after, Block lines .transition before rows after ∧
    replaceRows false g lines = before ++ title .transition :: (g.map rowText ++ retitled after) := by
  obtain ⟨before, rows, after, hb⟩ := hone.exists_block hmem
  refine ⟨before, rows, after, hb, hb.replaceRows_eq ?_⟩
  rw [hlen, (hb.reads hb hm).1, length_map]

include hg

theorem reads_replaceRows (h : Legible g) :
    Reads (replaceRows false g lines) (({ m with graph := g } : Model).cleared (behindMatrix lines)) := by
  have ⟨hread, hmodel⟩ := hm
  subst hmodel
  by_cases hmem : title .transition ∈ lines
  · obtain ⟨before, rows, after, hb, hwritten⟩ := exists_written hm hone hlen hmem
    have hnew : ∀ line ∈ g.map rowText, header? .plain line = none := by
      intro line hline
      obtain ⟨row, hrow, rfl⟩ := mem_map.1 hline
      exact (h row hrow).2
    have hlines := fun t => hb.written_lines hone hnew (t := t)
    rw [hwritten]
    constructor
    · rw [readable_iff] at hread ⊢
      intro s hs line hline
      have hmain : s ≠ .transition ∧ s ≠ .unknown := by
        rcases mem_pair.1 hs with rfl | rfl <;> decide
      rw [hlines s hmain.1 hmain.2] at hline
      split at hline
      · cases hline
      · exact hread s hs line hline
    · refine (modelOf_cleared hb.behindMatrix_ne ?_ hlines).symm
      rw [hb.written_rows, linesOf_untitled hnew]
      exact (words_rows_eq_iff hg).2 fun row hrow => (h row hrow).1
  · obtain ⟨hsame, hbehind, hnone⟩ := unchanged_of_not_mem hmem g
    have hempty : (modelOf (linesOf (entries none lines))).graph = [] := by
      simp [modelOf, hnone]
    have hgraph : g = [] := by
      rwa [hempty, length_nil, length_eq_zero_iff] at hlen
    rw [hsame, hbehind, hgraph, ← hempty]
    exact hm

theorem legible_of_reads (h : Reads (replaceRows false g lines) { m with graph := g }) : Legible g := by
  by_cases hmem : title .transition ∈ lines
  · obtain ⟨before, rows, after, hb, hwritten⟩ := exists_written hm hone hlen hmem
    rw [hwritten] at h
    have hgraph : g = (linesOf (entries (some .transition) (g.map rowText)) .transition).map
        fun l => (words l).map Cell.ofWord := by
      rw [← hb.written_rows]
      exact congrArg graph h.2
    -- as many rows are read as are written, so that none of them is a title
    have hall : ∀ line ∈ g.map rowText, header? .plain line = none := by
      have hle := length_linesOf_le .transition (some .transition) (g.map rowText)
      have hcount : g.length = (linesOf (entries (some .transition) (g.map rowText)) .transition).length := by
        simpa using congrArg length hgraph
      rw [← hcount] at hle
      have heq := le_antisymm (length_filter_le _ (g.map rowText)) (by simpa using hle)
      simpa using length_filter_eq_length_iff.1 heq
    rw [linesOf_untitled hall] at hgraph
    have hcells := (words_rows_eq_iff hg).1 hgraph.symm
    exact fun row hrow => ⟨hcells row hrow, hall _ (mem_map_of_mem hrow)⟩
  · have hempty : m.graph = [] := by
      rw [hm.2, modelOf, (unchanged_of_not_mem hmem g).2.2]
      rfl
    rw [hempty, length_nil, length_eq_zero_iff] at hlen
    subst hlen
    exact fun row hrow => absurd hrow not_mem_nil

end Rewriting

theorem cleared_graph (hs : s ≠ .transition) (m : Model) (g : Matrix) :
    ({ m with graph := g } : Model).cleared s = { m with graph := g } ↔ m.cleared s = m := by
  have hcomm : ({ m with graph := g } : Model).cleared s = { m.cleared s with graph := g } := by
    cases s <;> first | rfl | exact absurd rfl hs
  have hkeep : { m.cleared s with graph := m.graph } = m.cleared s := by
    cases s <;> first | rfl | exact absurd rfl hs
  rw [hcomm]
  constructor
  · intro h
    rw [← hkeep]
    exact congrArg (fun x : Model => { x with graph := m.graph }) h
  · exact congrArg fun x : Model => { x with graph := g }

theorem exists_withMatrix (source : String) (hg : ∀ row ∈ g, ∀ c ∈ row, c.IsEntry) :
    ∃ text, withMatrix source (some g) = .ok text ∧
      trimmedLines text = replaceRows false g (trimmedLines source) := by
  refine ⟨_, rfl, trimmedLines_join fun line hline => ?_⟩
  rcases mem_replaceRows false g (trimmedLines source) hline with h | h | rfl
  · exact trimmedLines_spec h
  · exact trimmed_rows hg line h
  · decide

/-- A text with another matrix of as many rows is read as the model with that matrix, if the section of the unknown
transitions stands behind the matrix. -/
theorem load_withMatrix {source : String} (hm : load .plain source = .ok m)
    (hb : Block (trimmedLines source) .transition before rows after)
    (hnext : ∀ line ∈ after.head?, line = title .unknown) (hlen : g.length = m.graph.length)
    (hw : ∀ row ∈ g, ∀ c ∈ row, c.Written) (hh : ∀ row ∈ g, header? .plain (rowText row) = none) :
    ∃ text, withMatrix source (some g) = .ok text ∧ load .plain text = .ok { m with graph := g } := by
  rw [load_eq_ok] at hm
  have hafter : retitled after = after := by
    cases after with
    | nil => rfl
    | cons line after => rw [retitled, hnext line rfl]
  have hg : ∀ row ∈ g, ∀ c ∈ row, c.IsEntry := fun row hrow c hc => (hw row hrow c hc).isEntry
  obtain ⟨text, htext, hlines⟩ := exists_withMatrix source hg
  rw [hb.replaceRows_eq (by rw [hlen, (hb.reads hb hm).1, length_map]), hafter] at hlines
  have hblock : Block (trimmedLines text) .transition before (g.map rowText) after :=
    ⟨hlines, hb.notBefore, hb.notAfter, forall_mem_map.2 hh, hb.next⟩
  have hgraph := (words_rows_eq_iff hg).2 fun row hrow c hc =>
    (hg row hrow c hc).ofWord_write_iff.1 (hw row hrow c hc).2
  have hreads := (hb.reads hblock hm).2
  rw [hgraph] at hreads
  exact ⟨text, htext, load_eq_ok.2 hreads⟩

/-- Let a text with at most one title for each section be read as a model, and let another matrix with as many rows be
written into it. If the matrix is legible, the text is read back as the model with this matrix, but without the section
that stood behind the matrix. So the rest of the model is kept exactly if the matrix is legible and the section behind
it gives nothing: there is none, or it is that of the unknown transitions, or the model has nothing of it. -/
theorem load_withMatrix_iff {source : String} {m : Model} (hm : load .plain source = .ok m)
    (hone : TitledOnce (trimmedLines source)) {g : Matrix} (hlen : g.length = m.graph.length)
    (hg : ∀ row ∈ g, ∀ c ∈ row, c.IsEntry) :
    ∃ text, withMatrix source (some g) = .ok text ∧
      (Legible g → load .plain text =
        .ok (({ m with graph := g } : Model).cleared (behindMatrix (trimmedLines source)))) ∧
      (load .plain text = .ok { m with graph := g } ↔
        Legible g ∧ m.cleared (behindMatrix (trimmedLines source)) = m) := by
  obtain ⟨text, htext, hlines⟩ := exists_withMatrix source hg
  rw [load_eq_ok] at hm
  have hne : behindMatrix (trimmedLines source) ≠ .transition := by
    by_cases hmem : title .transition ∈ trimmedLines source
    · obtain ⟨_, _, _, hb⟩ := hone.exists_block hmem
      exact hb.behindMatrix_ne
    · rw [(unchanged_of_not_mem hmem g).2.1]
      decide
  have hback : Legible g → load .plain text =
      .ok (({ m with graph := g } : Model).cleared (behindMatrix (trimmedLines source))) := by
    intro h
    rw [load_eq_ok, hlines]
    exact reads_replaceRows hm hone hlen hg h
  refine ⟨text, htext, hback, fun h => ?_, ?_⟩
  · have hleg : Legible g := by
      rw [load_eq_ok, hlines] at h
      exact legible_of_reads hm hone hlen hg h
    refine ⟨hleg, (cleared_graph hne m g).1 ?_⟩
    rw [hback hleg] at h
    exact Except.ok.inj h
  · rintro ⟨hleg, hsame⟩
    rw [hback hleg, (cleared_graph hne m g).2 hsame]

/-! ## A text without unknown transitions -/

/-- Two states and one agent, with the names of the states right behind the matrix. -/
def switchLines : List String :=
  ["Transition", "I A", "A I", "Name_State", "off on", "Initial_State", "off", "Atomic_propositions", "lit", "Labelling",
    "0", "1", "Number_of_agents", "1"]

def switchText : String := String.join (switchLines.map (· ++ "\n"))

def switchModel : Model where
  graph := [[.text "I", .text "A"], [.text "A", .text "I"]]
  states := ["off", "on"]
  props := ["lit"]
  labels := [[.num 0], [.num 1]]
  initial := "off"
  agents := .number 1

theorem lines_switch : trimmedLines switchText = switchLines := trimmedLines_join (by decide)

theorem load_switch : load .plain switchText = .ok switchModel :=
  load_of_lines lines_switch (by decide) (by decide) (by decide)

/-- The matrix of the switch with the move of the second state dropped. -/
def stuckMatrix : Matrix := [[.text "I", .text "A"], [.zero, .text "I"]]

theorem load_withMatrix_switch : ∃ text, withMatrix switchText (some stuckMatrix) = .ok text ∧
    load .plain text = .ok { switchModel with graph := stuckMatrix, states := [] } ∧
    load .plain text ≠ .ok { switchModel with graph := stuckMatrix } := by
  have hbehind : behindMatrix (trimmedLines switchText) = .stateNames := by
    rw [lines_switch]
    decide
  obtain ⟨text, htext, hback, hiff⟩ := load_withMatrix_iff load_switch (by rw [lines_switch]; decide)
    (g := stuckMatrix) rfl (by decide)
  rw [hbehind] at hback hiff
  refine ⟨text, htext, hback (by decide), fun h => ?_⟩
  exact absurd (hiff.1 h).2 (by decide)

/-- Writing the matrix that was read into the text of the switch loses the names of the states. -/
theorem states_lost_by_withMatrix : ∃ text, withMatrix switchText (some switchModel.graph) = .ok text ∧
    load .plain switchText = .ok switchModel ∧ load .plain text = .ok { switchModel with states := [] } := by
  refine ⟨_, rfl, load_switch, ?_⟩
  change load .plain (String.join ((replaceRows false switchModel.graph (trimmedLines switchText)).map (· ++ "\n"))) = _
  rw [lines_switch]
  exact load_of_lines (trimmedLines_join (by decide)) (by decide) (by decide)
    (by decide)

end Arena.Model
