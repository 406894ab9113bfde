/-
Model texts by sections. What a line adds to a model depends on its section, and lines of different sections add to
different parts. So when the lines of the matrix, the names or the labels are replaced, what is read differs in that
part only.
-/
import Arena.Model.Reader
import Arena.Model.Update
import Arena.Proofs.Text.Lines

/-- A cell that is read back from what is written of it. -/
def Arena.Cell.Written (c : Cell) : Prop := Text.IsWord c.write ∧ ofWord c.write = c

namespace Arena.Model

open Text List Model.Draft

variable {line source : String} {s : Section} {before after lines : List String} {m : Model} {ws : List String}
  {row : List Cell} {t : Section} {kind : Kind}

/-! ## Lines with their sections -/

/-- The line that opens a section of a plain model. -/
def title : Section → String
  | .transition => "Transition"
  | .unknown => "Unkown_Transition_by"
  | .stateNames => "Name_State"
  | .initialState => "Initial_State"
  | .propositions => "Atomic_propositions"
  | .labelling => "Labelling"
  | .agentCount => "Number_of_agents"
  | .resource => "Resource"
  | .actionCosts => "Actions_Costs_from_Transition"
  | _ => ""

theorem eq_title (h : header? .plain line = some s) : line = title s := by
  unfold header? at h
  split at h
  all_goals try (cases h; rfl)
  split at h
  all_goals first | (cases h; rfl) | contradiction

theorem words_title (h : header? .plain line = some s) : words line = [line] ∧ split "," line = [line] := by
  rw [eq_title h]
  rw [eq_title h] at h
  cases s <;> first | decide | (exact absurd h (by decide))

/-- The lines that are no headers, each with the section that is open at it. -/
def entries : Option Section → List String → List (Option Section × String)
  | _, [] => []
  | s, line :: rest =>
    match header? .plain line with
    | some t => entries (some t) rest
    | none => (s, line) :: entries s rest

theorem entries_header (h : header? .plain line = some t) (s : Option Section) (rest : List String) :
    entries s (line :: rest) = entries (some t) rest := by
  simp only [entries, h]

theorem entries_block (s : Option Section) (rest : List String) : ∀ {block : List String},
    (∀ line ∈ block, header? .plain line = none) →
      entries s (block ++ rest) = block.map (s, ·) ++ entries s rest
  | [], _ => rfl
  | line :: block, h => by
    obtain ⟨hline, hblock⟩ := forall_mem_cons.1 h
    rw [cons_append, entries, hline, entries_block s rest hblock]
    rfl

theorem entries_append_header (h : header? .plain line = some t) (rest : List String) :
    ∀ (before : List String) (s : Option Section),
      entries s (before ++ line :: rest) = entries s before ++ entries (some t) rest
  | [], s => entries_header h s rest
  | l :: before, s => by
    have ih := entries_append_header h rest before
    rw [cons_append, entries, entries]
    cases header? .plain l with
    | some u => exact ih (some u)
    | none => rw [ih s]; rfl

theorem title_mem_of_entries : ∀ {lines : List String} {open? : Option Section},
    (some s, line) ∈ entries open? lines → open? = some s ∨ title s ∈ lines
  | [], _, h => by cases h
  | l :: lines, open?, h => by
    rw [entries] at h
    cases hl : header? .plain l with
    | some t =>
      rw [hl] at h
      rcases title_mem_of_entries h with ht | ht
      · cases ht
        exact .inr (eq_title hl ▸ mem_cons_self)
      · exact .inr (mem_cons_of_mem l ht)
    | none =>
      rw [hl] at h
      rcases mem_cons.1 h with h | h
      · cases h
        exact .inl rfl
      · exact (title_mem_of_entries h).imp_right (mem_cons_of_mem l)

/-! ## Texts -/

def start : Draft := { model := { agents := .text "" } }

theorem read_eq (kind : Kind) (source : String) : read kind source =
    match start.addAll kind (trimmedLines source) with
    | (d, some f) => (d.model, some f)
    | (d, none) => d.finish kind := by
  unfold read start trimmedLines
  split <;> simp_all

theorem load_of_lines (hlines : trimmedLines source = lines) (hadd : (start.addAll kind lines).2.isNone = true)
    (hfinish : ((start.addAll kind lines).1.finish kind).2.isNone = true)
    (hm : ((start.addAll kind lines).1.finish kind).1 = m) : load kind source = .ok m := by
  unfold load
  rw [read_eq, hlines]
  rcases hd : start.addAll kind lines with ⟨d, _ | f⟩
  · rw [hd] at hfinish hm
    simp only at hfinish hm ⊢
    rcases hf : d.finish kind with ⟨m', _ | f⟩
    · rw [hf] at hm
      rw [← hm]
    · rw [hf] at hfinish
      cases hfinish
  · rw [hd] at hadd
    cases hadd

/-- What is read from a text that is given by its lines, where all of it can be computed. -/
theorem load_join (hlines : ∀ l ∈ lines, IsTrimmed l)
    (hread : (start.addAll kind lines).2.isNone = true ∧ ((start.addAll kind lines).1.finish kind).2.isNone = true ∧
      ((start.addAll kind lines).1.finish kind).1 = m) : load kind (String.join (lines.map (· ++ "\n"))) = .ok m :=
  load_of_lines (trimmedLines_join hlines) hread.1 hread.2.1 hread.2.2

/-! ## The lines of a section -/

def plainSections : List Section :=
  [.transition, .unknown, .stateNames, .initialState, .propositions, .labelling, .agentCount, .resource, .actionCosts]

theorem mem_plainSections (h : header? .plain line = some s) : s ∈ plainSections := by
  have hline := eq_title h
  subst hline
  cases s <;> first | decide | (exact absurd h (by decide))

theorem header?_eq_none (h : ∀ s ∈ plainSections, line ≠ title s) : header? .plain line = none := by
  rw [← Option.not_isSome_iff_eq_none, Option.isSome_iff_exists]
  rintro ⟨s, hs⟩
  exact h s (mem_plainSections hs) (eq_title hs)

theorem kept_eq_self {w : String} (h : '\x00' ∉ w.toList) : kept w = w := by
  have hdrop : w.toList.reverse.dropWhile (· == '\x00') = w.toList.reverse := by
    rw [dropWhile_eq_self_iff]
    intro hpos
    rw [beq_iff_eq]
    exact fun heq => h (mem_reverse.1 (heq ▸ getElem_mem hpos))
  unfold kept dropRight
  rw [hdrop, reverse_reverse, String.ofList_toList]

theorem isWord_of_chars (cs : List Char) {w : String} (hcs : (∀ c ∈ cs, isBlank c = false ∧ c ≠ '\x00') ∧
    ∀ s ∈ plainSections, ¬ ∀ c ∈ (title s).toList, c ∈ cs) (hne : w ≠ "") (h : ∀ c ∈ w.toList, c ∈ cs) :
    IsWord w ∧ kept w = w ∧ header? .plain w = none :=
  ⟨⟨hne, fun c hc => (hcs.1 c (h c hc)).1⟩, kept_eq_self fun hnul => (hcs.1 _ (h _ hnul)).2 rfl,
    header?_eq_none fun s hs heq => hcs.2 s hs (heq ▸ h)⟩

def linesOf (es : List (Option Section × String)) (s : Section) : List String :=
  es.filterMap fun e => if e.1 = some s then some e.2 else none

@[simp] theorem linesOf_nil (s : Section) : linesOf [] s = [] := rfl

@[simp] theorem linesOf_append (es fs : List (Option Section × String)) (s : Section) :
    linesOf (es ++ fs) s = linesOf es s ++ linesOf fs s := filterMap_append

@[simp] theorem linesOf_singleton (e : Option Section × String) (s : Section) :
    linesOf [e] s = if e.1 = some s then [e.2] else [] := by
  by_cases h : e.1 = some s <;> simp [linesOf, h]

theorem linesOf_block (t : Section) (block : List String) (s : Section) :
    linesOf (block.map (some t, ·)) s = if t = s then block else [] := by
  by_cases h : t = s <;> simp [linesOf, h]

theorem mem_linesOf {es : List (Option Section × String)} : line ∈ linesOf es s ↔ (some s, line) ∈ es := by
  unfold linesOf
  rw [mem_filterMap]
  constructor
  · rintro ⟨⟨t, l⟩, hmem, h⟩
    split at h
    · rename_i ht
      cases h
      cases ht
      exact hmem
    · cases h
  · exact fun h => ⟨_, h, if_pos rfl⟩

theorem linesOf_eq_nil {open? : Option Section} (hopen : open? ≠ some s) (h : title s ∉ lines) :
    linesOf (entries open? lines) s = [] := by
  rw [eq_nil_iff_forall_not_mem]
  intro line hline
  rcases title_mem_of_entries (mem_linesOf.1 hline) with heq | hmem
  · exact hopen heq
  · exact h hmem

/-! ## Drafts and models by their lines -/

/-- The model that the lines of the sections give. -/
def modelOf (lines : Section → List String) : Model where
  graph := (lines .transition).map fun l => (words l).map Cell.ofWord
  states := ((lines .stateNames).getLast?.map keptWords).getD []
  props := ((lines .propositions).getLast?.map keptWords).getD []
  labels := (lines .labelling).map fun l => (words l).map labelCell
  initial := (lines .initialState).getLast?.getD ""
  agents := (((lines .agentCount).getLast?.bind readInt?).map Count.number).getD (.text "")
  resource := ((lines .resource).getLast?.bind readInt?).getD 0
  actionCosts := (lines .actionCosts).map words

/-- The draft that the lines of the sections give. Two kinds of models keep the numeral of the number of agents. -/
def draftOf (kind : Kind) (weighted : Bool) (lines : Section → List String) (s : Option Section) : Draft where
  model := { modelOf lines with
    graph := [], labels := [], weighted
    agents := if kind = .plain then (modelOf lines).agents else .text ((lines .agentCount).getLast?.getD "") }
  current := s
  rows := (lines .transition).map words
  labelRows := (lines .labelling).map words

/-- A line that is a numeral if its section asks for one. -/
def Readable (e : Option Section × String) : Prop :=
  e.1 = some .agentCount ∨ e.1 = some .resource → (readInt? e.2).isSome = true

instance (e : Option Section × String) : Decidable (Readable e) := inferInstanceAs (Decidable (_ → _))

section Drafts

variable {w : Bool} {o : Option Section} (hopen : ∀ s ∈ o, s ∈ plainSections)

include hopen

theorem addLine_draftOf (h : Readable (o, line)) (es : List (Option Section × String)) :
    (draftOf kind w (linesOf es) o).addLine kind line = (draftOf kind w (linesOf (es ++ [(o, line)])) o, none) := by
  rcases o with _ | s
  · simp [addLine, draftOf, modelOf]
  cases s with
  | agentCount =>
    obtain ⟨n, hn⟩ : ∃ n, readInt? line = some n := Option.isSome_iff_exists.1 (h (.inl rfl))
    by_cases hk : kind = .plain <;> simp [addLine, draftOf, modelOf, hn, hk]
  | resource =>
    obtain ⟨n, hn⟩ : ∃ n, readInt? line = some n := Option.isSome_iff_exists.1 (h (.inr rfl))
    simp [addLine, draftOf, modelOf, hn]
  | costs | splitCosts | capacities | assignment | capacityActions =>
    exact absurd (hopen _ rfl) (by decide)
  | _ => simp [addLine, draftOf, modelOf]

/-- Lines that are titles of the same sections as in a plain model give the draft of their sections. -/
theorem addAll_draftOf (hsame : ∀ line ∈ lines, header? kind line = header? .plain line)
    (hread : ∀ e ∈ entries o lines, Readable e) (es : List (Option Section × String)) :
    ∃ o', (draftOf kind w (linesOf es) o).addAll kind lines =
      (draftOf kind w (linesOf (es ++ entries o lines)) o', none) := by
  induction lines generalizing o es with
  | nil => exact ⟨o, by rw [entries, append_nil]; rfl⟩
  | cons line lines ih =>
    obtain ⟨hline, hlines⟩ := forall_mem_cons.1 hsame
    rw [entries] at hread ⊢
    rw [addAll, add, hline]
    cases hl : header? .plain line with
    | some t =>
      rw [hl] at hread
      have hne : line ≠ "Transition_With_Costs" := by
        rintro rfl
        cases hl
      have hplain : ∀ s ∈ some t, s ∈ plainSections := by
        rintro _ ⟨⟩
        exact mem_plainSections hl
      simp only [hne, decide_false, Bool.or_false]
      exact ih hplain hlines hread es
    | none =>
      rw [hl] at hread
      obtain ⟨he, hrest⟩ := forall_mem_cons.1 hread
      simpa [addLine_draftOf hopen he] using ih hopen hlines hrest (es ++ [(o, line)])

theorem readable_of_addAll {l : List (Option Section × String)}
    (h : ((draftOf .plain w (linesOf l) o).addAll .plain lines).2 = none) : ∀ e ∈ entries o lines, Readable e := by
  induction lines generalizing o l w with
  | nil => exact fun e he => absurd he not_mem_nil
  | cons line lines ih =>
    rw [addAll, add] at h
    rw [entries]
    cases ht : header? .plain line with
    | some t =>
      rw [ht] at h
      refine ih ?_ h
      rintro _ ⟨⟩
      exact mem_plainSections ht
    | none =>
      rw [ht] at h
      by_cases he : Readable (o, line)
      · simp only [addLine_draftOf hopen he] at h
        exact forall_mem_cons.2 ⟨he, ih hopen h⟩
      · obtain ⟨hs, hnone⟩ := Classical.not_imp.1 he
        have hline : readInt? line = none := by simpa using hnone
        rcases hs with rfl | rfl <;> simp [addLine, draftOf, hline] at h

end Drafts

theorem load_eq_finish (hsame : ∀ line ∈ trimmedLines source, header? kind line = header? .plain line)
    (hread : ∀ e ∈ entries none (trimmedLines source), Readable e) : load kind source =
      match (draftOf kind false (linesOf (entries none (trimmedLines source))) none).finish kind with
      | (m, none) => .ok m
      | (_, some f) => .error f := by
  have hstart : start = draftOf kind false (linesOf []) none := by cases kind <;> rfl
  obtain ⟨o, ho⟩ := addAll_draftOf (w := false) (by simp) hsame hread []
  rw [load, read_eq, hstart, ho]
  rfl

/-- A model is read from its lines if the counts are numerals, and its parts are given by the lines of its sections. -/
def Reads (lines : List String) (m : Model) : Prop :=
  (∀ e ∈ entries none lines, Readable e) ∧ m = modelOf (linesOf (entries none lines))

theorem load_eq_ok : load .plain source = .ok m ↔ Reads (trimmedLines source) m := by
  have hload : (∀ e ∈ entries none (trimmedLines source), Readable e) →
      load .plain source = .ok (modelOf (linesOf (entries none (trimmedLines source)))) := fun hread => by
    rw [load_eq_finish (fun _ _ => rfl) hread]
    simp [draftOf, modelOf, finish]
  constructor
  · intro h
    have hread : ∀ e ∈ entries none (trimmedLines source), Readable e := by
      refine readable_of_addAll (w := false) (l := []) (by simp) ?_
      rw [load, read_eq] at h
      rcases hd : start.addAll .plain (trimmedLines source) with ⟨d, _ | f⟩
      · exact congrArg Prod.snd hd
      · rw [hd] at h
        cases h
    rw [hload hread] at h
    exact ⟨hread, (Except.ok.inj h).symm⟩
  · rintro ⟨hread, rfl⟩
    exact hload hread

theorem agentCount_lt (hm : load .plain source = .ok m) {n : Int} (hn : m.agentCount = .ok n) : n < 10 ^ maxDigits := by
  rw [(load_eq_ok.1 hm).2, modelOf] at hn
  cases hread : (linesOf (entries none (trimmedLines source)) .agentCount).getLast?.bind readInt? with
  | none =>
    rw [hread] at hn
    cases hn
  | some k =>
    rw [hread] at hn
    cases hn
    obtain ⟨line, -, hline⟩ := Option.bind_eq_some_iff.1 hread
    exact readInt?_lt hline

/-! ## Blocks -/

/-- Lines of which those of a section stand in one block behind its title. -/
structure Block (lines : List String) (s : Section) (before block after : List String) : Prop where
  eq : lines = before ++ title s :: (block ++ after)
  notBefore : title s ∉ before
  notAfter : title s ∉ after
  inside : ∀ line ∈ block, header? .plain line = none
  next : ∀ line ∈ after.head?, header? .plain line ≠ none

theorem header?_title_of_mem (hs : s ∈ plainSections) : header? .plain (title s) = some s := by
  revert s
  decide

section Rows

variable {old new : List String} (h : Block lines .transition before old after)

include h

theorem Block.entries_eq :
    entries none lines = entries none before ++ (old.map (some .transition, ·) ++ entries none after) := by
  have hnext : entries (some .transition) after = entries none after := by
    cases after with
    | nil => rfl
    | cons line after =>
      obtain ⟨t, ht⟩ := Option.ne_none_iff_exists'.1 (h.next line rfl)
      rw [entries_header ht, entries_header ht]
  rw [h.eq, entries_append_header rfl, entries_block _ _ h.inside, hnext]

theorem Block.linesOf_eq : linesOf (entries none lines) =
    Function.update (linesOf (entries none before ++ entries none after)) .transition old := by
  funext t
  rw [h.entries_eq, linesOf_append, linesOf_append, linesOf_block]
  by_cases ht : .transition = t
  · subst ht
    rw [linesOf_eq_nil (by simp) h.notBefore, linesOf_eq_nil (by simp) h.notAfter]
    simp
  · rw [Function.update_of_ne (Ne.symm ht), if_neg ht, linesOf_append, nil_append]

theorem Block.reads {lines' : List String} (h' : Block lines' .transition before new after) (hm : Reads lines m) :
    m.graph = old.map (fun l => (words l).map Cell.ofWord) ∧
      Reads lines' { m with graph := new.map fun l => (words l).map Cell.ofWord } := by
  obtain ⟨hread, rfl⟩ := hm
  rw [h.entries_eq, forall_mem_append, forall_mem_append] at hread
  rw [h.linesOf_eq]
  refine ⟨rfl, ?_, by rw [h'.linesOf_eq]; rfl⟩
  rw [h'.entries_eq, forall_mem_append, forall_mem_append]
  exact ⟨hread.1, by simp [Readable], hread.2.2⟩

end Rows

/-! ## Words as lines -/

@[mk_iff] structure Insertable (line : String) : Prop where
  noHeader : header? .plain line = none
  trimmed : trim line = line ∧ '\n' ∉ line.toList ∧ '\r' ∉ line.toList

instance (line : String) : Decidable (Insertable line) := decidable_of_iff' _ (insertable_iff line)

theorem header?_join (hw : ∀ w ∈ ws, IsWord w) (hh : ∀ w, ws = [w] → header? .plain w = none) :
    header? .plain (join " " ws) = none := by
  cases hs : header? .plain (join " " ws) with
  | none => rfl
  | some s =>
    have hwords := (words_title hs).1
    rw [words_join hw] at hwords
    rw [hh _ hwords] at hs
    cases hs

theorem insertable_join (hw : ∀ w ∈ ws, IsWord w) (hh : ∀ w ∈ ws, header? .plain w = none) :
    Insertable (join " " ws) where
  noHeader := header?_join hw fun w hws => hh w (hws ▸ mem_singleton_self w)
  trimmed := isLine_join hw

/-! ## Cells as words -/

theorem words_rowText (h : ∀ c ∈ row, c.Written) : (words (rowText row)).map Cell.ofWord = row := by
  unfold rowText
  rw [words_join, map_map]
  · exact map_eq_self fun c hc => (h c hc).2
  · intro w hw
    obtain ⟨c, hc, rfl⟩ := mem_map.1 hw
    exact (h c hc).1

theorem trimmed_rowText (h : ∀ c ∈ row, IsWord c.write) : IsTrimmed (rowText row) :=
  isLine_join (forall_mem_map.2 h)

/-! ## Another matrix -/

theorem replaceRows_outside (g : Matrix) (rest : List String) : ∀ {lines : List String}, title .transition ∉ lines →
    replaceRows false g (lines ++ rest) = lines ++ replaceRows false g rest
  | [], _ => rfl
  | line :: lines, h => by
    rw [mem_cons, not_or] at h
    have hline : line ≠ "Transition" := Ne.symm h.1
    have hrest := replaceRows_outside g rest h.2
    cases g <;> simp [replaceRows, hline, hrest]

theorem replaceRows_title (g : Matrix) (rest : List String) :
    replaceRows false g (title .transition :: rest) = title .transition :: replaceRows true g rest := by
  cases g <;> rfl

theorem replaceRows_inside (after : List String) : ∀ {rows : List String} {g : Matrix}, g.length = rows.length →
    title .transition ∉ rows →
      replaceRows true g (rows ++ after) = g.map rowText ++ replaceRows true [] after
  | [], [], _, _ => rfl
  | line :: rows, row :: g, hlen, h => by
    rw [mem_cons, not_or] at h
    have hline : line ≠ "Transition" := Ne.symm h.1
    have hrest := replaceRows_inside after (Nat.succ.inj hlen) h.2
    simp [replaceRows, hline, hrest]

end Arena.Model
