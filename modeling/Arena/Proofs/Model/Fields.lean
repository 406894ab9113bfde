/-
What is read from a plain model text, section by section: the matrices and prices from all lines of their sections,
every other part from the last line of its section. The reading fails only at a line that should be a numeral.
-/
import Arena.Proofs.Model.Sections

namespace Arena.Model

open List Text

variable {line : String} {s : Section} {m : Model}

/-! ## Texts in blocks -/

/-- The lines of some sections, each behind its title. -/
def blockLines (bs : List (Section × List String)) : List String := bs.flatMap fun b => title b.1 :: b.2

def linesIn (bs : List (Section × List String)) (s : Section) : List String :=
  (bs.filter fun b => b.1 = s).flatMap (·.2)

theorem entries_blockLines : ∀ {bs : List (Section × List String)}, (∀ b ∈ bs, b.1 ∈ plainSections) →
    (∀ b ∈ bs, ∀ line ∈ b.2, header? .plain line = none) → ∀ o : Option Section,
      entries o (blockLines bs) = bs.flatMap fun b => b.2.map (some b.1, ·)
  | [], _, _, _ => rfl
  | b :: bs, hs, hc, o => by
    obtain ⟨hb, hbs⟩ := forall_mem_cons.1 hs
    obtain ⟨hline, hlines⟩ := forall_mem_cons.1 hc
    have hrest : blockLines (b :: bs) = title b.1 :: (b.2 ++ blockLines bs) := rfl
    rw [hrest, entries_header (header?_title_of_mem hb), entries_block _ _ hline, entries_blockLines hbs hlines]
    rfl

theorem linesOf_blocks (s : Section) : ∀ bs : List (Section × List String),
    linesOf (bs.flatMap fun b => b.2.map (some b.1, ·)) s = linesIn bs s
  | [] => rfl
  | b :: bs => by
    rw [flatMap_cons, linesOf_append, linesOf_block, linesOf_blocks s bs]
    by_cases h : b.1 = s <;> simp [linesIn, h]

section Blocks

variable {bs : List (Section × List String)} (hs : ∀ b ∈ bs, b.1 ∈ plainSections)
  (hc : ∀ b ∈ bs, ∀ line ∈ b.2, header? .plain line = none)

include hs hc

theorem linesOf_blockLines : linesOf (entries none (blockLines bs)) = linesIn bs := by
  funext s
  rw [entries_blockLines hs hc, linesOf_blocks]

theorem reads_blockLines : Reads (blockLines bs) m ↔
    (∀ b ∈ bs, ∀ line ∈ b.2, Readable (some b.1, line)) ∧ m = modelOf (linesIn bs) := by
  rw [Reads, linesOf_blockLines hs hc, entries_blockLines hs hc]
  simp only [mem_flatMap, mem_map, forall_exists_index, and_imp]
  constructor
  · exact fun h => ⟨fun b hb line hline => h.1 _ b hb line hline rfl, h.2⟩
  · rintro ⟨h, hm⟩
    refine ⟨?_, hm⟩
    rintro _ b hb line hline rfl
    exact h b hb line hline

end Blocks

theorem isWord_numeral (n : Nat) : IsWord (toString n) ∧ kept (toString n) = toString n ∧ header? .plain (toString n) = none := by
  refine isWord_of_chars decimals (by decide) (fun h => ?_) fun c hc => mem_toDigits (toList_natRepr n ▸ hc)
  have hlist := congrArg String.toList h
  rw [toList_natRepr] at hlist
  exact Nat.toDigits_ne_nil hlist

/-! ## Rows of words -/

/-- The model that the rows of words of the sections give. -/
def modelOfWords (rows : Section → List (List String)) : Model where
  graph := (rows .transition).map (·.map Cell.ofWord)
  states := ((rows .stateNames).getLast?.getD []).map kept
  props := ((rows .propositions).getLast?.getD []).map kept
  labels := (rows .labelling).map (·.map labelCell)
  initial := join " " ((rows .initialState).getLast?.getD [])
  agents := (((rows .agentCount).getLast?.bind fun r => readInt? (join " " r)).map Count.number).getD (.text "")
  resource := ((rows .resource).getLast?.bind fun r => readInt? (join " " r)).getD 0
  actionCosts := rows .actionCosts

theorem modelOf_join {rows : Section → List (List String)} (h : ∀ s, ∀ row ∈ rows s, ∀ w ∈ row, IsWord w) :
    modelOf (fun s => (rows s).map (join " ")) = modelOfWords rows := by
  have hrows : ∀ {β : Type} (f : List String → β) s, ((rows s).map (join " ")).map (fun l => f (words l)) = (rows s).map f := by
    intro β f s
    rw [map_map]
    exact map_congr_left fun row hrow => congrArg f (words_join (h s row hrow))
  have hlast : ∀ s, (((rows s).getLast?.map (join " ")).map keptWords).getD [] = ((rows s).getLast?.getD []).map kept := by
    intro s
    cases hrow : (rows s).getLast? with
    | none => rfl
    | some row => exact congrArg (map kept) (words_join (h s row (mem_of_getLast? hrow)))
  have htext : ∀ s, ((rows s).getLast?.map (join " ")).getD "" = join " " ((rows s).getLast?.getD []) := by
    intro s
    cases (rows s).getLast? <;> rfl
  have hcosts := hrows id
  simp only [id_eq, map_id] at hcosts
  simp only [modelOf, modelOfWords, hrows, hlast, htext, hcosts, getLast?_map, Option.bind_map, Function.comp_def]

/-- Lines of words that are no titles, each perhaps with a blank behind it, are read by their words. -/
theorem load_words (spell : Section → List String → String) {bs : List (Section × List (List String))} {source : String}
    (hsource : source = String.join ((blockLines (bs.map fun b => (b.1, b.2.map (spell b.1)))).map (· ++ "\n")))
    (hspell : ∀ s row, spell s row = join " " row ∨ spell s row = join " " row ++ " ") (hplain : ∀ b ∈ bs, b.1 ∈ plainSections)
    (hwords : ∀ b ∈ bs, ∀ row ∈ b.2, ∀ w ∈ row, IsWord w ∧ header? .plain w = none)
    (hread : ∀ b ∈ bs, ∀ row ∈ b.2, Readable (some b.1, join " " row)) :
    load .plain source = .ok (modelOfWords fun s => (bs.filter fun b => b.1 = s).flatMap (·.2)) := by
  have htitle : ∀ s ∈ plainSections, IsTrimmed (title s) := by
    decide
  have hline : ∀ b ∈ bs, ∀ row ∈ b.2, trim (spell b.1 row) = join " " row ∧
      '\n' ∉ (spell b.1 row).toList ∧ '\r' ∉ (spell b.1 row).toList := by
    intro b hb row hrow
    obtain ⟨htrim, hcut⟩ : IsTrimmed (join " " row) := isLine_join fun w hw => (hwords b hb row hrow w hw).1
    rcases hspell b.1 row with h | h
    · rw [h]
      exact ⟨htrim, hcut⟩
    · rw [h, trim_append_blank (show " ".toList = [' '] by decide) (by decide)]
      exact ⟨htrim, by simpa using hcut⟩
  have htrim : (blockLines (bs.map fun b => (b.1, b.2.map (spell b.1)))).map trim =
      blockLines (bs.map fun b => (b.1, b.2.map (join " "))) := by
    unfold blockLines
    rw [flatMap_map, flatMap_map, map_flatMap]
    refine flatMap_congr fun b hb => ?_
    rw [map_cons, (htitle b.1 (hplain b hb)).1, map_map]
    exact congrArg _ (map_congr_left fun row hrow => (hline b hb row hrow).1)
  have hlines : linesIn (bs.map fun b => (b.1, b.2.map (join " "))) =
      fun s => ((bs.filter fun b => b.1 = s).flatMap (·.2)).map (join " ") := by
    funext s
    simp [linesIn, filter_map, flatMap_map, map_flatMap, Function.comp_def]
  rw [load_eq_ok, hsource, trimmedLines_lines, htrim, reads_blockLines, hlines, modelOf_join]
  · exact ⟨by simpa only [forall_mem_map] using hread, rfl⟩
  · intro s row hrow w hw
    obtain ⟨b, hb, hrow⟩ := mem_flatMap.1 hrow
    exact (hwords b (mem_filter.1 hb).1 row hrow w hw).1
  · simpa only [forall_mem_map] using hplain
  · simp only [forall_mem_map]
    exact fun b hb row hrow => header?_join (fun w hw => (hwords b hb row hrow w hw).1) fun w hw =>
      (hwords b hb row hrow w (hw ▸ mem_singleton_self w)).2
  · simp only [blockLines, forall_mem_flatMap, forall_mem_cons, forall_mem_map]
    exact fun b hb => ⟨(htitle b.1 (hplain b hb)).2, fun row hrow => (hline b hb row hrow).2⟩

end Arena.Model
