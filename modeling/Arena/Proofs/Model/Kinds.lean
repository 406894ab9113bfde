/-
The three kinds of models and the sections that they share. Apart from the number of agents, of which two kinds keep the
numeral, each line of a shared section adds the same to all of them. So a text of these sections gives the same matrices
and names whatever the kind and the order of the sections.
-/
import Arena.Proofs.Model.Fields

namespace Arena.Text

open List

variable {bs' : List (Section × List String)} {s : Section}

theorem mem_of_mem_wordsFrom {w : List Char} {c : Char} (hc : c ∈ w) : ∀ (cs before : List Char),
    w ∈ wordsFrom before cs → c ∈ before ∨ c ∈ cs
  | [], before, hw => by
    unfold wordsFrom at hw
    split at hw
    · cases hw
    · rw [mem_singleton.1 hw] at hc
      exact .inl (mem_reverse.1 hc)
  | d :: cs, before, hw => by
    have hlater : ∀ {before : List Char}, w ∈ wordsFrom before cs → c ∈ before ∨ c ∈ cs :=
      mem_of_mem_wordsFrom hc cs _
    unfold wordsFrom at hw
    split at hw
    · split at hw
      · have := hlater hw
        simp_all
      · rcases mem_cons.1 hw with rfl | hw
        · exact .inl (mem_reverse.1 hc)
        · have := hlater hw
          simp_all
    · have := hlater hw
      simp only [mem_cons] at this ⊢
      tauto

theorem mem_of_mem_words {s w : String} (hw : w ∈ words s) {c : Char} (hc : c ∈ w.toList) : c ∈ s.toList := by
  obtain ⟨cs, hcs, rfl⟩ := mem_map.1 hw
  rw [String.toList_ofList] at hc
  rcases mem_of_mem_wordsFrom hc s.toList [] hcs with h | h
  · cases h
  · exact h

end Arena.Text

namespace Arena.Model

open List hiding beq_eq_decide

variable {bs : List (Section × List String)}

/-! ## What is read -/

structure Core where
  graph : Matrix
  states : List String
  props : List String
  labels : Matrix
  initial : String
  agents : Int
  deriving DecidableEq

/-- What a model has in common with models of other kinds; there must be a number of agents. -/
def core (m : Model) : Outcome Core := do
  return ⟨m.graph, m.states, m.props, m.labels, m.initial, ← m.agentCount⟩

def coreOf (lines : Section → List String) : Core where
  graph := (lines .transition).map fun l => (Text.words l).map Cell.ofWord
  states := ((lines .stateNames).getLast?.map keptWords).getD []
  props := ((lines .propositions).getLast?.map keptWords).getD []
  labels := (lines .labelling).map fun l => (Text.words l).map labelCell
  initial := (lines .initialState).getLast?.getD ""
  agents := ((lines .agentCount).getLast?.bind Text.readInt?).getD 0

/-! ## Texts of shared sections -/

/-- The sections that all kinds of models have. -/
def sharedSections : List Section :=
  [.transition, .unknown, .stateNames, .initialState, .propositions, .labelling, .agentCount]

/-- Blocks of shared sections, each at most once: no line inside is the title of a section for any kind of model, the
matrices are rectangular and without NUL characters, and there is a number of agents. -/
structure Shared (bs : List (Section × List String)) : Prop where
  once : (bs.map (·.1)).Nodup
  sections : ∀ b ∈ bs, b.1 ∈ sharedSections
  content : ∀ b ∈ bs, ∀ line ∈ b.2, ∀ kind, header? kind line = none
  matrices : ∀ s ∈ [Section.transition, .labelling], rectangular ((linesIn bs s).map Text.words) = true ∧
    ∀ line ∈ linesIn bs s, '\x00' ∉ line.toList
  counted : linesIn bs .agentCount ≠ [] ∧ ∀ line ∈ linesIn bs .agentCount, (Text.readInt? line).isSome = true

theorem mem_linesIn {line : String} : line ∈ linesIn bs s ↔ ∃ b ∈ bs, b.1 = s ∧ line ∈ b.2 := by
  simp [linesIn]

theorem header?_title_shared : ∀ s ∈ sharedSections, ∀ kind, header? kind (title s) = some s := by
  intro s hs kind
  cases kind <;> revert s <;> decide

section Shared

variable (h : Shared bs)

include h

theorem Shared.header?_eq (kind : Kind) : ∀ line ∈ blockLines bs, header? kind line = header? .plain line := by
  intro line hline
  obtain ⟨b, hb, hline⟩ := mem_flatMap.1 hline
  rcases mem_cons.1 hline with rfl | hin
  · have htitle := header?_title_shared b.1 (h.sections b hb)
    rw [htitle, htitle]
  · have hnone := h.content b hb line hin
    rw [hnone, hnone]

theorem Shared.linesIn_perm (hperm : bs'.Perm bs) : linesIn bs' = linesIn bs := by
  funext s
  have hfilter : (bs'.filter fun b => b.1 = s).Perm (bs.filter fun b => b.1 = s) := hperm.filter _
  have hone : (bs.filter fun b => b.1 = s).length ≤ 1 := by
    have hcount := nodup_iff_count_le_one.1 h.once s
    rw [count, countP_map, countP_eq_length_filter] at hcount
    simpa [Function.comp_def, beq_eq_decide] using hcount
  have heq : (bs'.filter fun b => b.1 = s) = bs.filter fun b => b.1 = s := by
    generalize (bs.filter fun b => b.1 = s) = found at hfilter hone ⊢
    rcases found with _ | ⟨b, _ | ⟨c, rest⟩⟩
    · exact hfilter.eq_nil
    · exact perm_singleton.1 hfilter
    · simp at hone
  rw [linesIn, heq, linesIn]

theorem Shared.of_perm (hperm : bs'.Perm bs) : Shared bs' := by
  have hlines := h.linesIn_perm hperm
  exact ⟨(hperm.map _).nodup_iff.2 h.once, fun b hb => h.sections b (hperm.mem_iff.1 hb),
    fun b hb => h.content b (hperm.mem_iff.1 hb), hlines ▸ h.matrices, hlines ▸ h.counted⟩

theorem Shared.map_kept (f : String → Cell) (hs : s ∈ [Section.transition, .labelling]) :
    ((linesIn bs s).map fun l => (Text.words l).map fun w => f (kept w)) =
      (linesIn bs s).map fun l => (Text.words l).map f := by
  refine map_congr_left fun line hline => map_congr_left fun w hw => ?_
  rw [kept_eq_self fun hnul => (h.matrices s hs).2 line hline (Text.mem_of_mem_words hw hnul)]

theorem Shared.plain : (∀ b ∈ bs, b.1 ∈ plainSections) ∧ ∀ b ∈ bs, ∀ line ∈ b.2, header? .plain line = none :=
  ⟨fun b hb => (show ∀ s ∈ sharedSections, s ∈ plainSections by decide) _ (h.sections b hb),
    fun b hb line hline => h.content b hb line hline .plain⟩

theorem Shared.readable : ∀ e ∈ entries none (blockLines bs), Readable e := by
  refine ((reads_blockLines h.plain.1 h.plain.2).2 ⟨?_, rfl⟩).1
  rintro b hb line hline (hs | hs)
  · exact h.counted.2 line (mem_linesIn.2 ⟨b, hb, Option.some.inj hs, hline⟩)
  · exact absurd (Option.some.inj hs ▸ h.sections b hb) (by decide)

theorem Shared.finish (kind : Kind) (w : Bool) (o : Option Section) :
    (draftOf kind w (linesIn bs) o).finish kind = ({ (draftOf kind w (linesIn bs) o).model with
      graph := (modelOf (linesIn bs)).graph, labels := (modelOf (linesIn bs)).labels }, none) := by
  have hgraph := h.map_kept Cell.ofWord (s := .transition) (by simp)
  have hlabels := h.map_kept labelCell (s := .labelling) (by simp)
  have hrows := (h.matrices .transition (by simp)).1
  have hlabelRows := (h.matrices .labelling (by simp)).1
  cases kind <;>
    simp [draftOf, modelOf, Draft.finish, Function.comp_def, hgraph, hlabels, hrows, hlabelRows]

theorem Shared.load_core_eq (kind : Kind) {source : String} (hs : Text.trimmedLines source = blockLines bs) :
    (load kind source >>= core) = .ok (coreOf (linesIn bs)) := by
  obtain ⟨line, hline⟩ := Option.ne_none_iff_exists'.1 (mt getLast?_eq_none_iff.1 h.counted.1)
  obtain ⟨n, hn⟩ := Option.isSome_iff_exists.1 (h.counted.2 line (mem_of_getLast? hline))
  rw [load_eq_finish (hs ▸ h.header?_eq kind) (hs ▸ h.readable), hs, linesOf_blockLines h.plain.1 h.plain.2, h.finish]
  change core _ = _
  by_cases hk : kind = .plain <;> simp [core, coreOf, agentCount, draftOf, modelOf, Count.get, orFault, hk, hline, hn]

end Shared

/-- A text of shared sections, each at most once, gives the same matrices, names and number of agents for every kind of
model and for every order of the sections: what the lines of its sections give. -/
theorem load_core {bs bs' : List (Section × List String)} (h : Shared bs) (hperm : bs'.Perm bs) (kind : Kind)
    {source : String} (hs : Text.trimmedLines source = blockLines bs') :
    (load kind source >>= core) = .ok (coreOf (linesIn bs)) := by
  rw [← h.linesIn_perm hperm]
  exact (h.of_perm hperm).load_core_eq kind hs

/-! ## Two orders -/

/-- Two states, two agents and no unknown transitions. -/
def gateBlocks : List (Section × List String) :=
  [(.transition, ["II AB,AI", "0 *"]), (.unknown, []), (.stateNames, ["shut open"]), (.initialState, ["shut"]),
    (.propositions, ["free fee"]), (.labelling, ["0 0.5", "1 0"]), (.agentCount, ["+2"])]

def gateText (bs : List (Section × List String)) : String := String.join ((blockLines bs).map (· ++ "\n"))

theorem shared_gate : Shared gateBlocks where
  once := by decide
  sections := by decide
  content b hb line hline kind := by
    cases kind <;> revert line b <;> decide
  matrices := by decide
  counted := by decide

def gateCore : Core :=
  ⟨[[.text "II", .text "AB,AI"], [.num 0, .text "*"]], ["shut", "open"], ["free", "fee"],
    [[.num 0, .text "0.5"], [.num 1, .num 0]], "shut", 2⟩

theorem load_core_gate : (load .cost (gateText gateBlocks) >>= core) = .ok gateCore ∧
    (load .capacity (gateText gateBlocks.reverse) >>= core) = .ok gateCore := by
  have hlines : ∀ bs ∈ [gateBlocks, gateBlocks.reverse], Text.trimmedLines (gateText bs) = blockLines bs := by
    intro bs hbs
    rcases mem_pair.1 hbs with rfl | rfl <;> exact Text.trimmedLines_join (by decide)
  exact ⟨load_core shared_gate (.refl _) .cost (hlines _ (by simp)),
    load_core shared_gate (reverse_perm _) .capacity (hlines _ (by simp))⟩

end Arena.Model
