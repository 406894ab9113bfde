/-
The model in which a defender plays against the attacker, as it is read from its text. Its one proposition, for the
attacker's victories, has two columns of labels, of which the first marks the states where no goal is known; so it holds
where the attacker has not won.
-/
import Arena.Attack.Exploration
import Arena.Proofs.Model.Priced
import Arena.Proofs.Model.Transitions

namespace Arena.Attack

open Model Text List

def State.Won (goals : List String) (s : State) : Prop := ∃ g ∈ goals, some g ∈ s.known

instance (goals : List String) (s : State) : Decidable (s.Won goals) := inferInstanceAs (Decidable (∃ _ ∈ _, _))

variable (x : Exploration) (goals : List String)

/-- The cells of the matrix, as words. -/
def cellRows : List (List String) := x.done.map fun s =>
  (range x.done.length).map fun j => cellText x.done.length (s.links.getD j 0)

def stateNames : List String := (range x.done.length).map fun i => toString i

def labelRows : List (List String) := x.done.map fun s => if s.Won goals then ["0", "1"] else ["1", "0"]

theorem isSign_cellRows : ∀ r ∈ cellRows x, r.length = x.done.length ∧ ∀ w ∈ r, IsSign w := by
  refine forall_mem_map.2 fun s _ => ⟨by simp, forall_mem_map.2 fun j _ => ?_⟩
  unfold cellText
  split
  · decide
  · split
    · exact isSign_toString _
    · decide

theorem isSign_stateNames : ∀ w ∈ stateNames x, IsSign w := forall_mem_map.2 fun i _ => isSign_toString i

theorem isSign_labelRows : ∀ r ∈ labelRows x goals, r.length = 2 ∧ ∀ w ∈ r, IsSign w := by
  refine forall_mem_map.2 fun s _ => ?_
  split <;> decide

theorem modelText_eq : modelText x goals = join "\n" ("Transition_With_Costs" ::
    ((cellRows x).map (fun r => String.join (r.map (· ++ " "))) ++ "Name_State" ::
      String.join ((stateNames x).map (· ++ " ")) :: "Atomic_propositions" :: "A_w" :: "Labelling" ::
        ((labelRows x goals).map (join " ") ++ ["Number_of_agents", "2"]))) := by
  have hlabels : (x.done.map fun s => if goals.any fun g => s.known.contains (some g) then "0 1" else "1 0") =
      (labelRows x goals).map (join " ") := by
    rw [labelRows, map_map]
    refine map_congr_left fun s _ => ?_
    by_cases h : s.Won goals
    · rw [if_pos (by simpa [State.Won] using h), Function.comp_apply, if_pos h]
      rfl
    · rw [if_neg (by simpa [State.Won] using h), Function.comp_apply, if_neg h]
      rfl
  simp only [modelText, hlabels, cellRows, stateNames, map_map, Function.comp_def, cons_append,
    nil_append, append_assoc]

theorem trimmedLines_modelText : trimmedLines (modelText x goals) = "Transition_With_Costs" ::
    ((cellRows x).map (join " ") ++ "Name_State" :: join " " (stateNames x) :: "Atomic_propositions" :: "A_w" ::
      "Labelling" :: ((labelRows x goals).map (join " ") ++ ["Number_of_agents", "2"])) := by
  have hcells : ∀ r ∈ cellRows x, _ := fun r hr => trim_spaced (isSign_cellRows x r hr).2
  have hnames := trim_spaced (isSign_stateNames x)
  have hlabels : ∀ r ∈ labelRows x goals, ∀ w ∈ r, IsSign w := fun r hr => (isSign_labelRows x goals r hr).2
  rw [modelText_eq, trimmedLines_open "2" ?_ ?_ (by decide)]
  · have htitles : ∀ l ∈ ["Transition_With_Costs", "Name_State", "Atomic_propositions", "A_w", "Labelling",
        "Number_of_agents", "2"], trim l = l := by decide
    simp only [forall_mem_cons] at htitles
    simp only [map_cons, map_append, map_map, map_nil, htitles, hnames.1, Function.comp_def]
    rw [map_congr_left fun r hr => (hcells r hr).1, map_congr_left fun r hr => trim_signs (hlabels r hr)]
  · simp only [forall_mem_cons, forall_mem_append, forall_mem_map]
    exact ⟨by decide, fun r hr => (hcells r hr).2.isLine, by decide, hnames.2.isLine, by decide, by decide, by decide,
      fun r hr => (signed_join (hlabels r hr)).isLine, by decide⟩
  · simp [getLast?_cons]

/-- The sections behind the matrix. -/
def otherBlocks : List (Section × List String) :=
  [(.stateNames, [join " " (stateNames x)]), (.propositions, ["A_w"]), (.labelling, (labelRows x goals).map (join " ")),
    (.agentCount, ["2"])]

theorem shared_modelText : Shared ((.transition, (cellRows x).map (join " ")) :: otherBlocks x goals) := by
  have hmatrix : ∀ {rows : List (List String)} {n : Nat}, (∀ r ∈ rows, r.length = n ∧ ∀ w ∈ r, IsSign w) →
      (rectangular ((rows.map (join " ")).map words) = true ∧ ∀ line ∈ rows.map (join " "), '\x00' ∉ line.toList) ∧
        ∀ line ∈ rows.map (join " "), ∀ kind, header? kind line = none := fun {rows n} h => by
    have hsigned : ∀ line ∈ rows.map (join " "), Signed line := forall_mem_map.2 fun r hr => signed_join (h r hr).2
    rw [map_words_signs fun r hr => (h r hr).2]
    exact ⟨⟨rectangular_of_length fun r hr => (h r hr).1, fun line hline => (hsigned line hline).not_mem (by decide)⟩,
      fun line hline kind => header?_of_signed (hsigned line hline)⟩
  have hcells := hmatrix (isSign_cellRows x)
  have hlabels := hmatrix (isSign_labelRows x goals)
  have hnames : ∀ kind, header? kind (join " " (stateNames x)) = none := fun kind =>
    header?_of_signed (signed_join (isSign_stateNames x))
  have hword : ∀ kind, header? kind "A_w" = none ∧ header? kind "2" = none := fun kind => by cases kind <;> decide
  refine ⟨by simp [otherBlocks], by simp [otherBlocks, sharedSections], ?_, ?_, ?_⟩
  · simpa [otherBlocks, hnames, hword] using And.intro hcells.2 hlabels.2
  · simpa [linesIn, otherBlocks] using And.intro hcells.1 hlabels.1
  · simp [linesIn, otherBlocks]
    decide

theorem load_modelText : load .cost (modelText x goals) = .ok {
    graph := (cellRows x).map (·.map Cell.ofWord), states := stateNames x, props := ["A_w"]
    labels := (labelRows x goals).map (·.map labelCell), agents := .text "2", weighted := true } := by
  have hprop : keptWords "A_w" = ["A_w"] := by decide
  have hcells : ∀ r ∈ cellRows x, words (join " " r) = r := fun r hr => words_signs (isSign_cellRows x r hr).2
  have hlabels : ∀ r ∈ labelRows x goals, words (join " " r) = r := fun r hr =>
    words_signs (isSign_labelRows x goals r hr).2
  rw [(shared_modelText x goals).load_priced (trimmedLines_modelText x goals)]
  simp +contextual [modelOf, linesIn, otherBlocks, keptWords_signs (isSign_stateNames x), hprop, hcells, hlabels]

/-- The text of the model is read. Its labelling has two columns for one proposition: under the proposition stands a one
where no goal is known, and behind it a one where a goal is known, so the proposition holds where the attacker has not won. -/
theorem holds_iff_not_won : ∃ m T, load .cost (modelText x goals) = .ok m ∧ m.props = ["A_w"] ∧
    m.statesOf "A_w" = .ok (some T) ∧ m.labels.length = x.done.length ∧
    ∀ i s, x.done[i]? = some s → m.states[i]? = some (toString i) ∧ (m.labels[i]?.map List.length) = some 2 ∧
      (cellAt? m.labels i 0 = some (.num 1) ↔ ¬ s.Won goals) ∧ (cellAt? m.labels i 1 = some (.num 1) ↔ s.Won goals) ∧
      (toString i ∈ T ↔ ¬ s.Won goals) := by
  let m : Model := {
    graph := (cellRows x).map (·.map Cell.ofWord), states := stateNames x, props := ["A_w"]
    labels := (labelRows x goals).map (·.map labelCell), agents := .text "2", weighted := true }
  have hfit : m.LabelsFit := {
    rows := by simp [m, labelRows, stateNames]
    cells := forall_mem_map.2 fun r hr => by simp [m, (isSign_labelRows x goals r hr).1] }
  obtain ⟨T, hT, -, hmem⟩ := hfit.statesOf (mem_singleton_self _)
  refine ⟨m, T, load_modelText x goals, rfl, hT, by simp [m, labelRows], fun i s hs => ?_⟩
  have hi := lt_of_getElem? hs
  have hname : m.states[i]? = some (toString i) := by simp [m, stateNames, hi]
  have hrow : m.labels[i]? = some (if s.Won goals then [.num 0, .num 1] else [.num 1, .num 0]) := by
    by_cases hwon : s.Won goals <;> simp [m, labelRows, hs, hwon, labelCell]
  have hfirst : cellAt? m.labels i 0 = some (.num 1) ↔ ¬ s.Won goals := by
    by_cases hwon : s.Won goals <;> simp [cellAt?, hrow, hwon]
  have hsecond : cellAt? m.labels i 1 = some (.num 1) ↔ s.Won goals := by
    by_cases hwon : s.Won goals <;> simp [cellAt?, hrow, hwon]
  refine ⟨hname, by rw [hrow]; split <;> rfl, hfirst, hsecond, (hmem _).trans (Iff.trans ?_ hfirst)⟩
  constructor
  · rintro ⟨j, k, hj, hk, hcell⟩
    have hij : j = i := by
      obtain ⟨hlt, hj⟩ := List.getElem?_eq_some_iff.1 hj
      exact toString_inj (by simpa [m, stateNames] using hj)
    cases hk
    exact hij ▸ hcell
  · exact fun hcell => ⟨i, 0, hname, rfl, hcell⟩

/-- A door from which the attacker gets into the hall. -/
def hallPlan : Exploration where
  done := [⟨0, [some "door"], [0, -1]⟩, ⟨1, [some "door", some "hall"], [0]⟩]
  left := []
  found := 1
  transitions := [⟨"enter", 0, 1⟩]

/-- The attacker wins in the hall only, but the proposition holds at the door only. -/
theorem not_holds_won_hall : explore [] [⟨1, some "enter", [some "door"], some "hall"⟩] [some "door"] = .ok hallPlan ∧
    hallPlan.done.map (decide <| ·.Won ["hall"]) = [false, true] ∧
    ∃ m, load .cost (modelText hallPlan ["hall"]) = .ok m ∧ m.statesOf "A_w" = .ok (some ["0"]) :=
  ⟨rfl, by decide, _, load_modelText hallPlan ["hall"], by decide⟩

end Arena.Attack
