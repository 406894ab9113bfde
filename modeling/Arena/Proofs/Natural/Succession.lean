/-
Lenient pruning by several rules of an agent. A rule is applied where its condition holds and the rule just before it
was not applied. In each row those joint actions are left in which the agents follow all rules that are applied there,
each by its action or by idling.
-/
import Arena.Proofs.Natural.Completeness
import Arena.Proofs.Natural.Recall

namespace Arena.Natural

open Text Model List Recall Checker.Branching

variable {m : Model} {agents : List Int} {reader : Formula.Logic} {profile : Profile}

namespace Pruning

variable {a index : Int} {isFirst : Bool} {before : Names}

/-! ## Cells -/

/-- What a test leaves of a cell: the joint actions that pass it, in their order. A cell `*` is passed over. -/
def keepCell (test : Move → Bool) : Cell → Cell
  | .text s => if s = "*" then .text s else listing ((split "," s).filter test)
  | .num n => .num n

theorem keepCell_true (c : Cell) : keepCell (fun _ => true) c = c := by
  cases c with
  | num n => rfl
  | text s =>
    rw [keepCell, filter_true, listing, if_neg (split_ne_nil "," s), join_split (by decide), ite_self]

theorem keepCell_cases {s : String} (hs : s ≠ "*") (hstar : "*" ∉ split "," s) (test : Move → Bool) :
    (keepCell test (.text s) = .zero ∧ (split "," s).filter test = []) ∨
      ∃ u, keepCell test (.text s) = .text u ∧ u ≠ "*" ∧ split "," u = (split "," s).filter test := by
  have hsub : ∀ x ∈ (split "," s).filter test, x ∈ split "," s := fun x hx => (mem_filter.1 hx).1
  rw [keepCell, if_neg hs]
  generalize (split "," s).filter test = moves at hsub
  by_cases hne : moves = []
  · exact .inl ⟨if_pos hne, hne⟩
  have hsplit := split_join_kept hsub hne
  refine .inr ⟨_, if_neg hne, fun he => hstar (hsub "*" ?_), hsplit⟩
  rw [← hsplit, he]
  decide

theorem exists_letter (hact : ∃ letters, m.actions agents = .ok letters) (ha : a ∈ agents) {move : Move}
    (hmove : move ∈ m.listedMoves) : ∃ c, letterAt move (a - 1) = .ok c := by
  obtain ⟨letters, hact⟩ := hact
  obtain ⟨e, -, he⟩ := exists_of_mem_forall₂ (mapM_eq_ok.1 hact).flip (mem_eraseDups.2 ha)
  obtain ⟨ls, hls, -⟩ := bind_eq_ok.1 he
  obtain ⟨cs, hcs, -⟩ := bind_eq_ok.1 hls
  obtain ⟨c, -, hc⟩ := exists_of_mem_forall₂ (mapM_eq_ok.1 hcs).flip hmove
  exact ⟨c, hc⟩

theorem placeOf_append {before rest : List Int} (h : agents = before ++ a :: rest) :
    placeOf agents (before.length + 1) = .ok (a - 1) := by
  have hnth : nth agents ((before.length : Int) + 1 - 1) = .ok a := by
    rw [Int.add_sub_cancel, nth_eq_ok, h]
    simp
  exact bind_eq_ok.2 ⟨a, hnth, rfl⟩

/-- What tests, one for each row, leave of a matrix. -/
def keepMatrix (test : Nat → Move → Bool) (g : Matrix) : Matrix := g.mapIdx fun i row => row.map (keepCell (test i))

/-- The agent idles or plays the action. -/
def follows (agent : Int) (action : String) (move : Move) : Bool :=
  (letterAt move (agent - 1)).toOption.any fun c => c = "I" || c = action

/-- The agent follows the rules that are applied in a row. -/
def obeys (agent : Int) (rules : List (Names × String)) (i : Nat) (move : Move) : Bool :=
  rules.all fun e => !e.1.contains (defaultName i) || follows agent e.2 move

section Step

variable (hact : ∃ letters, m.actions agents = .ok letters) (hstar : "*" ∉ m.listedMoves) (ha : a ∈ agents)
  (hplace : placeOf agents index = .ok (a - 1))

include hact hstar ha hplace

theorem lenient_keepMatrix (test : Nat → Move → Bool) (states : Names) (action : String) :
    lenient (keepMatrix test m.graph) (sourceNames m.graph) states action index agents =
      .ok (keepMatrix (fun i x => test i x && obeys a [(states, action)] i x) m.graph) := by
  refine restrict_mapIdx fun i row hrow c hc => ?_
  beta_reduce
  cases c with
  | num n => rfl
  | text s =>
    by_cases hs : s = "*"
    · subst hs
      rfl
    have hlisted : ∀ x ∈ split "," s, x ∈ m.listedMoves := fun x hx =>
      mem_flatMap.2 ⟨.text s, mem_flatten.2 ⟨row, mem_of_getElem? hrow, hc⟩, by simpa [hs] using hx⟩
    rw [sourceOf, if_neg hs]
    by_cases hi : defaultName i ∈ states
    · have hnew : keepCell (fun x => test i x && obeys a [(states, action)] i x) (.text s) =
          listing (((split "," s).filter (test i)).filter (follows a action)) := by
        rw [keepCell, if_neg hs]
        simp [obeys, hi, Bool.and_comm]
      rw [hnew]
      rcases keepCell_cases hs (fun h => hstar (hlisted _ h)) (test i) with ⟨hcell, hnone⟩ | ⟨u, hcell, hu, hsplit⟩
      · rw [hcell, hnone]
        rfl
      rw [hcell, ← hsplit]
      refine restrictCell_listing hi hu ?_ ?_
      · rw [hplace]
        refine filterM_eq_filter fun x hx => ?_
        obtain ⟨c, hc⟩ := exists_letter hact ha (hlisted x (mem_filter.1 (hsplit ▸ hx)).1)
        simp [follows, hc, bind, Except.bind, pure, Except.pure, Except.toOption]
      · -- the empty text has no letter
        cases hletter : letterAt "" (a - 1) with
        | error e => simp [follows, hletter, Except.toOption]
        | ok c =>
          obtain ⟨ch, hch, -⟩ := bind_eq_ok.1 hletter
          exact absurd (mem_of_nth hch) not_mem_nil
    · have hsame : (fun x => test i x && obeys a [(states, action)] i x) = test i := funext fun x => by simp [obeys, hi]
      rw [hsame]
      cases keepCell (test i) (.text s) with
      | num n => rfl
      | text u => exact if_pos (by simp [hi])

end Step

/-! ## Rules -/

/-- The rules of an agent, each with the states where it is applied: where it holds and the rule before it is not. -/
def applied (holds : Rule → Names) : Names → Strategy → List (Names × String)
  | _, [] => []
  | before, r :: rest => ((holds r).diff before, r.action) :: applied holds ((holds r).diff before) rest

/-- The condition of a rule is found to hold in some states. -/
def HoldsIn (reader : Formula.Logic) (source : String) (r : Rule) (states : Names) : Prop :=
  states ≠ [] ∧ ∃ report, check reader source r.condition = .ok report ∧
    (resultValue report.result >>= namesOf) = .ok states

section Rules

variable {source : String} (hact : ∃ letters, m.actions agents = .ok letters) (hstar : "*" ∉ m.listedMoves)
  {holds : Rule → Names}

theorem lenientScope_eq (hfirst : isFirst = true → before = []) {value : Datum} {states : Names} (hne : states ≠ [])
    (hvalue : namesOf value = .ok states) (action : String) :
    lenientScope m isFirst before value action = .ok (states.diff before, action) := by
  have htruthy : value.truthy = true := by
    cases value with
    | set xs =>
      cases xs with
      | nil => exact absurd (Except.ok.inj hvalue).symm hne
      | cons x xs => rfl
    | _ => cases hvalue
  unfold lenientScope
  rw [htruthy, hvalue]
  cases isFirst with
  | false => rfl
  | true =>
    rw [hfirst rfl]
    exact congrArg (fun states => Except.ok (states, action)) (by simp [Names.diff])

include hact hstar

theorem lenientRules_applied (ha : a ∈ agents) (hplace : placeOf agents index = .ok (a - 1)) {rules : Strategy}
    (hrules : ∀ r ∈ rules, HoldsIn reader source r (holds r)) (hfirst : isFirst = true → before = [])
    (test : Nat → Move → Bool) (flag : Option Bool) :
    lenientRules reader source m (.ok true) agents index isFirst rules before (keepMatrix test m.graph) flag =
      .ok (keepMatrix (fun i x => test i x && obeys a (applied holds before rules) i x) m.graph,
        if rules = [] then flag else some true) := by
  induction rules generalizing isFirst before test flag with
  | nil =>
    simp only [applied, obeys, all_nil, Bool.and_true]
    rfl
  | cons r rest ih =>
    obtain ⟨⟨hne, report, hreport, hstates⟩, hrest⟩ := forall_mem_cons.1 hrules
    obtain ⟨value, hvalue, hnames⟩ := bind_eq_ok.1 hstates
    have hnext := ih hrest (show false = true → (holds r).diff before = [] from fun h => by cases h)
      (fun i x => test i x && obeys a [((holds r).diff before, r.action)] i x) (some true)
    simp only [obeys, all_cons, all_nil, Bool.and_true, Bool.and_assoc, ite_self] at hnext
    refine bind_eq_ok.2 ⟨report, hreport, bind_eq_ok.2 ⟨value, hvalue, bind_eq_ok.2 ⟨true, rfl, bind_eq_ok.2 ⟨_,
      lenientScope_eq hfirst hne hnames _, bind_eq_ok.2 ⟨_, lenient_keepMatrix hact hstar ha hplace _ _ _, ?_⟩⟩⟩⟩⟩
    simpa only [obeys, applied, all_cons, all_nil, Bool.and_true, if_neg (cons_ne_nil r rest)] using hnext

/-- All agents follow their rules in a row. -/
def obeyed (holds : Rule → Names) (agents : List Int) (profile : Profile) (i : Nat) (move : Move) : Bool :=
  (agents.zip profile).all fun e => obeys e.1 (applied holds [] e.2) i move

theorem lenientPlans_applied (hrules : ∀ rules ∈ profile, ∀ r ∈ rules, HoldsIn reader source r (holds r))
    (test : Nat → Move → Bool) (flag : Option Bool) : ∀ before rest : List Int, agents = before ++ rest →
    profile.length ≤ rest.length →
    lenientPlans reader source m (.ok true) agents (before.length + 1) (profile.map some) (keepMatrix test m.graph) flag =
      .ok (keepMatrix (fun i x => test i x && obeyed holds rest profile i x) m.graph,
        if ∀ rules ∈ profile, rules = [] then flag else some true) := by
  induction profile generalizing test flag with
  | nil =>
    intro before rest _ _
    simp only [obeyed, zip_nil_right, all_nil, Bool.and_true]
    rfl
  | cons rules profile ih =>
    intro before rest hagents hlen
    cases rest with
    | nil => cases hlen
    | cons a rest =>
      obtain ⟨hrules, hprofile⟩ := forall_mem_cons.1 hrules
      have ha : a ∈ agents := hagents ▸ mem_append_right _ mem_cons_self
      have hnext := ih hprofile (fun i x => test i x && obeys a (applied holds [] rules) i x)
        (if rules = [] then flag else some true) (before ++ [a]) rest (by simp [hagents]) (by simpa using hlen)
      rw [length_append] at hnext
      simp only [obeyed, zip_cons_cons, all_cons, ← Bool.and_assoc]
      refine bind_eq_ok.2 ⟨rules, rfl, bind_eq_ok.2 ⟨_,
        lenientRules_applied hact hstar ha (placeOf_append hagents) hrules (fun _ => rfl) _ _, hnext.trans ?_⟩⟩
      by_cases h : rules = [] <;> by_cases h' : ∀ rules ∈ profile, rules = [] <;> simp [h, obeyed]

theorem lenientPlans_graph (hlen : profile.length ≤ agents.length)
    (hrules : ∀ rules ∈ profile, ∀ r ∈ rules, HoldsIn reader source r (holds r)) :
    lenientPlans reader source m (.ok true) agents 1 (profile.map some) m.graph none =
      .ok (keepMatrix (obeyed holds agents profile) m.graph, if ∀ rules ∈ profile, rules = [] then none else some true) := by
  have hrun := lenientPlans_applied hact hstar hrules (fun _ _ => true) none [] agents rfl hlen
  have hgraph : keepMatrix (fun _ _ => true) m.graph = m.graph := by
    have hcell : keepCell (fun _ => true) = id := funext keepCell_true
    refine ext_getElem? fun i => ?_
    simp [keepMatrix, hcell]
  rwa [hgraph] at hrun

end Rules

end Pruning

namespace Recall

/-- The text of a model in which `B` leads away from `p`, and `A` back to it. -/
def detourLayout : Layout where
  front := []
  rows := ["I B", "A I"]
  unknown := []
  names := ["s0 s1"]
  middle := ["s0", "Resource", "5", "Actions_Costs_from_Transition", "0 1", "1 0", "Atomic_propositions", "p"]
  labels := ["1", "0"]
  back := ["1"]

def detour : Model where
  graph := [[.text "I", .text "B"], [.text "A", .text "I"]]
  states := ["s0", "s1"]
  props := ["p"]
  labels := [[.num 1], [.num 0]]
  initial := "s0"
  agents := .number 1
  resource := 5
  actionCosts := [["0", "1"], ["1", "0"]]

theorem detour_load : load .plain detourLayout.text = .ok detour := load_join (by decide) (by decide)

theorem actions_detour : detour.actions [1] = .ok [("agent1", ["A", "B"])] :=
  actions_eq (by decide)

end Recall

namespace Pruning

section Matrix

variable {source : String} (hload : load .plain source = .ok m) (hact : ∃ letters, m.actions agents = .ok letters)
  (hstar : "*" ∉ m.listedMoves) (hlen : profile.length ≤ agents.length) {holds : Rule → Names}
  (hrules : ∀ rules ∈ profile, ∀ r ∈ rules, HoldsIn reader source r (holds r))

include hload hact hstar hlen hrules

variable (holds) in
theorem lenientMatrix_eq {g : Matrix} (hg : keepMatrix (obeyed holds agents profile) m.graph = g) :
    lenientMatrix reader source agents (profile.map some) = .ok g := by
  subst hg
  have hrun := lenientPlans_graph hact hstar hlen hrules
  obtain ⟨letters, hact⟩ := hact
  exact bind_eq_ok.2 ⟨m, hload, bind_eq_ok.2 ⟨letters, hact, bind_eq_ok.2 ⟨_, hrun, rfl⟩⟩⟩

variable (holds) in
theorem gradedMatrix_eq (hwithin : m.affordable profile = .ok true) (hne : ∃ rules ∈ profile, rules ≠ []) {g : Matrix}
    (hg : keepMatrix (obeyed holds agents profile) m.graph = g) :
    gradedMatrix reader source agents (profile.map some) = .ok (g, true) := by
  subst hg
  have hrun := lenientPlans_graph hact hstar hlen hrules
  obtain ⟨letters, hact⟩ := hact
  obtain ⟨rules, hmem, hne⟩ := hne
  have hplans : (profile.map some).map (·.getD []) = profile := by simp [Function.comp_def]
  rw [if_neg (fun h => hne (h rules hmem))] at hrun
  refine bind_eq_ok.2 ⟨m, hload, bind_eq_ok.2 ⟨letters, hact, ?_⟩⟩
  rw [hplans, hwithin]
  exact bind_eq_ok.2 ⟨_, hrun, rfl⟩

/-- Lenient pruning by one list of rules for each of some agents, when all conditions hold somewhere. In each row the
joint actions are left that pass the tests of the rules that are applied there, also within the resource. -/
theorem lenientMatrix_applied :
    lenientMatrix reader source agents (profile.map some) = .ok (keepMatrix (obeyed holds agents profile) m.graph) ∧
      (m.affordable profile = .ok true → (∃ rules ∈ profile, rules ≠ []) →
        gradedMatrix reader source agents (profile.map some) =
          .ok (keepMatrix (obeyed holds agents profile) m.graph, true)) :=
  ⟨lenientMatrix_eq hload hact hstar hlen holds hrules rfl,
    fun hwithin hne => gradedMatrix_eq hload hact hstar hlen holds hrules hwithin hne rfl⟩

end Matrix

theorem check_home : check .ctl detourLayout.text "p" = .ok ⟨"Result: \x7b's0'\x7d", some "Initial state s0: True"⟩ :=
  (check_of_load detour_load (by decide)).trans (by decide +kernel)

/-- Three rules for the detour, the first and the last of them for home. -/
def homeRules : Strategy := [⟨"p", "B"⟩, ⟨"!p", "A"⟩, ⟨"p", "A"⟩]

def homeHolds (r : Rule) : Names := if r.condition = "p" then ["s0"] else ["s1"]

theorem holdsIn_homeRules : ∀ rules ∈ [homeRules], ∀ r ∈ rules, HoldsIn .ctl detourLayout.text r (homeHolds r) := by
  have haway : check .ctl detourLayout.text "!p" =
      .ok ⟨"Result: \x7b's1'\x7d", some "Initial state s0: False"⟩ :=
    (check_of_load detour_load (by decide)).trans (by decide +kernel)
  simp only [homeRules, forall_mem_singleton, forall_mem_cons]
  exact ⟨⟨by decide, _, check_home, names_s0⟩, ⟨by decide, _, haway, names_s1⟩, by decide, _, check_home, names_s0⟩

theorem lenientMatrix_applied_home : (∀ rules ∈ [homeRules], ∀ r ∈ rules, HoldsIn .ctl detourLayout.text r (homeHolds r)) ∧
    lenientMatrix .ctl detourLayout.text [1] [some homeRules] =
      .ok (keepMatrix (obeyed homeHolds [1] [homeRules]) detour.graph) :=
  ⟨holdsIn_homeRules, (lenientMatrix_applied detour_load ⟨_, actions_detour⟩ (by decide) (by decide) holdsIn_homeRules).1⟩

/-- The first rule that holds at home is to play `B`, but the last rule is applied there as well, and only idling is
left. -/
theorem lenientMatrix_home_last : detour.graph = [[.text "I", .text "B"], [.text "A", .text "I"]] ∧
    (homeRules.find? fun r => (homeHolds r).contains "s0") = some ⟨"p", "B"⟩ ∧
    lenientMatrix .ctl detourLayout.text [1] [some homeRules] =
      .ok [[.text "I", .zero], [.text "A", .text "I"]] :=
  ⟨rfl, rfl, lenientMatrix_eq detour_load ⟨_, actions_detour⟩ (by decide) (by decide) homeHolds holdsIn_homeRules
    (by decide)⟩

end Pruning

end Arena.Natural
