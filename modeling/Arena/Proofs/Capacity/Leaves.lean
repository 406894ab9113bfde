/-
What formulas on capacities are about: capacities or propositions of the states. Propositions are looked up when the
tree is built and have no value, so a check fails on each formula with one; so does a step of a coalition. Connectives
tell a set from a text by its first element, so they are set operations unless it is empty.
-/
import Arena.Capacity.Checker
import Arena.Proofs.Model.Sections
import Arena.Proofs.Model.Transitions

namespace Arena.Capacity

open List Checker Formula

variable {m : Model} {f : Formula} {o : String}

/-- The texts that stand at the leaves of a formula. -/
def leaves : Formula → List String
  | .atom s => [s]
  | .hole => ["None"]
  | .unary _ f => leaves f
  | .binary _ f g => leaves f ++ leaves g
  | .starred f => leaves f

/-- A text that speaks of an agent and a capacity: it has digits and letters. -/
abbrev Speaks (s : String) : Prop := hasDigitsAndLetters (Place.lettersOf s) = true

theorem not_speaks {s : String} (h : ∀ c ∈ s.toList, Text.isDigit c = false) : ¬ Speaks s := by
  have hdigits : hasDigitsAndLetters.all (Place.lettersOf s) Text.isDigit = false := by
    unfold hasDigitsAndLetters.all Place.lettersOf
    rw [any_map, any_eq_false]
    intro c hc
    simp [h c hc]
  unfold Speaks hasDigitsAndLetters
  rw [hdigits]
  exact Bool.false_ne_true

theorem exists_pointedKnowledge {table : List (List String)} (h : m.capacityTable = .ok table) :
    ∃ ps, pointedKnowledge m = .ok ps := by
  obtain ⟨n, hn, -⟩ := bind_eq_ok.1 h
  have hset : assignmentSet m = .ok (Text.distinct (product (table.map tail))) := by
    unfold assignmentSet assignments
    rw [h]
    rfl
  unfold pointedKnowledge beliefs allAgents
  rw [hset, hn]
  exact ⟨_, rfl⟩

/-- The tree of a formula can be built just if all its leaves speak of capacities. -/
theorem ground_leaves {ps : List Pointed} (hps : pointedKnowledge m = .ok ps) : ∀ {f : Formula},
    (∀ s ∈ leaves f, Speaks s → ∃ as, capacityAtom m s = .ok (some as)) →
      if ∀ s ∈ leaves f, Speaks s then ∃ t, ground m f = .ok (some t) else ground m f = .error .value := by
  have hatom : ∀ s, (Speaks s → ∃ as, capacityAtom m s = .ok (some as)) →
      if Speaks s then ∃ t, ground.atomTree m s = .ok (some t) else ground.atomTree m s = .error .value := by
    intro s hs
    unfold ground.atomTree
    split_ifs with h
    · obtain ⟨as, has⟩ := hs h
      rw [has]
      exact ⟨_, rfl⟩
    · rw [hps]
      rfl
  intro f hf
  induction f with
  | atom s => simpa [leaves, ground] using hatom s (hf s (by simp [leaves]))
  | hole => simpa [leaves, ground] using hatom "None" (hf "None" (by simp [leaves]))
  | unary o f ih =>
    have ih := ih hf
    unfold ground leaves
    split_ifs at ih ⊢
    · obtain ⟨t, ht⟩ := ih
      rw [ht]
      exact ⟨_, rfl⟩
    · rw [ih]
      rfl
  | binary o f g ihf ihg =>
    obtain ⟨hl, hr⟩ := forall_mem_append.1 hf
    have ihf := ihf hl
    have ihg := ihg hr
    unfold ground
    simp only [leaves, forall_mem_append]
    by_cases hleft : ∀ s ∈ leaves f, Speaks s
    · rw [if_pos hleft] at ihf
      obtain ⟨t, ht⟩ := ihf
      rw [ht]
      by_cases hright : ∀ s ∈ leaves g, Speaks s
      · rw [if_pos hright] at ihg
        obtain ⟨u, hu⟩ := ihg
        rw [if_pos ⟨hleft, hright⟩, hu]
        exact ⟨_, rfl⟩
      · rw [if_neg hright] at ihg
        rw [if_neg fun h => hright h.2, ihg]
        rfl
    · rw [if_neg hleft] at ihf
      rw [if_neg fun h => hleft h.1, ihf]
      rfl
  | starred f ih => exact ih hf

/-! ## Steps -/

/-- The labels of a formula that have one subformula. -/
def labels : Formula → List String
  | .unary o f => o :: labels f
  | .binary _ f g => labels f ++ labels g
  | .starred f => labels f
  | _ => []

/-- A label that asks for a step of a coalition, and is short enough to be looked at. -/
def IsStep (o : String) : Prop :=
  o.length ≤ 32 ∧ .not ∉ kindsIn .capATL o ∧ .coalition ∈ kindsIn .capATL o ∧
    .next ∈ kindsIn .capATL o

theorem solveOne_step (h : IsStep o) (v w : Value) : solveOne m o v ≠ .ok w := by
  obtain ⟨hshort, hnot, hcoalition, hnext⟩ := h
  have hshort : (Value.label o).short? = some o := by simp [Value.short?, hshort]
  unfold solveOne
  rw [hshort]
  simp only [contains_iff_mem, hnot, hcoalition, hnext, Bool.and_eq_true]
  intro h
  obtain ⟨ws, -, h⟩ := bind_eq_ok.1 h
  cases h

theorem solve_step (ho : IsStep o) : ∀ {t : Tree}, ground m f = .ok (some t) →
    o ∈ labels f → ∀ v, solve m t ≠ .ok v := by
  induction f with
  | atom s => exact fun _ h => absurd h not_mem_nil
  | hole => exact fun _ h => absurd h not_mem_nil
  | unary l f ih =>
    intro t ht hmem v hv
    obtain ⟨t?, hf, ht⟩ := bind_eq_ok.1 ht
    cases t? with
    | none => cases ht
    | some u =>
      cases ht
      obtain ⟨w, hw, hone⟩ := bind_eq_ok.1 hv
      rcases mem_cons.1 hmem with rfl | hmem
      · exact solveOne_step ho w v hone
      · exact ih hf hmem w hw
  | binary l f g ihf ihg =>
    intro t ht hmem v hv
    obtain ⟨t?, hf, ht⟩ := bind_eq_ok.1 ht
    cases t? with
    | none => cases ht
    | some u =>
      obtain ⟨u?, hg, ht⟩ := bind_eq_ok.1 ht
      cases u? with
      | none => cases ht
      | some u' =>
        cases ht
        obtain ⟨w, hw, hrest⟩ := bind_eq_ok.1 hv
        obtain ⟨w', hw', -⟩ := bind_eq_ok.1 hrest
        rcases mem_append.1 hmem with hmem | hmem
        · exact ihf hf hmem w hw
        · exact ihg hg hmem w' hw'
  | starred f ih => exact fun ht hmem => ih ht hmem

/-! ## Checks -/

/-- The answer that a value gives: the places where nobody knows anything. -/
def answer (m : Model) (v : Value) : Outcome Report := do
  let places ← ignorantPlaces m v
  return ⟨(Datum.list (places.map toDatum)).print, none⟩

theorem check_eq {reader : Formula.Logic} {source formula : String} {valid : Bool} {agents : Formula.AgentCount}
    (hblank : isBlankFormula formula = false) (hload : Model.load .capacity source = .ok m)
    (hvalid : isValid m = .ok valid) (hagents : m.agents.forFormula = .ok agents)
    (hparse : parse reader .capATL agents formula = .ok (some f)) :
    check reader source formula = (do
      match ← ground m f with
      | none => return .message "Syntax Error: the atom does not exist"
      | some t => answer m (← solve m t)) := by
  unfold check
  rw [hblank, hload]
  change (isValid m >>= fun _ => _) = _
  rw [hvalid]
  rw [hagents]
  change (parse reader .capATL agents formula >>= fun _ => _) = _
  rw [hparse]
  rfl

/-! ## A single state -/

/-- The lines of a valid model with one state, in which `p` holds and the second agent may have either capacity. -/
def singleLines : List String :=
  ["Transition", "AB", "Name_State", "s0", "Initial_State", "s0", "Atomic_propositions", "p", "Labelling", "1",
    "Capacities", "c d", "Capacities_assignment", "1 0", "1 1", "Actions_for_capacities", "c A", "d B",
    "Number_of_agents", "2"]

def singleText : String := String.join (singleLines.map (· ++ "\n"))

def single : Model where
  graph := [[.text "AB"]]
  states := ["s0"]
  props := ["p"]
  labels := [[.num 1]]
  initial := "s0"
  agents := .text "2"
  capacities := ["c", "d"]
  assignment := [["1", "0"], ["1", "1"]]
  capacityActions := [["c", "A"], ["d", "B"]]

theorem single_load : Model.load .capacity singleText = .ok single := Model.load_join (by decide) (by decide)

theorem single_valid : isValid single = .ok true := by decide +kernel

theorem single_table : single.capacityTable = .ok [["1", "c"], ["2", "c", "d"]] := by decide

/-- On a valid model, and where each capacity that a formula names belongs to an agent, a check fails on every formula
with a leaf that speaks of no capacity, as the propositions do. Otherwise it answers by the value of a tree; it fails
if a step of a coalition occurs. -/
theorem check_leaves {reader : Formula.Logic} {source formula : String} {agents : Formula.AgentCount} {f : Formula}
    {table : List (List String)} (hblank : Checker.isBlankFormula formula = false)
    (hload : Model.load .capacity source = .ok m) (hvalid : isValid m = .ok true) (htable : m.capacityTable = .ok table)
    (hagents : m.agents.forFormula = .ok agents) (hparse : parse reader .capATL agents formula = .ok (some f))
    (hnames : ∀ s ∈ leaves f, Speaks s → ∃ as, capacityAtom m s = .ok (some as)) :
    ((∃ p ∈ leaves f, ∀ c ∈ p.toList, Text.isDigit c = false) → ∃ p ∈ leaves f, ¬ Speaks p) ∧
      ((∃ p ∈ leaves f, ¬ Speaks p) → check reader source formula = .error .value) ∧
      ((∀ s ∈ leaves f, Speaks s) → ∃ t, ground m f = .ok (some t) ∧
        check reader source formula = (solve m t >>= answer m) ∧
        ((∃ o ∈ labels f, IsStep o) → ∀ r, check reader source formula ≠ .ok r)) := by
  obtain ⟨ps, hps⟩ := exists_pointedKnowledge htable
  have hground := ground_leaves hps hnames
  rw [check_eq hblank hload hvalid hagents hparse]
  refine ⟨fun ⟨p, hp, hdigits⟩ => ⟨p, hp, not_speaks hdigits⟩, fun ⟨p, hp, hnot⟩ => ?_, fun h => ?_⟩
  · rw [if_neg fun h => hnot (h p hp)] at hground
    rw [hground]
    rfl
  · rw [if_pos h] at hground
    obtain ⟨t, ht⟩ := hground
    rw [ht]
    refine ⟨t, rfl, rfl, fun ⟨o, ho, hstep⟩ r hr => ?_⟩
    obtain ⟨v, hv, -⟩ := bind_eq_ok.1 (show (solve m t >>= answer m) = .ok r from hr)
    exact solve_step hstep ht ho v hv

/-- A formula with what the first agent knows and a proposition. -/
theorem check_leaves_single :
    (isValid single = .ok true ∧
      parse .capATL .capATL (.ofText "2") "(K1 1 IS c) && p" =
        .ok (some (.binary "&&" (.unary "K1" (.atom "1c")) (.atom "p")))) ∧
      check .capATL singleText "(K1 1 IS c) && p" = .error .value := by
  have hparse : parse .capATL .capATL (.ofText "2") "(K1 1 IS c) && p" =
      .ok (some (.binary "&&" (.unary "K1" (.atom "1c")) (.atom "p"))) := by decide
  have hnames : ∀ s ∈ leaves (.binary "&&" (.unary "K1" (.atom "1c")) (.atom "p")), Speaks s → ∃ as, capacityAtom single s = .ok (some as) := by
    change ∀ s ∈ ["1c", "p"], _
    simp only [forall_mem_cons]
    refine ⟨fun _ => ⟨[["c", "c"], ["c", "d"]], by decide⟩, fun h => absurd h (by decide), ?_⟩
    exact fun _ h => absurd h not_mem_nil
  obtain ⟨hdigits, hfails, -⟩ := check_leaves (by decide) single_load single_valid single_table rfl hparse hnames
  exact ⟨⟨single_valid, hparse⟩, hfails (hdigits ⟨"p", by decide, by decide⟩)⟩

/-- A proposition that holds in the only state has no value. -/
theorem check_single_fails : isValid single = .ok true ∧ "p" ∈ single.props ∧
    parse .capATL .capATL (.ofText "2") "p" = .ok (some (.atom "p")) ∧
    check .capATL singleText "p" = .error .value := by
  have hparse : parse .capATL .capATL (.ofText "2") "p" = .ok (some (.atom "p")) := by decide
  refine ⟨single_valid, by decide, hparse, ?_⟩
  rw [check_eq (by decide) single_load single_valid rfl hparse]
  rfl

/-! ## Connectives -/

theorem solve_binary {a b : Tree} {v w : Value} (ha : solve m a = .ok v) (hb : solve m b = .ok w) :
    solve m (.binary o a b) = solveTwo m o v w := by
  change (solve m a >>= fun v => solve m b >>= solveTwo m o v) = _
  rw [ha, hb]
  rfl

/-- On sets that are not empty a negation is the complement, and on sets of pointed knowledge a conjunction is the
intersection; one of sets of assignments keeps its label. On an empty set, if it is the left one, both fail. -/
theorem solve_connectives {o o' : String} {a b : Tree} {known : List Pointed} {possible : List Assignment}
    (ho : o.length ≤ 32 ∧ .not ∈ kindsIn .capATL o)
    (ho' : .and ∈ kindsIn .capATL o' ∧ .coalition ∉ kindsIn .capATL o')
    (hknown : pointedKnowledge m = .ok known) (hpossible : assignmentSet m = .ok possible) :
    (∀ ps qs, solve m a = .ok (.pointed ps) → solve m b = .ok (.pointed qs) →
      solve m (.unary o a) =
        (if ps = [] then .error .exhausted else .ok (.pointed (known.filter (· ∉ ps)))) ∧
      solve m (.binary o' a b) = if ps = [] then .error .exhausted else .ok (.pointed (ps.filter (· ∈ qs)))) ∧
    (∀ as bs, solve m a = .ok (.assignments as) → solve m b = .ok (.assignments bs) →
      solve m (.unary o a) =
        (if as = [] then .error .exhausted else .ok (.assignments (possible.filter (· ∉ as)))) ∧
      solve m (.binary o' a b) = if as = [] then .error .exhausted else .ok (.label o')) := by
  have hone : ∀ v, solve m a = .ok v → solve m (.unary o a) = negation m o v := fun v hv => by
    have hshort : (Value.label o).short? = some o := by simp [Value.short?, ho.1]
    rw [solve, hv]
    unfold solveOne
    rw [hshort]
    exact if_pos (contains_iff_mem.2 ho.2)
  have htwo : ∀ v w, solve m a = .ok v → solve m b = .ok w → solve m (.binary o' a b) = conjunction o' v w :=
    fun v w hv hw => by simp [solve_binary hv hw, solveTwo, ho'.1, ho'.2]
  refine ⟨fun ps qs ha hb => ?_, fun as bs ha hb => ?_⟩ <;> rw [hone _ ha, htwo _ _ ha hb]
  · cases ps with
    | nil => exact ⟨rfl, rfl⟩
    | cons p ps =>
      have hmem : qs.contains = fun q => decide (q ∈ qs) := funext fun q => contains_eq_mem q qs
      simp [negation, hknown, conjunction, hmem]
  · cases as with
    | nil => exact ⟨rfl, rfl⟩
    | cons a as => simp [negation, hpossible, conjunction]

/-- What the first agent knows in any case. -/
def certain : Tree := .unary "K1" (.leaf (.assignments [["c", "c"], ["c", "d"]]))

theorem single_answers : solve single (.unary "!" certain) = .ok (.pointed []) ∧
    (∃ all, pledges single (coalitionOf "<1>U") = .ok all ∧ all ≠ []) ∧
    solve single (.binary "<1>U" certain certain) = .error .name := by decide +kernel

/-- Its negation holds nowhere, and can be neither negated nor met with itself. -/
theorem solve_connectives_single : solve single (.unary "!" certain) = .ok (.pointed []) ∧
    solve single (.unary "!" (.unary "!" certain)) = .error .exhausted ∧
    solve single (.binary "&&" (.unary "!" certain) (.unary "!" certain)) = .error .exhausted := by
  obtain ⟨known, hknown⟩ := exists_pointedKnowledge single_table
  obtain ⟨possible, hpossible, -⟩ := bind_eq_ok.1 (bind_eq_ok.1 hknown).choose_spec.1
  have hnowhere := single_answers.1
  exact ⟨hnowhere, (solve_connectives (by decide) (by decide) hknown hpossible).1 [] [] hnowhere hnowhere⟩

/-! ## Loops -/

/-- A pledge that is made at some pointed knowledge. -/
def Pledge.on (ps : List Pointed) (w : Pledge) : Bool :=
  (ps.map fun p => (p.place, p.beliefs)).contains (w.place, w.beliefs)

section Loops

variable {n : Nat} {coalition : String} {left all : List Pledge} {ps qs : List Pointed} {P : Pledge → Bool}

theorem pledgesOfValue_pointed (hall : pledges m coalition = .ok all) :
    pledgesOfValue m (.pointed ps) coalition = .ok (all.filter (·.on ps)) := by
  change (pledges m coalition >>= fun _ => pledges m coalition >>= fun ws => .ok (ws.filter (·.on ps))) = _
  rw [hall]
  rfl

theorem inside_filter : inside Pledge.notIn all (all.filter P) = true ↔ ∀ w ∈ all, P w := by
  have hself : ∀ w ∈ all, (!w.notIn all) = true := fun w hw => by
    simpa [Pledge.notIn, Pledge.sameAs] using ⟨w, hw, by simp⟩
  refine Bool.and_eq_true_iff.trans ⟨fun h => ?_, fun h => ?_⟩
  · exact length_filter_eq_length_iff.1 ((length_filter_le ..).antisymm (of_decide_eq_true h.1))
  · rw [filter_eq_self.2 h]
    exact ⟨decide_eq_true le_rfl, all_eq_true.2 hself⟩

/-- Steps of a coalition are never computed, so the loops end in their first round. -/
theorem releaseLoop_succ : releaseLoop m coalition left (n + 1) all (all.filter P) =
    if ∀ w ∈ all, P w then .ok all else .error .name :=
  if_congr inside_filter rfl rfl

theorem untilLoop_succ : untilLoop m coalition left (n + 1) [] (all.filter P) =
    if ∃ w ∈ all, P w then .error .name else .ok [] := by
  cases h : all.filter P with
  | nil => exact (if_neg (by simpa using h)).symm
  | cons w ws => exact (if_pos ⟨w, mem_filter.1 (h ▸ mem_cons_self)⟩).symm

/-- On sets of pointed knowledge, a release holds wherever there is a pledge if all of them are made on the right, and an
until holds nowhere if none is. In all other cases both fail in the first round. -/
theorem solve_loops {a b : Tree} {known : List Pointed} (ho : .coalition ∈ kindsIn .capATL o)
    (ha : solve m a = .ok (.pointed ps)) (hb : solve m b = .ok (.pointed qs)) (hknown : pointedKnowledge m = .ok known)
    (hall : pledges m (coalitionOf o) = .ok all) :
    (.release ∈ kindsIn .capATL o → solve m (.binary o a b) =
      if ∀ w ∈ all, w.on qs then .ok (.pointed (known.filter fun p => !(actionsIn p all).isEmpty))
      else .error .name) ∧
    (.untl ∈ kindsIn .capATL o → .release ∉ kindsIn .capATL o → solve m (.binary o a b) =
      if ∃ w ∈ all, w.on qs then .error .name else .ok (.pointed [])) := by
  have hpointed : ∀ ws, pointedOf m ws = .ok (known.filter fun p => !(actionsIn p ws).isEmpty) := fun ws => by
    change (pointedKnowledge m >>= fun ps => .ok (ps.filter fun p => !(actionsIn p ws).isEmpty)) = _
    rw [hknown]
    rfl
  rw [solve_binary ha hb]
  refine ⟨fun hrelease => (if_pos (by simp [ho, hrelease])).trans ?_, fun huntil hrelease =>
    (if_neg (by simp [hrelease])).trans ((if_pos (by simp [ho, huntil])).trans ?_)⟩
  · simp only [hall, pledgesOfValue_pointed hall, bind, Except.bind, releaseLoop_succ, hpointed]
    split_ifs <;> rfl
  · have hnone : (known.filter fun p => !(actionsIn p []).isEmpty) = [] :=
      filter_eq_nil_iff.2 fun _ _ => Bool.false_ne_true
    simp only [hall, pledgesOfValue_pointed hall, bind, Except.bind, untilLoop_succ, hpointed, ← hnone]
    split_ifs <;> rfl

end Loops

/-- Nowhere can the first agent bring about what holds nowhere. -/
theorem solve_loops_single :
    solve single (.binary "<1>U" (.unary "!" certain) (.unary "!" certain)) = .ok (.pointed []) := by
  obtain ⟨hnowhere, ⟨all, hall, -⟩, -⟩ := single_answers
  obtain ⟨known, hknown⟩ := exists_pointedKnowledge single_table
  have hloop := (solve_loops (by decide) hnowhere hnowhere hknown hall).2 (by decide) (by decide)
  exact hloop.trans (if_neg (by simp [Pledge.on]))

/-- An until of what holds everywhere fails. -/
theorem solve_loops_fail : solve single (.binary "<1>U" certain certain) = .error .name := single_answers.2.2

end Arena.Capacity
