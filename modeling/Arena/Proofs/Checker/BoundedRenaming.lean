/-
Formulas with bounds on models whose states have other names. A renaming takes the answer to that for the renamed model
as long as the prices under the default names of the rows stay.
-/
import Arena.Proofs.Checker.History

namespace Arena.Checker.Bounded

open Formula Text Model List
open Branching (Renames renames_ofList)

variable {p : Pricing} {f : String → String} {m m' : Model} {source : String}

/-- The solution of a tree on the renamed model is the solution with the new names. -/
theorem agree_solution (h : Quiet p f m m') (n : Nat) : ∀ {t t'}, MatchedTree f m.states t t' → need p t ≤ n →
    Agree (MatchedTree f m.states) (solution p m t) (solution p m' t') := by
  induction n with
  | zero =>
    intro t t' _ hneed
    have := need_pos p t
    omega
  | succ n ih =>
    intro t t' ht hneed
    have hagain : ∀ {u u'}, MatchedTree f m.states u u' → need p u ≤ n →
        Tandem (fun _ => True) (Twins p f m.states u u') (lift (solution p m u)) (lift (solution p m' u')) := by
      intro u u' hu hle
      have hpost : ∀ v, solution p m u = .ok v → Solved p u v := fun _ hv =>
        (solution_twins h.calm hu.fit.1 hv).solved
      have hpost' : ∀ v, solution p m' u' = .ok v → Solved p u' v := fun _ hv =>
        (solution_twins h.calm' (by rw [Fit, h.states]; exact hu.fit.2) hv).solved
      have hagree := ih hu hle
      generalize solution p m u = r at hagree hpost ⊢
      generalize solution p m' u' = r' at hagree hpost' ⊢
      cases hagree with
      | ok hv => exact tandem_lift (.ok ⟨hv, hpost _ rfl, hpost' _ rfl⟩)
      | error e => exact tandem_throw e
    rw [solution_eq h.calm ht.fit.1, solution_eq h.calm' (by rw [Fit, h.states]; exact ht.fit.2)]
    exact (tandem_node h hagain ht hneed).agree.mono fun _ _ h => h.1.matched

/-! ## Costs under other names -/

theorem costKey_inj {a b x y : String} (hx : ';' ∉ x.toList) (hy : ';' ∉ y.toList) :
    costKey a x = costKey b y ↔ a = b ∧ x = y := by
  refine ⟨fun h => ?_, fun h => by rw [h.1, h.2]⟩
  have hlist : a.toList ++ ';' :: x.toList = b.toList ++ ';' :: y.toList := by
    have := congrArg String.toList h
    simpa [costKey] using this
  -- if one action were longer, its rest would put a semicolon into the other state
  have hlonger : ∀ {u v c : List Char}, ';' ∉ v → ';' :: v = c ++ ';' :: u → c = [] := by
    intro u v c hv he
    rcases c with _ | ⟨d, c⟩
    · rfl
    · exact absurd ((cons.inj he).2 ▸ mem_append_right c mem_cons_self) hv
  rcases append_eq_append_iff.1 hlist with ⟨c, hb, hc⟩ | ⟨c, ha, hc⟩
  · obtain rfl := hlonger hx hc
    rw [append_nil] at hb
    exact ⟨String.toList_injective hb.symm, String.toList_injective (cons.inj hc).2⟩
  · obtain rfl := hlonger hy hc
    rw [append_nil] at ha
    exact ⟨String.toList_injective ha, String.toList_injective (cons.inj hc).2.symm⟩

/-- The costs are kept under the new names of the states they were kept under, where a name that is the default name
of one of `n` rows, before or after, stays as it is. -/
def CostsRenamed (f : String → String) (n : Nat) (costs costs' : List (String × Cost)) : Prop :=
  Forall₂ (fun e e' => ∃ action q, ';' ∉ q.toList ∧ ';' ∉ (f q).toList ∧ e.1 = costKey action q ∧
    e' = (costKey action (f q), e.2) ∧ ∀ i : Nat, i < n → (f q = defaultName i ↔ q = defaultName i))
    costs costs'

theorem semicolon_defaultName (i : Nat) : ';' ∉ (defaultName i).toList := fun h =>
  absurd (mem_defaultName h) (by decide)

theorem CostsRenamed.find? {n i : Nat} (hi : i < n) (move : Move) {costs costs' : List (String × Cost)}
    (h : CostsRenamed f n costs costs') :
    (costs'.find? fun e => e.1 == costKey move (defaultName i)).map (·.2) =
      (costs.find? fun e => e.1 == costKey move (defaultName i)).map (·.2) := by
  induction h with
  | nil => rfl
  | @cons e e' costs costs' he _ ih =>
    obtain ⟨action, q, hq, hfq, hkey, rfl, hfix⟩ := he
    have hsame : (costKey action (f q) == costKey move (defaultName i)) =
        (e.1 == costKey move (defaultName i)) := by
      rw [hkey, Bool.eq_iff_iff, beq_iff_eq, beq_iff_eq, costKey_inj hfq (semicolon_defaultName i),
        costKey_inj hq (semicolon_defaultName i), hfix i hi]
    simp only [find?_cons, hsame]
    split
    · rfl
    · exact ih

/-! ## Checking -/

/-- A report and the one for a model with other names: the same message, the set of new names, or the same label of an
operator that is not evaluated. -/
inductive Image (f : String → String) (m m' : Model) : Report → Report → Prop
  | message (s : String) : Image f m m' (.message s) (.message s)
  | set {S : Names} (hS : S.Nodup) (hin : ∀ q ∈ S, q ∈ m.states) :
      Image f m m' (.solved m S.print) (.solved m' (Names.print (S.map f)))
  | label {l : String} (h : Known l) : Image f m m' (.solved m l) (.solved m' l)

theorem check_eq_direct (hm : load .cost source = .ok m) (hcalm : ∀ q ∈ m.states, Calm p q) (formula : String) :
    check p p.logic source formula = value (checkDirect p source formula) := by
  have htandem : Tandem (Sound p m) Eq (checkWith p p.logic source formula) (checkDirect p source formula) := by
    refine tandem_checkWith (fun m' hm' => ?_) formula
    cases hm.symm.trans hm'
    exact ⟨hcalm, rfl⟩
  obtain ⟨mem, -, hrun⟩ := htandem.run_eq [] sound_nil
  rw [check, hrun]

theorem Quiet.tandem_check (h : Quiet p f m m') {source' : String} (hm : load .cost source = .ok m)
    (hm' : load .cost source' = .ok m') (formula : String) :
    Tandem (fun _ => True) (Image f m m') (checkDirect p source formula) (checkDirect p source' formula) := by
  unfold checkDirect
  split
  · exact tandem_pure (.message _)
  rw [hm, hm']
  refine tandem_bind (R := fun a b => a = m ∧ b = m') (tandem_lift (.ok ⟨rfl, rfl⟩)) ?_
  rintro _ _ ⟨rfl, rfl⟩
  rw [h.agents]
  refine tandem_bind (tandem_same _) ?_
  rintro f? _ ⟨rfl, hparse⟩
  cases f? with
  | none => exact tandem_pure (.message _)
  | some g =>
    obtain ⟨agents, -, hparse⟩ := bind_eq_ok.1 hparse
    refine tandem_bind (tandem_lift (h.agree_ground (labelled_parse hparse))) fun t? t?' ht => ?_
    cases ht with
    | none => exact tandem_pure (.message _)
    | some ht =>
      refine tandem_bind (tandem_lift (agree_solution h _ ht le_rfl)) fun t t' ht => ?_
      refine tandem_pure ?_
      have htext := ht.text
      generalize t.text = x at htext
      generalize t'.text = x' at htext
      cases htext with
      | label hl => exact .label hl
      | @set S S' hS =>
        have hmap : (S.map f).Nodup := (hS.perm h.inj).nodup_iff.1 hS.nodup'
        rw [Names.print_congr hS.nodup' hmap fun x => (hS.perm h.inj).mem_iff]
        exact .set hS.nodup hS.inside

/-- When the states of a model have other names and the costs stay where they are, or are kept under the new names
without touching the default names of the rows, both checks fail with the same cause or the second one reports what
the first one reports with the new names. -/
theorem check_renamed {source source' : String} (hm : Model.load .cost source = .ok m)
    (hm' : Model.load .cost source' = .ok m') (hparts : m' = { m.rename f with costs := m'.costs })
    (hinj : Set.InjOn f {q | q ∈ m.states})
    (hcosts : m'.costs = m.costs ∨ CostsRenamed f m.graph.length m.costs m'.costs)
    (hcalm : ∀ q ∈ m.states, Calm p q ∧ Calm p (f q)) (formula : String) :
    Agree (Image f m m') (check p p.logic source formula) (check p p.logic source' formula) := by
  have hrenamed : Renamed f m m' := by
    rw [hparts]
    refine ⟨rfl, rfl, rfl, rfl, fun q hq r hr he => hinj hq hr he, fun i hi move => ?_⟩
    rw [Model.costOf, Model.costOf]
    rcases hcosts with hsame | hren
    · rw [hsame]
    · rw [hren.find? hi move]
  have hquiet : Quiet p f m m' := by
    refine ⟨hrenamed, fun q hq => (hcalm q hq).1, fun x hx => ?_⟩
    rw [hrenamed.states] at hx
    obtain ⟨q, hq, rfl⟩ := List.mem_map.1 hx
    exact (hcalm q hq).2
  rw [check_eq_direct hm hquiet.calm, check_eq_direct hm' hquiet.calm']
  exact (hquiet.tandem_check hm hm' formula).agree

/-! ## Two states with prices -/

/-- The lines of a model whose two states lead to each other, with `p` in the second one. -/
def pricedLines (first second title costs : String) : List String :=
  ["Transition", "0 A", "A 0", "Unkown_Transition_by", "Name_State", first ++ " " ++ second, "Initial_State", first,
    "Atomic_propositions", "p", "Labelling", "0", "1", "Number_of_agents", "1", title, costs]

def priced (first second : String) (costs : List (String × Cost)) : Model where
  graph := [[.zero, .text "A"], [.text "A", .zero]]
  states := [first, second]
  props := ["p"]
  labels := [[.num 0], [.num 1]]
  initial := first
  agents := .text "1"
  costs := costs

/-- The first state may be left for nothing, the second one costs one unit. -/
def oneUnit : List (String × Cost) := [("A;s0", .shared [0]), ("A;s1", .shared [1])]

theorem load_oneUnit : load .cost (textOf (pricedLines "s0" "s1" "Costs_for_actions" "A s0$0;s1$1")) =
    .ok (priced "s0" "s1" oneUnit) :=
  load_join (by decide) (by decide)

theorem load_leftRight : load .cost (textOf (pricedLines "left" "right" "Costs_for_actions" "A s0$0;s1$1")) =
    .ok (priced "left" "right" oneUnit) :=
  load_join (by decide) (by decide)

theorem check_oneUnit :
    check .joint .rbatl (textOf (pricedLines "s0" "s1" "Costs_for_actions" "A s0$0;s1$1")) "<1><0>Xp" =
      .ok (.solved (priced "s0" "s1" oneUnit) "\x7b's0'\x7d") :=
  (check_of_load load_oneUnit (by decide)).trans (by decide +kernel)

/-- The states get other names, and the prices stay under the default ones. -/
theorem check_renamed_leftRight :
    check .joint .rbatl (textOf (pricedLines "s0" "s1" "Costs_for_actions" "A s0$0;s1$1")) "<1><0>Xp" =
        .ok (.solved (priced "s0" "s1" oneUnit) "\x7b's0'\x7d") ∧
      Agree (Image (Branching.named "left" "right") (priced "s0" "s1" oneUnit) (priced "left" "right" oneUnit))
        (check .joint .rbatl (textOf (pricedLines "s0" "s1" "Costs_for_actions" "A s0$0;s1$1")) "<1><0>Xp")
        (check .joint .rbatl (textOf (pricedLines "left" "right" "Costs_for_actions" "A s0$0;s1$1")) "<1><0>Xp") :=
  ⟨check_oneUnit, check_renamed (p := .joint) load_oneUnit load_leftRight rfl (by decide) (.inl rfl) (by decide) _⟩

theorem load_namedPrices :
    load .cost (textOf (pricedLines "a" "b" "Costs_for_actions" "A a$0;b$1")) =
        .ok (priced "a" "b" [("A;a", .shared [0]), ("A;b", .shared [1])]) ∧
      load .cost (textOf (pricedLines "s1" "s0" "Costs_for_actions" "A s1$0;s0$1")) =
        .ok (priced "s1" "s0" [("A;s1", .shared [0]), ("A;s0", .shared [1])]) ∧
      load .cost (textOf (pricedLines "s1" "s0" "Costs_for_actions_split" "A s1$0;s0$1")) =
        .ok (priced "s1" "s0" [("A;s1", .split [[0]]), ("A;s0", .split [[1]])]) := by
  refine ⟨?_, ?_, ?_⟩ <;>
  exact load_join (by decide) (by decide)

/-- With the prices under the new names as well, a price is missing or that of another state. -/
theorem check_consistently_renamed :
    check .joint .rbatl (textOf (pricedLines "s0" "s1" "Costs_for_actions" "A s0$0;s1$1")) "<1><0>Xp" =
        .ok (.solved (priced "s0" "s1" oneUnit) "\x7b's0'\x7d") ∧
      check .joint .rbatl (textOf (pricedLines "a" "b" "Costs_for_actions" "A a$0;b$1")) "<1><0>Xp" = .error .key ∧
      check .joint .rbatl (textOf (pricedLines "s1" "s0" "Costs_for_actions" "A s1$0;s0$1")) "<1><0>Xp" =
        .ok (.solved (priced "s1" "s0" [("A;s1", .shared [0]), ("A;s0", .shared [1])]) "set()") ∧
      check .perAgent .rabatl (textOf (pricedLines "s1" "s0" "Costs_for_actions_split" "A s1$0;s0$1")) "<1><0>Xp" =
        .ok (.solved (priced "s1" "s0" [("A;s1", .split [[0]]), ("A;s0", .split [[1]])]) "set()") := by
  refine ⟨check_oneUnit, ?_, ?_, ?_⟩
  · exact (check_of_load load_namedPrices.1 (by decide)).trans (by decide +kernel)
  · exact (check_of_load load_namedPrices.2.1 (by decide)).trans (by decide +kernel)
  · exact (check_of_load load_namedPrices.2.2 (by decide)).trans (by decide +kernel)

end Arena.Checker.Bounded
