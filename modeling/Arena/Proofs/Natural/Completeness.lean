/-
Which profiles a search without memory offers: those that take, at one complexity, for each agent a strategy of exactly
that cost, which has some rules of its table in their order with pairwise different actions. So the search is complete
for its bound just as far as all agents spend the same.
-/
import Arena.Proofs.Model.Layout
import Arena.Proofs.Natural.MemorylessSearch
import Mathlib.Data.List.Sort

namespace Arena.Natural

open Drawing List Model Guard

variable {p : Profile} {t : Task}

/-! ## Profiles -/

theorem mem_profiles_iff : ∀ {sss : List (List Strategy)} {p : Profile},
    p ∈ profiles sss ↔ Forall₂ (fun ss s => s ∈ ss) sss p
  | [], p => by
    rw [profiles, mem_singleton, forall₂_nil_left_iff]
  | ss :: rest, p => by
    rw [profiles, mem_flatMap, forall₂_cons_left_iff]
    constructor
    · rintro ⟨s, hs, hp⟩
      obtain ⟨rest', hrest, rfl⟩ := mem_map.1 hp
      exact ⟨s, rest', hs, mem_profiles_iff.1 hrest, rfl⟩
    · rintro ⟨s, p, hs, hp, rfl⟩
      exact ⟨s, hs, mem_map.2 ⟨p, mem_profiles_iff.2 hp, rfl⟩⟩

/-- The profiles of the stages are those of what they lead to, unless there is no agent. -/
theorem Grows.mem_profiles {n : Nat} {last : List (List Strategy)} {stages : List (List (List Strategy))}
    (h : Grows (replicate n []) last stages) (hp : n = 0 → p ≠ []) :
    p ∈ stages.flatMap profiles ↔ p ∈ profiles last := by
  rw [mem_flatMap]
  constructor
  · rintro ⟨stage, hstage, hmem⟩
    have hwithin := h.within stage hstage
    rw [mem_profiles_iff] at hmem ⊢
    clear hp h hstage
    induction hwithin generalizing p with
    | nil => exact hmem
    | cons hss _ ih =>
      cases hmem with
      | cons hs hrest => exact .cons (hss hs) (ih hrest)
  · intro hmem
    rcases h.reached with rfl | hlast
    · rw [mem_profiles_iff] at hmem
      cases n with
      | zero =>
        cases hmem
        exact absurd rfl (hp rfl)
      | succ n =>
        cases hmem with
        | cons hs _ => cases hs
    · exact ⟨last, hlast, hmem⟩

/-! ## Offers -/

/-- A profile that takes for each agent, of whom none is named twice, a strategy of a complexity with given guards. -/
structure Offered (t : Task) (guards : List String) (i : Int) (p : Profile) : Prop where
  nonempty : p ≠ []
  agents : t.agents.Nodup
  strategies : Forall₂ (fun actions s => Listed complexity (rules guards actions) i s) t.actionLists p

/-- The guards that are drawn at the next `n` complexities from `i` on, with their complexity. -/
def levelsFrom (t : Task) : Nat → Int → Drawing (List (Int × List String))
  | 0, _ => return []
  | n + 1, i => do
    let here ← guardsAt i t.names t.model.props
    let later ← levelsFrom t n (i + 1)
    return (i, here) :: later

theorem length_eraseDups_eq_iff (xs : List Int) : xs.eraseDups.length = xs.length ↔ xs.Nodup := by
  obtain ⟨hn, hsub⟩ := eraseDups_spec xs
  exact ⟨fun h => hsub.eq_of_length h ▸ hn, fun h => ((perm_ext_iff_of_nodup hn h).2 fun _ => mem_eraseDups).length_eq⟩

theorem forall₂_mem_iff {α β : Type} {R : α → β → Prop} : ∀ {last : List (List β)} {xs : List α} {ys : List β},
    xs.length ≤ last.length → (∀ j y, y ∈ last.getD j [] ↔ ∃ x, xs[j]? = some x ∧ R x y) →
    (Forall₂ (fun l y => y ∈ l) last ys ↔ xs.length = last.length ∧ Forall₂ R xs ys)
  | [], xs, ys, hle, _ => by
    obtain rfl : xs = [] := length_eq_zero_iff.1 (Nat.le_zero.1 hle)
    rw [forall₂_nil_left_iff, forall₂_nil_left_iff]
    exact ⟨fun h => ⟨rfl, h⟩, fun h => h.2⟩
  | l :: last, [], ys, _, h => by
    rw [forall₂_cons_left_iff]
    constructor
    · rintro ⟨y, ys, hy, -, -⟩
      obtain ⟨x, hx, -⟩ := (h 0 y).1 hy
      cases hx
    · rintro ⟨hlength, -⟩
      cases hlength
  | l :: last, x :: xs, ys, hle, h => by
    have hfirst : ∀ y, y ∈ l ↔ R x y := fun y => by simpa using h 0 y
    have hrest : ∀ ys, Forall₂ (fun l y => y ∈ l) last ys ↔ xs.length = last.length ∧ Forall₂ R xs ys :=
      fun ys => forall₂_mem_iff (Nat.le_of_succ_le_succ hle) fun j y => by simpa using h (j + 1) y
    rw [forall₂_cons_left_iff, forall₂_cons_left_iff, length_cons, length_cons, Nat.succ_inj]
    constructor
    · rintro ⟨y, ys, hy, hys, rfl⟩
      exact ⟨((hrest ys).1 hys).1, y, ys, (hfirst y).1 hy, ((hrest ys).1 hys).2, rfl⟩
    · rintro ⟨hlength, y, ys, hy, hys, rfl⟩
      exact ⟨y, ys, (hfirst y).2 hy, (hrest ys).2 ⟨hlength, hys⟩, rfl⟩

section Offers

variable (ht : t.actions.length = t.agents.eraseDups.length)

include ht

theorem run_offersAt (i : Int) (d : Draws) : ∃ guards ps d',
    (guardsAt i t.names t.model.props).run.run d = (.ok guards, d') ∧ (offersAt t i).run.run d = (.ok ps, d') ∧
      ∀ p, p ∈ ps ↔ Offered t guards i p := by
  have hle : t.actionLists.length ≤ t.agents.length := by
    rw [Task.actionLists, length_map, ht]
    exact (eraseDups_spec t.agents).2.length_le
  obtain ⟨guards, d', hguards, -⟩ := gives_guardsAt i t.names t.model.props d
  have hrules : (memorylessRules i t.names t.actionLists t.model.props).run.run d =
      (.ok (tableOf t.actionLists guards), d') := by
    rw [memorylessRules_eq, map_eq_pure_bind, run_bind_ok hguards]
    rfl
  have htable : 0 + (tableOf t.actionLists guards).length ≤
      (replicate t.agents.length ([] : List Strategy)).length := by
    have := length_tableOf_le t.actionLists guards
    rw [length_replicate]
    omega
  obtain ⟨⟨last, stages⟩, hstages⟩ := exists_stagesFrom complexity i (tableOf t.actionLists guards) htable
  refine ⟨guards, stages.flatMap profiles, d', hguards, ?_, fun p => ?_⟩
  · unfold offersAt
    rw [run_bind_ok hrules, hstages]
    rfl
  · have hgrows := (of_stagesFrom hstages).1
    have hlength : last.length = t.agents.length := by rw [← hgrows.kept.length_eq, length_replicate]
    have hplaces : ∀ j s, s ∈ last.getD j [] ↔ ∃ as, t.actionLists[j]? = some as ∧
        Listed complexity (rules guards as) i s := by
      intro j s
      rw [mem_found_iff hstages, exists_tableOf_iff]
    have hnodup : t.actionLists.length = last.length ↔ t.agents.Nodup := by
      rw [hlength, Task.actionLists, length_map, ht, length_eraseDups_eq_iff]
    by_cases hp : p = []
    · -- where there is nobody, nothing is listed
      subst hp
      refine ⟨fun hmem => ?_, fun h => absurd rfl h.nonempty⟩
      obtain ⟨stage, hstage, hmem⟩ := mem_flatMap.1 hmem
      obtain rfl : stage = [] := by simpa using mem_profiles_iff.1 hmem
      have hnobody : t.agents.length = 0 := by
        rw [← hlength, ← (hgrows.within [] hstage).length_eq]
        rfl
      have htable : tableOf t.actionLists guards = [] := length_eq_zero_iff.1 (by
        have := length_tableOf_le t.actionLists guards
        omega)
      rw [htable] at hstages
      cases hstages
      cases hstage
    · rw [hgrows.mem_profiles fun _ => hp, mem_profiles_iff, forall₂_mem_iff (by omega) hplaces, hnodup]
      exact ⟨fun h => ⟨hp, h.1, h.2⟩, fun h => ⟨h.agents, h.strategies⟩⟩

/-- What is offered at some complexities takes at each of them the strategies with the guards that are drawn there. -/
theorem run_offers : ∀ (n : Nat) (i : Int) (d : Draws), ∃ levels ps d',
    (levelsFrom t n i).run.run d = (.ok levels, d') ∧ (offers t n i).run.run d = (.ok ps, d') ∧
      levels.map Prod.fst = (range n).map (fun k : Nat => i + k) ∧
      ∀ j p, (j, p) ∈ ps ↔ ∃ guards, (j, guards) ∈ levels ∧ Offered t guards j p
  | 0, i, d => ⟨[], [], d, rfl, rfl, rfl, by simp⟩
  | n + 1, i, d => by
    obtain ⟨guards, here, d₁, hguards, hhere, hmem⟩ := run_offersAt ht i d
    obtain ⟨levels, later, d₂, hlevels, hlater, hnumbers, hmem'⟩ := run_offers n (i + 1) d₁
    refine ⟨(i, guards) :: levels, here.map (i, ·) ++ later, d₂, ?_, ?_, ?_, fun j p => ?_⟩
    · rw [levelsFrom, run_bind_ok hguards, run_bind_ok hlevels]
      rfl
    · rw [offers, offeredFrom, run_bind_ok hhere, run_bind_ok hlater]
      rfl
    · rw [map_cons, hnumbers, range_succ_eq_map, map_cons, map_map, Int.natCast_zero, Int.add_zero]
      refine congrArg (i :: ·) (map_congr_left fun k _ => ?_)
      simp only [Function.comp_apply]
      omega
    · simp only [mem_append, mem_map, Prod.mk.injEq, hmem', hmem, mem_cons, or_and_right, exists_or]
      refine or_congr_left ⟨?_, ?_⟩
      · rintro ⟨p, hp, rfl, rfl⟩
        exact ⟨guards, ⟨rfl, rfl⟩, hp⟩
      · rintro ⟨_, ⟨rfl, rfl⟩, hp⟩
        exact ⟨p, hp, rfl, rfl⟩

end Offers

/-! ## Searches -/

/-- What a search by degrees makes of a profile. -/
def gradedTest (reader : Formula.Logic) (source : String) (t : Task) (e : Int × Profile) :
    Outcome (Option Finding) := do
  match ← Pruning.gradedVerdict reader source t.agents t.formula (e.2.map some) with
  | none => return none
  | some g =>
    if !g.holds then return none
    return some { satisfied := .bool true, bound? := some e.1, profile? := some e.2,
                  degrees? := some (← degreesText g) }

theorem outcome_findGraded_eq {source formula : String} (ht : Task.memoryless source formula = .ok t)
    (reader : Formula.Logic) (d : Draws) : (findGraded reader source formula).outcome d =
      (searchMemoryless t fun i p => gradedTest reader source t (i, p)).outcome d := by
  unfold findGraded
  rw [ht]
  rfl

/-- A strategy that is listed at the level of its own complexity: its rules have guards drawn there and pairwise
different actions, and stand in the order of the table. -/
def Found (levels : List (Int × List String)) (actions : List String) (s : Strategy) : Prop :=
  ∃ guards, (totalCost complexity s, guards) ∈ levels ∧
    Listed complexity (rules guards actions) (totalCost complexity s) s

/-- A profile is offered at the only complexity that all its strategies have. -/
theorem exists_offered_iff {levels : List (Int × List String)} {ps : List (Int × Profile)}
    (hlevels : (levels.map Prod.fst).Nodup)
    (hps : ∀ i p, (i, p) ∈ ps ↔ ∃ guards, (i, guards) ∈ levels ∧ Offered t guards i p) (hp : p ≠ []) :
    (∃ i, (i, p) ∈ ps) ↔ t.agents.Nodup ∧ Forall₂ (Found levels) t.actionLists p ∧
      ∃ i, ∀ s ∈ p, totalCost complexity s = i := by
  constructor
  · rintro ⟨i, hi⟩
    obtain ⟨guards, hguards, hoffered⟩ := (hps i p).1 hi
    have hspent : ∀ s ∈ p, totalCost complexity s = i := by
      intro s hs
      obtain ⟨actions, -, hlisted⟩ := exists_of_mem_forall₂ hoffered.strategies hs
      exact hlisted.spent
    refine ⟨hoffered.agents, hoffered.strategies.imp fun actions s hlisted => ?_, i, hspent⟩
    obtain rfl := hlisted.spent
    exact ⟨guards, hguards, hlisted⟩
  · rintro ⟨hagents, hfound, i, hspent⟩
    -- the guards of a level are drawn once, so that all strategies are listed with the same
    obtain ⟨s, hs⟩ := exists_mem_of_ne_nil p hp
    obtain ⟨-, -, guards, hguards, -⟩ := exists_of_mem_forall₂ hfound hs
    rw [hspent s hs] at hguards
    refine ⟨i, (hps i p).2 ⟨guards, hguards, hp, hagents, forall₂_iff_zip.2 ⟨hfound.length_eq, ?_⟩⟩⟩
    intro actions s hmem
    obtain ⟨guards', hguards', hlisted⟩ := forall₂_zip hfound hmem
    rw [hspent s (of_mem_zip hmem).2] at hguards' hlisted
    cases inj_on_of_nodup_map hlevels hguards' hguards rfl
    exact hlisted

/-! ## A model -/

theorem actions_eq {m : Model} {agents : List Int} {actions : List (String × List String)}
    (h : (agents.eraseDups.mapM fun agent => do
      let letters ← m.listedMoves.mapM fun move => letterAt move (agent - 1)
      return (agentKey agent, (Text.distinct (letters.filter (· ≠ "I"))).insertionSort (· ≤ ·)) : Outcome _) = .ok actions) : m.actions agents = .ok actions := by
  have hsorted : ∀ xs : List String, Text.sorted xs = xs.insertionSort (· ≤ ·) := fun xs =>
    ((Text.sorted_perm xs).trans (perm_insertionSort _ xs).symm).eq_of_pairwise' (Text.sorted_pairwise xs)
      (pairwise_insertionSort _ xs)
  rw [← h]
  simp only [Model.actions, lettersOf, hsorted, bind_assoc, pure_bind]

/-- The text of a model with two agents. The first has to lead from `s0` to `s1`, and the second from there to `s3`;
what else they could play is too dear. Both propositions hold where the first agent decides, and none where the second
does. -/
def relayLayout : Layout where
  front := []
  rows := ["0 AI CI 0", "0 0 IB ID", "0 0 II 0", "0 0 0 II"]
  unknown := []
  names := ["s0 s1 s2 s3"]
  middle := ["s0", "Resource", "5", "Actions_Costs_from_Transition", "0 10 90 0", "0 0 09 01", "0 0 00 0", "0 0 0 00",
    "Atomic_propositions", "p q"]
  labels := ["1 1", "0 0", "1 0", "0 1"]
  back := ["2"]

def relay : Model where
  graph := [[.zero, .text "AI", .text "CI", .zero], [.zero, .zero, .text "IB", .text "ID"],
    [.zero, .zero, .text "II", .zero], [.zero, .zero, .zero, .text "II"]]
  states := ["s0", "s1", "s2", "s3"]
  props := ["p", "q"]
  labels := [[.num 1, .num 1], [.num 0, .num 0], [.num 1, .num 0], [.num 0, .num 1]]
  initial := "s0"
  agents := .number 2
  resource := 5
  actionCosts := [["0", "10", "90", "0"], ["0", "0", "09", "01"], ["0", "0", "00", "0"], ["0", "0", "0", "00"]]

theorem relay_load : load .plain relayLayout.text = .ok relay := load_join (by decide) (by decide)

/-- The search for strategies of both agents that lead to `s3`. -/
def relayTask : Task :=
  ⟨relay, "AF(NOT p AND q)", 2, [1, 2], [("actions_agent1", ["A", "C"]), ("actions_agent2", ["B", "D"])]⟩

theorem memoryless_relay : Task.memoryless relayLayout.text "<\x7b1,2\x7d,2>F(NOT p AND q)" = .ok relayTask := by
  have hactions : relay.actions [1, 2] = .ok [("agent1", ["A", "C"]), ("agent2", ["B", "D"])] := actions_eq (by decide)
  exact bind_eq_ok.2 ⟨relay, relay_load, Task.start_eq (by decide) hactions (by decide)⟩

def relayLevels : List (Int × List String) :=
  [(1, ["p", "p", "q", "q", "p", "p", "q", "q"]),
    (2, ["p", "p", "!p", "q", "q", "!q", "p", "p", "!p", "q", "q", "!q"])]

theorem levelsFrom_relay : (levelsFrom relayTask relayTask.bound.toNat 1).outcome {} = .ok relayLevels :=
  by decide

theorem found_relay_first : Found relayLevels ["A", "C"] [⟨"p", "A"⟩] :=
  ⟨["p", "p", "q", "q", "p", "p", "q", "q"], by decide, by decide, by decide, by decide, rfl, by decide⟩

theorem found_relay_second : Found relayLevels ["B", "D"] [⟨"!p", "D"⟩] :=
  ⟨["p", "p", "!p", "q", "q", "!q", "p", "p", "!p", "q", "q", "!q"], by decide, by decide, by decide, by decide,
    rfl, by decide⟩

/-- The searches without memory examine the profiles that are offered up to the bound, one after the other, until one is
accepted. A profile is offered just if no agent is named twice, each of its strategies is listed at the level of its own
complexity, and all of them have the same complexity. -/
theorem offered_iff {source formula : String} {t : Task} (ht : Task.memoryless source formula = .ok t) (d : Draws) :
    ∃ levels ps, (levelsFrom t t.bound.toNat 1).outcome d = .ok levels ∧
      levels.map Prod.fst = (List.range t.bound.toNat).map (fun k : Nat => 1 + (k : Int)) ∧
      (offers t t.bound.toNat 1).outcome d = .ok ps ∧
      (∀ reader, (findMemoryless reader source formula).outcome d = reportFirst t (firmTest reader source t) ps ∧
        (findGraded reader source formula).outcome d = reportFirst t (gradedTest reader source t) ps) ∧
      ∀ p, p ≠ [] → ((∃ i, (i, p) ∈ ps) ↔ t.agents.Nodup ∧ List.Forall₂ (Found levels) t.actionLists p ∧
        ∃ i, ∀ s ∈ p, totalCost complexity s = i) := by
  have hstart := ht
  obtain ⟨m, -, hstart⟩ := bind_eq_ok.1 hstart
  obtain ⟨levels, ps, d', hlevels, hps, hnumbers, hmem⟩ :=
    run_offers (Task.of_start hstart).2.2.2.1 t.bound.toNat 1 d
  have hsearch : ∀ test : Int × Profile → Outcome (Option Finding),
      (searchMemoryless t fun i p => test (i, p)).outcome d = reportFirst t test ps := by
    intro test
    obtain ⟨ps', d'', hps', hsearch⟩ := outcome_searchMemoryless (Task.length_actions hstart) (fun i p => test (i, p)) d
    cases hps.symm.trans hps'
    exact hsearch
  have hnodup : (levels.map Prod.fst).Nodup := by
    rw [hnumbers]
    exact nodup_range.map fun i j hij => by omega
  refine ⟨levels, ps, congrArg Prod.fst hlevels, hnumbers, congrArg Prod.fst hps, fun reader => ⟨?_, ?_⟩,
    fun p hp => exists_offered_iff hnodup hmem hp⟩
  · rw [outcome_findMemoryless_eq reader ht, hsearch]
  · rw [outcome_findGraded_eq ht, hsearch]

/-- The profile in which both agents decide where `p` holds is offered. -/
theorem offered_relay_uniform : Task.memoryless relayLayout.text "<\x7b1,2\x7d,2>F(NOT p AND q)" = .ok relayTask ∧
    ∃ ps, (offers relayTask relayTask.bound.toNat 1).outcome {} = .ok ps ∧
      ∃ i, (i, [[⟨"p", "A"⟩], [⟨"p", "D"⟩]]) ∈ ps := by
  obtain ⟨levels, ps, hlevels, -, hps, -, hoffered⟩ := offered_iff memoryless_relay {}
  cases levelsFrom_relay.symm.trans hlevels
  have hsecond : Found relayLevels ["B", "D"] [⟨"p", "D"⟩] :=
    ⟨["p", "p", "q", "q", "p", "p", "q", "q"], by decide, by decide, by decide, by decide, rfl,
      by decide⟩
  refine ⟨memoryless_relay, ps, hps, (hoffered _ (by decide)).2 ⟨by decide, ?_, 1, by decide⟩⟩
  exact .cons found_relay_first (.cons hsecond .nil)

/-- One agent has to decide where `p` holds, and the other one where it does not. Each of the two strategies is listed
up to the bound, but they are not of the same complexity, so that the profile of both is never offered. -/
theorem not_offered_relay_mixed : ∃ levels ps,
    (levelsFrom relayTask relayTask.bound.toNat 1).outcome {} = .ok levels ∧
    (offers relayTask relayTask.bound.toNat 1).outcome {} = .ok ps ∧
    List.Forall₂ (Found levels) relayTask.actionLists [[⟨"p", "A"⟩], [⟨"!p", "D"⟩]] ∧
    (∀ s ∈ ([[⟨"p", "A"⟩], [⟨"!p", "D"⟩]] : Profile), totalCost complexity s ≤ relayTask.bound) ∧
    ¬ ∃ i, (i, [[⟨"p", "A"⟩], [⟨"!p", "D"⟩]]) ∈ ps := by
  obtain ⟨levels, ps, d, hlevels, hps, -, hmem⟩ := run_offers (t := relayTask) (by decide) relayTask.bound.toNat 1 {}
  cases levelsFrom_relay.symm.trans (congrArg Prod.fst hlevels)
  refine ⟨relayLevels, ps, levelsFrom_relay, congrArg Prod.fst hps,
    .cons found_relay_first (.cons found_relay_second .nil), by decide, fun hoffered => ?_⟩
  obtain ⟨-, -, i, hspent⟩ := (exists_offered_iff (by decide) hmem (by decide)).1 hoffered
  have hfirst : (1 : Int) = i := hspent [⟨"p", "A"⟩] (by decide)
  have hsecond : (2 : Int) = i := hspent [⟨"!p", "D"⟩] (by decide)
  omega

end Arena.Natural
