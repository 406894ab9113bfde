/-
Two ways to list the profiles of a table of rules: once all strategies are found, or anew each time that one is found.
Where both charge the same for every guard they list the same profiles: those that take for each agent some of its rules
in their order, with pairwise different actions and of the given total complexity. The first way lists each of them
once.
-/
import Arena.Proofs.Natural.Completeness

namespace Arena.Natural

open List Guard

variable {cost cost' : String → Nat}

/-! ## Nothing twice -/

theorem nodup_addAll {i : Nat} : ∀ {ss : List Strategy} {found last : List (List Strategy)}
    {stages : List (List (List Strategy))}, addAll i ss found = .ok (last, stages) → (∀ old ∈ found, old.Nodup) →
    ∀ new ∈ last, new.Nodup
  | [], _, _, _, h, hfound => by
    cases h
    exact hfound
  | s :: ss, found, last, stages, h, hfound => by
    obtain ⟨old, hplace, ⟨-, h⟩ | ⟨hs, later, h, -⟩⟩ := addAll_cons h
    · exact nodup_addAll h hfound
    · refine nodup_addAll h fun new hnew => ?_
      obtain ⟨j, hj⟩ := mem_iff_getElem?.1 hnew
      rw [getElem?_modify] at hj
      obtain ⟨x, hx, rfl⟩ := Option.map_eq_some_iff.1 hj
      have hnodup := hfound x (mem_of_getElem? hx)
      split
      · rename_i hij
        cases hplace.symm.trans (hij ▸ hx)
        exact hnodup.append (nodup_singleton s) (by simpa using hs)
      · exact hnodup

theorem nodup_stagesFrom {bound : Int} : ∀ {table : RuleTable} {i : Nat}
    {found last : List (List Strategy)} {stages : List (List (List Strategy))},
    stagesFrom cost bound i table found = .ok (last, stages) → (∀ old ∈ found, old.Nodup) → ∀ new ∈ last, new.Nodup
  | [], _, _, _, _, h, hfound => by
    cases h
    exact hfound
  | e :: table, _, _, _, _, h, hfound => by
    obtain ⟨⟨found', here⟩, hadd, h⟩ := bind_eq_ok.1 h
    obtain ⟨⟨last', later⟩, hrest, h⟩ := bind_eq_ok.1 h
    cases h
    exact nodup_stagesFrom hrest (nodup_addAll hadd hfound)

theorem nodup_profiles : ∀ {sss : List (List Strategy)}, (∀ ss ∈ sss, ss.Nodup) → (profiles sss).Nodup
  | [], _ => nodup_singleton _
  | ss :: sss, h => by
    obtain ⟨hss, hrest⟩ := forall_mem_cons.1 h
    rw [profiles, nodup_flatMap]
    refine ⟨fun s _ => (nodup_profiles hrest).map fun _ _ heq => (cons.inj heq).2, hss.imp fun hne => ?_⟩
    intro p hp hp'
    obtain ⟨x, -, rfl⟩ := mem_map.1 hp
    obtain ⟨y, -, heq⟩ := mem_map.1 hp'
    exact hne (cons.inj heq).1.symm

/-! ## Costs that agree -/

theorem strategies_congr {rs : List Rule}
    (h : ∀ r ∈ rs, cost r.condition = cost' r.condition) (bound : Int) :
    strategies cost bound rs = strategies cost' bound rs := by
  refine flatMap_congr fun n _ => filter_congr fun s hs => ?_
  have hsub := (mem_choices_iff.1 hs).2.1
  have hcosts : (s.map fun r => (cost r.condition : Int)) = s.map fun r => (cost' r.condition : Int) :=
    map_congr_left fun r hr => congrArg _ (h r (hsub.subset hr))
  rw [hcosts]

theorem stagesFrom_congr (bound : Int) : ∀ {table : RuleTable} (i : Nat)
    (found : List (List Strategy)), (∀ e ∈ table, ∀ r ∈ e.2, cost r.condition = cost' r.condition) →
    stagesFrom cost bound i table found = stagesFrom cost' bound i table found
  | [], _, _, _ => rfl
  | e :: table, i, found, h => by
    obtain ⟨he, hrest⟩ := forall_mem_cons.1 h
    rw [stagesFrom, strategies_congr he]
    exact bind_congr fun r => congrArg (· >>= _) (stagesFrom_congr bound (i + 1) r.1 hrest)

/-- The profiles of a table with a list of rules for each of some agents, where no guard is starred. Both ways to list
them end, one of them lists nothing twice, and both list the profiles that take a strategy of the given complexity for
each agent. -/
theorem mem_emergingProfiles_iff {bound : Int} {agents : Nat} (hagents : 0 < agents) {table : RuleTable}
    (htable : table.length = agents) (hstar : ∀ e ∈ table, ∀ r ∈ e.2, '*' ∉ r.condition.toList) :
    ∃ emerging settled, emergingProfiles bound agents table = .ok emerging ∧
      settledProfiles bound agents table = .ok settled ∧ settled.Nodup ∧
      ∀ p, (p ∈ emerging ↔ p ∈ settled) ∧
        (p ∈ settled ↔ Forall₂ (fun e s => Listed complexity e.2 bound s) table p) := by
  have hcost : ∀ e ∈ table, ∀ r ∈ e.2, storyComplexity r.condition = complexity r.condition := by
    intro e he r hr
    have hnone : Text.contains r.condition "*" = false := Text.occursIn_eq_false [] (hstar e he r hr)
    rw [storyComplexity, complexity, marked, hnone, Bool.or_false]
  have hroom : 0 + table.length ≤ (replicate agents ([] : List Strategy)).length := by simp [htable]
  obtain ⟨⟨last, stages⟩, hstages⟩ := exists_stagesFrom complexity bound table hroom
  have hgrows := (of_stagesFrom hstages).1
  have hlength : table.length = last.length := by rw [htable, ← hgrows.kept.length_eq, length_replicate]
  refine ⟨stages.flatMap profiles, profiles last, ?_, ?_, ?_, fun p => ⟨?_, ?_⟩⟩
  · rw [emergingProfiles, hstages]
    rfl
  · rw [settledProfiles, stagesFrom_congr bound 0 _ hcost, hstages]
    rfl
  · exact nodup_profiles (nodup_stagesFrom hstages fun old hold => eq_of_mem_replicate hold ▸ nodup_nil)
  · exact hgrows.mem_profiles fun hnone => absurd hnone hagents.ne'
  · have hfound := mem_found_iff hstages
    simp only [mem_strategies_iff] at hfound
    rw [mem_profiles_iff, forall₂_mem_iff hlength.le hfound, and_iff_right hlength]

/-- Two agents whose rules come to strategies of complexity two in different ways. -/
theorem mem_emergingProfiles_iff_pair : ∃ emerging settled,
    emergingProfiles 2 2 [("a", [⟨"p", "A"⟩, ⟨"!p", "B"⟩, ⟨"q", "B"⟩]), ("b", [⟨"p", "C"⟩, ⟨"q", "D"⟩])] = .ok emerging ∧
      settledProfiles 2 2 [("a", [⟨"p", "A"⟩, ⟨"!p", "B"⟩, ⟨"q", "B"⟩]), ("b", [⟨"p", "C"⟩, ⟨"q", "D"⟩])] = .ok settled ∧
      settled.Nodup ∧ ∀ p, (p ∈ emerging ↔ p ∈ settled) ∧ (p ∈ settled ↔ Forall₂ (fun e s => Listed complexity e.2 2 s)
        [("a", [⟨"p", "A"⟩, ⟨"!p", "B"⟩, ⟨"q", "B"⟩]), ("b", [⟨"p", "C"⟩, ⟨"q", "D"⟩])] p) :=
  mem_emergingProfiles_iff (by decide) rfl (by decide)

/-- A guard without words costs nothing. The two rules together cost what is asked for, and yet no strategy has both. -/
theorem settledProfiles_blank : settledProfiles 1 1 [("a", [⟨"", "A"⟩, ⟨"p", "B"⟩])] = .ok [[[⟨"p", "B"⟩]]] ∧
    totalCost complexity [⟨"", "A"⟩, ⟨"p", "B"⟩] = 1 :=
  ⟨by decide, by decide⟩

end Arena.Natural
