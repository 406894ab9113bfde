/-
Tables of rules, and the strategies listed from them: a strategy takes some rules of an agent in the order of their
guards, with pairwise different actions and of a total cost.
-/
import Arena.Natural.Profile
import Arena.Proofs.Text.Numerals

namespace Arena.Natural

open List

variable {cost : String → Nat} {κ : Type} {bound : Int} {s : Strategy}

/-! ## Strategies -/

def totalCost (cost : String → Nat) (s : Strategy) : Int := (s.map fun r => (cost r.condition : Int)).foldl (· + ·) 0

theorem mem_choices_iff {s : Strategy} : ∀ {n : Nat} {rs : List Rule},
    s ∈ choices n rs ↔ s.length = n ∧ s.Sublist rs ∧ (s.map Rule.action).Nodup
  | 0, rs => by
    rw [choices, mem_singleton, length_eq_zero_iff]
    constructor
    · rintro rfl
      exact ⟨rfl, nil_sublist rs, nodup_nil⟩
    · exact fun h => h.1
  | n + 1, [] => by
    rw [sublist_nil]
    constructor
    · intro h
      cases h
    · rintro ⟨hlength, rfl, -⟩
      cases hlength
  | n + 1, r :: rs => by
    have hothers : ∀ s' : Strategy, (s'.all fun x => decide (x.action ≠ r.action)) = true ↔
        r.action ∉ s'.map Rule.action := by simp
    rw [choices, mem_append, mem_map, mem_choices_iff, sublist_cons_iff]
    constructor
    · rintro (⟨s', hs', rfl⟩ | ⟨hlength, hsub, hnodup⟩)
      · obtain ⟨hs', hne⟩ := mem_filter.1 hs'
        obtain ⟨rfl, hsub, hnodup⟩ := mem_choices_iff.1 hs'
        exact ⟨rfl, .inr ⟨s', rfl, hsub⟩, nodup_cons.2 ⟨(hothers s').1 hne, hnodup⟩⟩
      · exact ⟨hlength, .inl hsub, hnodup⟩
    · rintro ⟨hlength, hsub | ⟨s', rfl, hsub⟩, hnodup⟩
      · exact .inr ⟨hlength, hsub, hnodup⟩
      · obtain ⟨hne, hnodup⟩ := nodup_cons.1 hnodup
        refine .inl ⟨s', mem_filter.2 ⟨mem_choices_iff.2 ⟨Nat.succ.inj hlength, hsub, hnodup⟩, ?_⟩, rfl⟩
        exact (hothers s').2 hne

/-- A strategy that takes rules in the order of a list, with pairwise different actions and of a total cost; it has no
more rules than they cost, which only rules that cost nothing could have. -/
structure Listed (cost : String → Nat) (rs : List Rule) (total : Int) (s : Strategy) : Prop where
  nonempty : s ≠ []
  ordered : s.Sublist rs
  actions : (s.map Rule.action).Nodup
  spent : totalCost cost s = total
  length : (s.length : Int) ≤ total

theorem mem_strategies_iff {rs : List Rule} : s ∈ strategies cost bound rs ↔ Listed cost rs bound s := by
  unfold strategies
  simp only [mem_flatMap, mem_range, mem_filter, decide_eq_true_eq]
  constructor
  · rintro ⟨n, hn, hs, htotal⟩
    obtain ⟨hlength, hsub, hnodup⟩ := mem_choices_iff.1 hs
    refine ⟨?_, hsub, hnodup, htotal, by omega⟩
    rintro rfl
    cases hlength
  · rintro ⟨hne, hsub, hnodup, htotal, hlength⟩
    have hpos := length_pos_of_ne_nil hne
    exact ⟨s.length - 1, by omega, mem_choices_iff.2 ⟨by omega, hsub, hnodup⟩, htotal⟩

/-! ## Tables -/

/-- The guards of a complexity, drawn once for each of the named agents; each condition stands before its variants. -/
def guardsAt (bound : Int) (names props : List String) : Drawing (List String) := do
  let drawn ← names.mapM fun _ => do
    let guards ← Guard.conditions props ["and", "or"] bound
    return guards.flatMap fun g => g :: Guard.negated [g] bound
  return drawn.flatten

/-- The table of the rules with given guards, which has no entries if there are no guards. -/
def tableOf (actions : List (List String)) (guards : List String) : RuleTable :=
  if guards.isEmpty then [] else ruleTable actions guards

theorem rules_append (gs gs' actions : List String) :
    rules (gs ++ gs') actions = rules gs actions ++ rules gs' actions :=
  flatMap_append

theorem extendTable_cons (t : RuleTable) (name : String) (rs : List Rule) (more : RuleTable) :
    extendTable t ((name, rs) :: more) = extendTable (if t.any (·.1 == name) then
      t.map fun e => if e.1 == name then (e.1, e.2 ++ rs) else e else t ++ [(name, rs)]) more := rfl

theorem extendTable_map (name : κ → String) (f g : κ → List Rule) : ∀ done todo : List κ,
    ((done ++ todo).map name).Nodup →
    extendTable (done.map (fun k => (name k, f k ++ g k)) ++ todo.map fun k => (name k, f k))
      (todo.map fun k => (name k, g k)) = (done ++ todo).map fun k => (name k, f k ++ g k)
  | done, [], _ => by simp [extendTable]
  | done, k :: todo, h => by
    have hnames : name k ∉ done.map name ∧ name k ∉ todo.map name := by
      rw [map_append, map_cons, nodup_middle, nodup_cons, mem_append, not_or] at h
      exact h.1
    have hother : ∀ (ks : List κ) (e : κ → List Rule), name k ∉ ks.map name →
        (ks.map fun k => (name k, e k)).map (fun e => if e.1 == name k then (e.1, e.2 ++ g k) else e) =
          ks.map fun k => (name k, e k) := by
      intro ks e hk
      rw [map_map]
      refine map_congr_left fun k' hk' => ?_
      have hne : name k' ≠ name k := fun heq => hk (mem_map.2 ⟨k', hk', heq⟩)
      simp [hne]
    have hstep := extendTable_map name f g (done ++ [k]) todo (by simpa using h)
    rw [map_cons, map_cons, extendTable_cons, map_append, hother _ _ hnames.1,
      map_cons, hother _ _ hnames.2]
    simpa using hstep

theorem extendTable_new (name : κ → String) (f : κ → List Rule) : ∀ done todo : List κ,
    ((done ++ todo).map name).Nodup →
    extendTable (done.map fun k => (name k, f k)) (todo.map fun k => (name k, f k)) =
      (done ++ todo).map fun k => (name k, f k)
  | done, [], _ => by simp [extendTable]
  | done, k :: todo, h => by
    have hname : name k ∉ done.map name := by
      rw [map_append, map_cons, nodup_middle, nodup_cons, mem_append, not_or] at h
      exact h.1.1
    have hnone : ((done.map fun k => (name k, f k)).any fun e => e.1 == name k) = false := by
      rw [any_eq_false]
      intro e he
      obtain ⟨k', hk', rfl⟩ := mem_map.1 he
      simpa using fun heq : name k' = name k => hname (mem_map.2 ⟨k', hk', heq⟩)
    have hstep := extendTable_new name f (done ++ [k]) todo (by simpa using h)
    rw [map_cons, extendTable_cons, hnone]
    simpa using hstep

theorem agentName_inj {i j : Nat} (h : agentName i = agentName j) : i = j :=
  Text.toString_inj ((String.append_right_inj "actions_agent").1 h)

theorem nodup_names (actions : List (List String)) :
    ((actions.zip (range actions.length)).map fun e => agentName (e.2 + 1)).Nodup := by
  have hsnd : (actions.zip (range actions.length)).map Prod.snd = range actions.length :=
    map_snd_zip (by simp)
  have hnames : ((actions.zip (range actions.length)).map fun e => agentName (e.2 + 1)) =
      (range actions.length).map fun i => agentName (i + 1) := by
    rw [← hsnd, map_map, hsnd]
    rfl
  rw [hnames]
  exact nodup_range.map fun i j hij => Nat.succ.inj (agentName_inj hij)

theorem extendTable_tableOf (actions : List (List String)) (gs : List String) {gs' : List String} (hne : gs' ≠ []) :
    extendTable (tableOf actions gs) (ruleTable actions gs') = tableOf actions (gs ++ gs') := by
  have hfull : tableOf actions (gs ++ gs') = ruleTable actions (gs ++ gs') := by
    rw [tableOf]
    simp [hne]
  rw [hfull, tableOf]
  split
  · rename_i hnil
    rw [List.isEmpty_iff.1 hnil]
    exact extendTable_new (fun e : List String × Nat => agentName (e.2 + 1)) (fun e => rules gs' e.1) []
      (actions.zip (range actions.length)) (nodup_names actions)
  · simp only [ruleTable, rules_append]
    exact extendTable_map (fun e : List String × Nat => agentName (e.2 + 1)) (fun e => rules gs e.1)
      (fun e => rules gs' e.1) [] (actions.zip (range actions.length)) (nodup_names actions)

theorem memorylessRules_eq (bound : Int) (names : List String) (actions : List (List String)) (props : List String) :
    memorylessRules bound names actions props = tableOf actions <$> guardsAt bound names props := by
  -- each drawing puts its guards behind those that the table has
  have hdrawn : ∀ (guards gs : List String), guards.foldl (fun t g =>
      extendTable t (ruleTable actions (g :: Guard.negated [g] bound))) (tableOf actions gs) =
        tableOf actions (gs ++ guards.flatMap fun g => g :: Guard.negated [g] bound) := by
    intro guards
    induction guards with
    | nil => simp
    | cons g guards ih =>
      intro gs
      rw [foldl_cons, extendTable_tableOf actions gs (cons_ne_nil _ _), ih, flatMap_cons,
        append_assoc]
  have hfold : ∀ gs : List String, names.foldlM (fun t _ => do
      let guards ← Guard.conditions props ["and", "or"] bound
      return guards.foldl (fun t g => extendTable t (ruleTable actions (g :: Guard.negated [g] bound))) t)
        (tableOf actions gs) = (fun more => tableOf actions (gs ++ more)) <$> guardsAt bound names props := by
    unfold guardsAt
    induction names with
    | nil => simp
    | cons name names ih =>
      intro gs
      simp only [foldlM_cons, mapM_cons, bind_assoc, pure_bind, map_bind, map_pure, hdrawn, ih,
        flatten_cons, append_assoc]
  have hnil := hfold []
  exact hnil

theorem exists_tableOf_iff {actions : List (List String)} {guards : List String} {k : Nat} :
    (∃ e, (tableOf actions guards)[k]? = some e ∧ s ∈ strategies cost bound e.2) ↔
      ∃ as, actions[k]? = some as ∧ Listed cost (rules guards as) bound s := by
  have hentry : (ruleTable actions guards)[k]? = (actions[k]?).map fun as => (agentName (k + 1), rules guards as) := by
    rw [ruleTable, getElem?_map, zip, getElem?_zipWith]
    by_cases hk : k < actions.length
    · rw [getElem?_range hk, getElem?_eq_getElem hk]
      rfl
    · rw [getElem?_eq_none (by omega)]
      rfl
  unfold tableOf
  split
  · -- without guards there are no rules
    rename_i hnone
    obtain rfl := List.isEmpty_iff.1 hnone
    constructor
    · rintro ⟨e, he, -⟩
      cases he
    · rintro ⟨as, -, hs⟩
      exact absurd (sublist_nil.1 hs.ordered) hs.nonempty
  · simp only [hentry, Option.map_eq_some_iff]
    constructor
    · rintro ⟨_, ⟨as, has, rfl⟩, hs⟩
      exact ⟨as, has, mem_strategies_iff.1 hs⟩
    · rintro ⟨as, has, hs⟩
      exact ⟨_, ⟨as, has, rfl⟩, mem_strategies_iff.2 hs⟩

theorem length_tableOf_le (actions : List (List String)) (guards : List String) :
    (tableOf actions guards).length ≤ actions.length := by
  unfold tableOf
  split
  · exact Nat.zero_le _
  · simp [ruleTable]

end Arena.Natural
