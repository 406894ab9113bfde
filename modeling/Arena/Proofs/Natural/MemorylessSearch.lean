/-
What a search without memory reports. The strategies are listed complexity by complexity, and each time that one is
added the profiles that it completes are offered. The search takes every verdict for an acceptance: it reports the
verdict on the first profile and looks at no other.
-/
import Arena.Natural.Search
import Arena.Proofs.Natural.Prefilter
import Arena.Proofs.Natural.RuleTables

namespace Arena

open List

variable {α β : Type} {n : Nat}

/-! ## Computations that draw and do not fail -/

namespace Drawing

variable {P : α → Prop} {Q : β → Prop} {x : Drawing α} {k : α → Drawing β} {a : α}

/-- Whatever is drawn, a computation has a value with a property. -/
def Gives (x : Drawing α) (P : α → Prop) : Prop := ∀ d, ∃ a d', x.run.run d = (.ok a, d') ∧ P a

theorem outcome_of_run {d e : Draws} {r : Outcome α} (h : x.run.run d = (r, e)) : x.outcome d = r :=
  congrArg Prod.fst h

theorem gives_pure (ha : P a) : (pure a : Drawing α).Gives P := fun d => ⟨a, d, rfl, ha⟩

theorem Gives.bind (hx : x.Gives P) (hk : ∀ a, P a → (k a).Gives Q) : (x >>= k).Gives Q := by
  intro d
  obtain ⟨a, d₁, hrun, ha⟩ := hx d
  obtain ⟨b, d₂, hrun', hb⟩ := hk a ha d₁
  exact ⟨b, d₂, (run_bind_ok hrun).trans hrun', hb⟩

theorem gives_mapM {f : α → Drawing β} (hf : ∀ a, (f a).Gives Q) :
    ∀ xs : List α, (xs.mapM f).Gives fun ys => ys.length = xs.length ∧ ∀ y ∈ ys, Q y
  | [] => by
    exact gives_pure ⟨rfl, by simp⟩
  | x :: xs => by
    rw [mapM_cons]
    refine (hf x).bind fun y hy => (gives_mapM hf xs).bind fun ys hys => gives_pure ⟨by simp [hys.1], ?_⟩
    exact forall_mem_cons.2 ⟨hy, hys.2⟩

theorem gives_lift {x : Outcome α} (h : x = .ok a) (ha : P a) : (liftM x : Drawing α).Gives P := by
  rw [h]
  exact fun d => ⟨a, d, rfl, ha⟩

theorem gives_below (hn : 0 < n) : (Draws.below n).Gives (· < n) := by
  intro d
  have hmod := Int.emod_lt_of_pos d.next.1 (by omega : (0 : Int) < n)
  refine ⟨(d.next.1 % (n : Int)).toNat, d.next.2, ?_, by omega⟩
  unfold Draws.below
  rw [run_bind_ok (show (get : Drawing Draws).run.run d = (.ok d, d) from rfl)]
  rw [run_bind_ok (show (set d.next.2 : Drawing PUnit).run.run d = (.ok ⟨⟩, d.next.2) from rfl),
    if_neg (by omega)]
  rfl

theorem gives_oneOf {xs : List α} (hne : xs ≠ []) : (Draws.oneOf xs).Gives (· ∈ xs) := by
  refine (gives_below (length_pos_iff.2 hne)).bind fun i hi => ?_
  rw [getElem?_eq_getElem hi]
  exact gives_pure (getElem_mem hi)

end Drawing

namespace Natural

open Drawing Natural.Task Formula Heading Text

variable {check : Model → Outcome Unit} {m : Model} {formula source : String} {t : Task} {reader : Logic}
  {draw : Int → Drawing (List Profile)} {stages : List (List (List Strategy))} {ps : List (Int × Profile)} {bound : Int}
  {cost : String → Nat} {i : Nat} {f : Finding} {g : Growth} {found last : List (List Strategy)}

namespace Guard

theorem gives_joined (hg : g.joints ≠ []) (a b : String) : (g.joined a b).Gives fun _ => True := by
  unfold Growth.joined
  exact (gives_oneOf hg).bind fun _ _ => gives_pure trivial

theorem gives_extend (hg : g.joints ≠ []) : ∀ (k : Nat) (guard : Option String),
    (g.extend k guard).Gives fun _ => True
  | 0, guard => by
    exact gives_pure trivial
  | k + 1, none => by
    exact (gives_mapM (fun p => gives_extend hg k (some p)) _).bind fun _ _ => gives_pure trivial
  | k + 1, some c => by
    refine (gives_mapM (Q := fun _ => True) (fun p => ?_) _).bind fun _ _ => gives_pure trivial
    split
    · exact gives_pure trivial
    · refine (gives_joined hg c p).bind fun joined _ => ?_
      split
      · exact gives_pure trivial
      · exact gives_extend hg k (some joined)

theorem Growth.extend_one (g : Growth) : g.extend 1 none = pure g.parts := by
  have hparts : (g.parts.mapM fun p => g.extend 0 (some p)) = pure (g.parts.map fun p => [p]) := by
    rw [← mapM_pure]
    rfl
  rw [extend, hparts, pure_bind, ← flatMap_def, flatMap_singleton']

theorem gives_conditions (props : List String) {joints : List String} (hne : joints ≠ []) (bound : Int) :
    (conditions props joints bound).Gives fun _ => True := by
  exact (gives_mapM (fun k => gives_extend hne (k + 1) none) _).bind fun _ _ => gives_pure trivial

end Guard

/-! ## Tables of rules -/

theorem gives_guardsAt (bound : Int) (names props : List String) :
    (guardsAt bound names props).Gives fun _ => True := by
  refine (gives_mapM (Q := fun _ => True) (fun _ => ?_) names).bind fun _ _ => gives_pure trivial
  exact (Guard.gives_conditions props (by simp) bound).bind fun _ _ => gives_pure trivial

theorem gives_memorylessRules (bound : Int) (names : List String) (actions : List (List String))
    (props : List String) : (memorylessRules bound names actions props).Gives fun t => t.length ≤ actions.length := by
  rw [memorylessRules_eq]
  exact (gives_guardsAt bound names props).bind fun guards _ => gives_pure (length_tableOf_le actions guards)

/-- What additions lead from and to: nothing is lost, and what they lead to is the last stage, if there is one. -/
structure Grows (found last : List (List Strategy)) (stages : List (List (List Strategy))) : Prop where
  kept : Forall₂ (· ⊆ ·) found last
  within : ∀ stage ∈ stages, Forall₂ (· ⊆ ·) stage last
  reached : last = found ∨ last ∈ stages

theorem grows_refl (found : List (List Strategy)) : Grows found found [] :=
  ⟨forall₂_same.2 fun _ _ => Subset.refl _, by simp, .inl rfl⟩

theorem Grows.append {mid : List (List Strategy)} {stages' : List (List (List Strategy))} (h : Grows found mid stages)
    (h' : Grows mid last stages') : Grows found last (stages ++ stages') where
  kept := forall₂_trans h.kept h'.kept fun _ _ _ => Subset.trans
  within stage hstage := by
    rcases mem_append.1 hstage with hstage | hstage
    · exact forall₂_trans (h.within stage hstage) h'.kept fun _ _ _ => Subset.trans
    · exact h'.within stage hstage
  reached := by
    rcases h'.reached with rfl | hlast
    · exact h.reached.imp_right fun hmid => mem_append_left _ hmid
    · exact .inr (mem_append_right _ hlast)

theorem grows_modify (found : List (List Strategy)) (i : Nat) (s : Strategy) :
    Grows found (found.modify i (· ++ [s])) [found.modify i (· ++ [s])] := by
  refine ⟨?_, by simp [forall₂_same], .inr (mem_singleton_self _)⟩
  induction found generalizing i with
  | nil => simp
  | cons ss found ih =>
    cases i with
    | zero => simp [forall₂_same]
    | succ i => simp [ih i]

theorem addAll_cons {s : Strategy} {ss : List Strategy} (h : addAll i (s :: ss) found = .ok (last, stages)) :
    ∃ old, found[i]? = some old ∧ (s ∈ old ∧ addAll i ss found = .ok (last, stages) ∨
      s ∉ old ∧ ∃ later, addAll i ss (found.modify i (· ++ [s])) = .ok (last, later) ∧
        stages = found.modify i (· ++ [s]) :: later) := by
  obtain ⟨known, hknown, h⟩ := bind_eq_ok.1 h
  unfold isKnown at hknown
  cases hplace : found[i]? with
  | none =>
    rw [hplace] at hknown
    cases hknown
  | some old =>
    rw [hplace] at hknown
    refine ⟨old, rfl, ?_⟩
    cases known with
    | true => exact .inl ⟨by simpa using hknown, h⟩
    | false =>
      obtain ⟨more, hadd, h⟩ := bind_eq_ok.1 h
      obtain ⟨⟨last', later⟩, hall, h⟩ := bind_eq_ok.1 h
      cases h
      rw [addAt, if_pos (lt_of_getElem? hplace)] at hadd
      cases hadd
      exact .inr ⟨by simpa using hknown, later, hall, rfl⟩

theorem of_addAll : ∀ {ss : List Strategy} {found last : List (List Strategy)}
    {stages : List (List (List Strategy))}, addAll i ss found = .ok (last, stages) → Grows found last stages ∧
      ∀ j s, s ∈ last.getD j [] ↔ s ∈ found.getD j [] ∨ j = i ∧ s ∈ ss
  | [], found, last, stages, h => by
    cases h
    exact ⟨grows_refl found, by simp⟩
  | s :: ss, found, last, stages, h => by
    obtain ⟨old, hplace, ⟨hs, hrest⟩ | ⟨-, later, hrest, rfl⟩⟩ := addAll_cons h <;>
      obtain ⟨hgrows, hlast⟩ := of_addAll hrest
    · have hold : s ∈ found.getD i [] := by simpa [hplace] using hs
      refine ⟨hgrows, fun j x => ?_⟩
      rw [hlast, mem_cons]
      constructor
      · exact Or.imp_right fun h => ⟨h.1, .inr h.2⟩
      · rintro (hx | ⟨rfl, rfl | hx⟩)
        · exact .inl hx
        · exact .inl hold
        · exact .inr ⟨rfl, hx⟩
    · refine ⟨(grows_modify found i s).append hgrows, fun j x => ?_⟩
      have hmodify : x ∈ (found.modify i (· ++ [s])).getD j [] ↔ x ∈ found.getD j [] ∨ j = i ∧ x = s := by
        by_cases hj : i = j
        · subst hj
          simp [hplace]
        · simp [hj, Ne.symm hj]
      rw [hlast, mem_cons]
      tauto

theorem of_stagesFrom : ∀ {table : RuleTable} {i : Nat}
    {found last : List (List Strategy)} {stages : List (List (List Strategy))},
    stagesFrom cost bound i table found = .ok (last, stages) → Grows found last stages ∧
      ∀ j s, s ∈ last.getD j [] ↔
        s ∈ found.getD j [] ∨ ∃ k e, j = i + k ∧ table[k]? = some e ∧ s ∈ strategies cost bound e.2
  | [], i, found, last, stages, h => by
    cases h
    exact ⟨grows_refl found, by simp⟩
  | (name, rs) :: table, i, found, last, stages, h => by
    obtain ⟨⟨found', here⟩, hadd, h⟩ := bind_eq_ok.1 h
    obtain ⟨⟨last', later⟩, hrest, h⟩ := bind_eq_ok.1 h
    cases h
    obtain ⟨hgrows, hfound⟩ := of_addAll hadd
    obtain ⟨hgrows', hlast⟩ := of_stagesFrom hrest
    refine ⟨hgrows.append hgrows', fun j s => ?_⟩
    rw [hlast, hfound, or_assoc]
    refine or_congr_right ⟨?_, ?_⟩
    · rintro (⟨rfl, hs⟩ | ⟨k, e, rfl, he, hs⟩)
      · exact ⟨0, (name, rs), rfl, rfl, hs⟩
      · exact ⟨k + 1, e, by omega, he, hs⟩
    · rintro ⟨k, e, rfl, he, hs⟩
      cases k with
      | zero =>
        cases he
        exact .inl ⟨rfl, hs⟩
      | succ k => exact .inr ⟨k, e, by omega, he, hs⟩

theorem mem_found_iff {table : RuleTable} (h : stagesFrom cost bound 0 table (replicate n []) = .ok (last, stages))
    (j : Nat) (s : Strategy) : s ∈ last.getD j [] ↔ ∃ e, table[j]? = some e ∧ s ∈ strategies cost bound e.2 := by
  have hnone : (replicate n ([] : List Strategy)).getD j [] = [] := by
    rw [getD_eq_getElem?_getD, getElem?_replicate]
    split <;> rfl
  rw [(of_stagesFrom h).2, hnone]
  simp

theorem exists_addAll : ∀ (ss : List Strategy) {found : List (List Strategy)}, i < found.length →
    ∃ r, addAll i ss found = .ok r
  | [], found, _ => ⟨(found, []), rfl⟩
  | s :: ss, found, hi => by
    have hknown : isKnown i s found = .ok (found[i].contains s) := by
      unfold isKnown
      rw [getElem?_eq_getElem hi]
    cases hs : found[i].contains s with
    | true =>
      obtain ⟨r, hrest⟩ := exists_addAll ss hi
      refine ⟨r, ?_⟩
      rw [addAll, hknown, hs]
      exact hrest
    | false =>
      have hadd : addAt i s found = .ok (found.modify i (· ++ [s])) := if_pos hi
      have hi' : i < (found.modify i (· ++ [s])).length := by rwa [length_modify]
      obtain ⟨⟨last, stages⟩, hrest⟩ := exists_addAll ss hi'
      refine ⟨(last, found.modify i (· ++ [s]) :: stages), ?_⟩
      rw [addAll, hknown, hs]
      exact bind_eq_ok.2 ⟨false, rfl, bind_eq_ok.2 ⟨_, hadd, bind_eq_ok.2 ⟨_, hrest, rfl⟩⟩⟩

theorem exists_stagesFrom (cost : String → Nat) (bound : Int) : ∀ (table : RuleTable) {i : Nat}
    {found : List (List Strategy)}, i + table.length ≤ found.length →
      ∃ r, stagesFrom cost bound i table found = .ok r
  | [], _, found, _ => ⟨(found, []), rfl⟩
  | (name, rs) :: table, i, found, hi => by
    rw [length_cons] at hi
    have hplace : i < found.length := by omega
    obtain ⟨⟨found', here⟩, hadd⟩ := exists_addAll (strategies cost bound rs) hplace
    have hlength := (of_addAll hadd).1.kept.length_eq
    have hi' : i + 1 + table.length ≤ found'.length := by omega
    obtain ⟨⟨last, later⟩, hrest⟩ := exists_stagesFrom cost bound table hi'
    exact ⟨(last, here ++ later), bind_eq_ok.2 ⟨_, hadd, bind_eq_ok.2 ⟨_, hrest, rfl⟩⟩⟩

/-! ## Profiles in the order in which they are offered -/

/-- The first of some things that a test accepts. -/
def firstAccepted {μ : Type → Type} [Monad μ] {α β : Type} (test : β → μ (Option α)) : List β → μ (Option α)
  | [] => pure none
  | b :: rest => do
    match ← test b with
    | some a => pure (some a)
    | none => firstAccepted test rest

section Examine

variable {μ : Type → Type} [Monad μ] [LawfulMonad μ] {γ : Type}

theorem firstAccepted_append (test : β → μ (Option α)) (ys : List β) : ∀ xs : List β,
    firstAccepted test (xs ++ ys) = do
      match ← firstAccepted test xs with
      | some a => pure (some a)
      | none => firstAccepted test ys
  | [] => by
    rw [nil_append, firstAccepted, pure_bind]
  | x :: xs => by
    rw [cons_append, firstAccepted, firstAccepted, firstAccepted_append test ys xs, bind_assoc]
    refine bind_congr fun a => ?_
    cases a with
    | none => rfl
    | some a => rw [pure_bind]

omit [LawfulMonad μ] in
theorem firstAccepted_map (test : γ → μ (Option α)) (f : β → γ) : ∀ xs : List β,
    firstAccepted test (xs.map f) = firstAccepted (fun x => test (f x)) xs
  | [] => rfl
  | x :: xs => by
    rw [map_cons, firstAccepted, firstAccepted, firstAccepted_map test f xs]

/-- Choosing strategies agent by agent goes through the profiles in their order. -/
theorem examine_eq (test : Profile → μ (Option α)) : ∀ (sss : List (List Strategy)) (chosen : Profile),
    examine test sss chosen = firstAccepted (fun p => test (chosen.reverse ++ p)) (profiles sss)
  | [], chosen => by
    rw [examine, profiles, firstAccepted, append_nil]
    conv_lhs => rw [← bind_pure (test chosen.reverse)]
    refine bind_congr fun a => ?_
    cases a <;> rfl
  | ss :: rest, chosen => by
    rw [examine, profiles]
    induction ss with
    | nil => rw [examine.go, flatMap_nil, firstAccepted]
    | cons s more ih =>
      have hshift : (fun p => test ((s :: chosen).reverse ++ p)) = fun p => test (chosen.reverse ++ s :: p) := by
        funext p
        rw [reverse_cons, append_assoc, singleton_append]
      rw [examine.go, flatMap_cons, firstAccepted_append, firstAccepted_map, examine_eq test rest (s :: chosen),
        hshift]
      refine bind_congr fun a => ?_
      cases a with
      | none => exact ih
      | some a => rfl

theorem examine_nil (test : Profile → μ (Option α)) (sss : List (List Strategy)) :
    examine test sss [] = firstAccepted test (profiles sss) := by
  rw [examine_eq]
  rfl

theorem firstAccepted_lift (test : β → Outcome (Option α)) : ∀ xs : List β,
    firstAccepted (fun x => (liftM (test x) : Drawing (Option α))) xs = liftM (firstAccepted test xs)
  | [] => rfl
  | x :: xs => by
    rw [firstAccepted, firstAccepted, firstAccepted_lift test xs]
    cases test x with
    | error f => rfl
    | ok found => cases found <;> rfl

theorem examineStages_eq (test : Profile → μ (Option α)) : ∀ stages : List (List (List Strategy)),
    examineStages test stages = firstAccepted test (stages.flatMap profiles)
  | [] => rfl
  | stage :: rest => by
    rw [examineStages, flatMap_cons, firstAccepted_append, examine_eq, examineStages_eq test rest]
    rfl

end Examine

def offersAt (t : Task) (i : Int) : Drawing (List Profile) := do
  let table ← memorylessRules i t.names t.actionLists t.model.props
  let (_, stages) ← stagesFrom Guard.complexity i 0 table (replicate t.agents.length [])
  return stages.flatMap profiles

/-- The profiles that are drawn at the next `n` complexities from `i` on, with their complexity. -/
def offeredFrom (draw : Int → Drawing (List Profile)) : Nat → Int → Drawing (List (Int × Profile))
  | 0, _ => return []
  | n + 1, i => do
    let here ← draw i
    let later ← offeredFrom draw n (i + 1)
    return here.map (i, ·) ++ later

abbrev offers (t : Task) : Nat → Int → Drawing (List (Int × Profile)) := offeredFrom (offersAt t)

theorem eraseDups_spec : ∀ xs : List Int, xs.eraseDups.Nodup ∧ xs.eraseDups <+ xs
  | [] => by simp
  | x :: xs => by
    obtain ⟨hn, hsub⟩ := eraseDups_spec (xs.filter fun b => !b == x)
    rw [eraseDups_cons]
    exact ⟨nodup_cons.2 ⟨by simp [mem_eraseDups], hn⟩, (hsub.trans filter_sublist).cons_cons x⟩
termination_by xs => xs.length
decreasing_by exact Nat.lt_succ_of_le (length_filter_le _ xs)

theorem Task.of_start (h : start check m formula = .ok t) : t.model = m ∧
    toBranching (some formula) = .ok t.formula ∧ agentsOf (some formula) none = .ok t.agents ∧
    t.actions.length = t.agents.eraseDups.length ∧ check m = .ok () ∧ ∃ actions, m.actions t.agents = .ok actions := by
  obtain ⟨_, hcheck, h⟩ := bind_eq_ok.1 h
  obtain ⟨branching, hbranching, h⟩ := bind_eq_ok.1 h
  obtain ⟨bound, -, h⟩ := bind_eq_ok.1 h
  obtain ⟨agents, hagents, h⟩ := bind_eq_ok.1 h
  obtain ⟨actions, hactions, h⟩ := bind_eq_ok.1 h
  cases h
  have hlength := (mapM_eq_ok.1 hactions).length_eq
  exact ⟨rfl, hbranching, hagents, by rw [length_map, ← hlength], hcheck, actions, hactions⟩

theorem Task.length_actions (h : start check m formula = .ok t) : t.actions.length ≤ t.agents.length := by
  rw [(of_start h).2.2.2.1]
  exact (eraseDups_spec t.agents).2.length_le

theorem Task.start_eq {branching : String} {agents : List Int} {actions : List (String × List String)}
    (hcheck : check m = .ok ()) (hactions : m.actions agents = .ok actions)
    (hheading : toBranching (some formula) = .ok branching ∧ boundOf (some formula) = .ok bound ∧
      agentsOf (some formula) none = .ok agents) :
    start check m formula =
      .ok ⟨m, branching, bound, agents, actions.map fun a => ("actions_" ++ a.1, a.2)⟩ :=
  bind_eq_ok.2 ⟨_, hcheck, bind_eq_ok.2 ⟨_, hheading.1, bind_eq_ok.2 ⟨_, hheading.2.1,
    bind_eq_ok.2 ⟨_, hheading.2.2, bind_eq_ok.2 ⟨_, hactions, rfl⟩⟩⟩⟩⟩

section Search

variable (ht : t.actions.length ≤ t.agents.length)

include ht

theorem gives_offersAt (i : Int) : (offersAt t i).Gives fun _ => True := by
  refine (gives_memorylessRules i t.names t.actionLists t.model.props).bind fun table htable => ?_
  have hlength : 0 + table.length ≤ (replicate t.agents.length ([] : List Strategy)).length := by
    rw [actionLists, length_map] at htable
    rw [length_replicate]
    omega
  obtain ⟨r, hr⟩ := exists_stagesFrom Guard.complexity i table hlength
  exact (gives_lift (P := fun _ => True) hr trivial).bind fun _ _ => gives_pure trivial

end Search

/-- Each complexity up to the bound is tried with the profiles that are offered at it, until one is accepted. -/
theorem climb_offeredFrom (hdraw : ∀ i, (draw i).Gives fun _ => True)
    (test : Int × Profile → Outcome (Option Finding)) : ∀ (n : Nat) (i : Int) (d : Draws),
    ∃ ps d', (offeredFrom draw n i).run.run d = (.ok ps, d') ∧
      outcome (climb (fun i => draw i >>= firstAccepted fun p => liftM (test (i, p))) n i) d =
        firstAccepted test ps
  | 0, _, d => ⟨[], d, rfl, rfl⟩
  | n + 1, i, d => by
    obtain ⟨here, d₁, hhere, -⟩ := hdraw i d
    obtain ⟨later, d₂, hlater, hclimb⟩ := climb_offeredFrom hdraw test n (i + 1) d₁
    refine ⟨here.map (i, ·) ++ later, d₂, ?_, ?_⟩
    · rw [offeredFrom, run_bind_ok hhere, run_bind_ok hlater]
      rfl
    · unfold outcome at hclimb ⊢
      rw [climb, bind_assoc, run_bind_ok hhere, firstAccepted_lift, firstAccepted_append, firstAccepted_map]
      cases firstAccepted (fun p => test (i, p)) here with
      | error f => rfl
      | ok found =>
        cases found with
        | none => exact hclimb
        | some f => rfl

/-- The search among the profiles that are drawn complexity by complexity up to the bound. -/
def searchOffered (t : Task) (draw : Int → Drawing (List Profile)) (test : Int × Profile → Outcome (Option Finding)) :
    Drawing Finding := do
  match ← climb (fun i => draw i >>= firstAccepted fun p => liftM (test (i, p))) t.bound.toNat 1 with
  | some f => return f
  | none => return { satisfied := .bool false, bound? := some t.bound }

/-- What a search reports of the profiles that are offered: the first that a test accepts, or that there is none. -/
def reportFirst (t : Task) (test : Int × Profile → Outcome (Option Finding)) (offered : List (Int × Profile)) :
    Outcome Finding :=
  (·.getD { satisfied := .bool false, bound? := some t.bound }) <$> firstAccepted test offered

theorem outcome_searchOffered (t : Task)
    (hdraw : ∀ i, (draw i).Gives fun _ => True) (test : Int × Profile → Outcome (Option Finding)) (d : Draws) :
    ∃ ps d', (offeredFrom draw t.bound.toNat 1).run.run d = (.ok ps, d') ∧
      (searchOffered t draw test).outcome d = reportFirst t test ps := by
  obtain ⟨ps, d', hps, hclimb⟩ := climb_offeredFrom hdraw test t.bound.toNat 1 d
  refine ⟨ps, d', hps, ?_⟩
  unfold searchOffered reportFirst
  unfold outcome at hclimb ⊢
  rw [ExceptT.run_bind, StateT.run_bind]
  generalize (climb (fun i => draw i >>= firstAccepted fun p => liftM (test (i, p))) t.bound.toNat 1).run.run d = r
    at hclimb ⊢
  obtain ⟨r, d₁⟩ := r
  obtain rfl : r = _ := hclimb
  cases firstAccepted test ps with
  | error f => rfl
  | ok found => cases found <;> rfl

theorem searchMemoryless_eq (t : Task) (test : Int → Profile → Outcome (Option Finding)) :
    searchMemoryless t test = searchOffered t (offersAt t) fun e => test e.1 e.2 := by
  have hlevel : (fun i => do
      let table ← memorylessRules i t.names t.actionLists t.model.props
      let (_, stages) ← stagesFrom Guard.complexity i 0 table (replicate t.agents.length [])
      examineStages (fun p => liftM (test i p)) stages : Int → Drawing (Option Finding)) =
      fun i => offersAt t i >>= firstAccepted fun p => liftM (test i p) := by
    unfold offersAt
    simp only [bind_assoc, pure_bind, examineStages_eq]
  unfold searchOffered
  rw [← hlevel]
  rfl

/-- A search reports the first of the profiles offered up to the bound that is accepted. -/
theorem outcome_searchMemoryless (ht : t.actions.length ≤ t.agents.length)
    (test : Int → Profile → Outcome (Option Finding)) (d : Draws) :
    ∃ ps d', (offers t t.bound.toNat 1).run.run d = (.ok ps, d') ∧
      (searchMemoryless t test).outcome d = reportFirst t (fun e => test e.1 e.2) ps := by
  rw [searchMemoryless_eq]
  exact outcome_searchOffered t (gives_offersAt ht) _ d

/-! ## Reports -/

/-- What is reported of the profile that is offered first, if there is one: its verdict, whatever it is. -/
def firstReport (reader : Logic) (source : String) (t : Task) : List (Int × Profile) → Outcome Finding
  | [] => .ok { satisfied := .bool false, bound? := some t.bound }
  | (i, p) :: _ => do
    let verdict ← Pruning.firmVerdict reader source t.agents t.formula (p.map some)
    return { satisfied := toDatum verdict, bound? := some i, profile? := some p }

/-- A finding tells which of the profiles that are offered up to a bound is accepted: it is affirmative just if one is,
and then gives such a profile with its complexity; otherwise it is negative and gives the bound. -/
structure Finding.Tells (accepts : Profile → Prop) (bound : Int) (offered : List (Int × Profile)) (f : Finding) :
    Prop where
  satisfied : f.satisfied.truthy = true ↔ ∃ e ∈ offered, accepts e.2
  found : f.satisfied.truthy = true → ∃ e ∈ offered, accepts e.2 ∧ f.bound? = some e.1 ∧ f.profile? = some e.2
  missed : (∀ e ∈ offered, ¬ accepts e.2) → f.satisfied = .bool false ∧ f.bound? = some bound

def Task.Accepts (reader : Logic) (source : String) (t : Task) (p : Profile) : Prop :=
  ∃ reason, Pruning.firmVerdict reader source t.agents t.formula (p.map some) = .ok (true, reason)

/-- The report on the first profile tells which profile is accepted just if that one is, or there is none. -/
theorem tells_firstReport_iff (h : firstReport reader source t ps = .ok f) :
    f.Tells (t.Accepts reader source) t.bound ps ↔ ∀ e ∈ ps.head?, t.Accepts reader source e.2 := by
  cases ps with
  | nil =>
    cases h
    have htells : Finding.Tells (t.Accepts reader source) t.bound []
        { satisfied := .bool false, bound? := some t.bound } :=
      ⟨by simp [Datum.truthy], by simp [Datum.truthy], fun _ => ⟨rfl, rfl⟩⟩
    exact ⟨fun _ => by simp, fun _ => htells⟩
  | cons e ps =>
    obtain ⟨i, p⟩ := e
    obtain ⟨verdict, -, h⟩ := bind_eq_ok.1 h
    cases h
    have hfirst : (i, p) ∈ (i, p) :: ps := mem_cons_self
    refine ⟨fun htells => ?_, fun haccepts => ?_⟩
    · -- every verdict counts as affirmative, so the profile that is given has to be accepted
      obtain ⟨e, -, haccepts, -, hprofile⟩ := htells.found rfl
      rintro _ ⟨⟩
      rwa [Option.some.inj hprofile]
    · have haccepts := haccepts (i, p) rfl
      exact ⟨⟨fun _ => ⟨_, hfirst, haccepts⟩, fun _ => rfl⟩, fun _ => ⟨_, hfirst, haccepts, rfl, rfl⟩,
        fun hnone => absurd haccepts (hnone _ hfirst)⟩

/-- What a search by firm pruning makes of a profile: every verdict ends it. -/
def firmTest (reader : Logic) (source : String) (t : Task) (e : Int × Profile) : Outcome (Option Finding) := do
  let verdict ← Pruning.firmVerdict reader source t.agents t.formula (e.2.map some)
  return some { satisfied := toDatum verdict, bound? := some e.1, profile? := some e.2 }

theorem reportFirst_firmTest (ps : List (Int × Profile)) :
    reportFirst t (firmTest reader source t) ps = firstReport reader source t ps := by
  cases ps with
  | nil => rfl
  | cons e ps =>
    rw [reportFirst, firstAccepted, firmTest, firstReport]
    cases Pruning.firmVerdict reader source t.agents t.formula (e.2.map some) <;> rfl

theorem outcome_findMemoryless_eq (reader : Logic) (ht : memoryless source formula = .ok t) (d : Draws) :
    (findMemoryless reader source formula).outcome d =
      (searchMemoryless t fun i p => firmTest reader source t (i, p)).outcome d := by
  unfold findMemoryless
  rw [ht]
  rfl

/-- Whatever is drawn, profiles are offered up to the bound, and the search reports the verdict on the first of them. -/
theorem outcome_findMemoryless (reader : Logic) (ht : memoryless source formula = .ok t) (d : Draws) :
    ∃ ps, (offers t t.bound.toNat 1).outcome d = .ok ps ∧
      (findMemoryless reader source formula).outcome d = firstReport reader source t ps := by
  obtain ⟨m, -, hstart⟩ := bind_eq_ok.1 ht
  obtain ⟨ps, d', hps, hfind⟩ := outcome_searchMemoryless (length_actions hstart)
    (fun i p => firmTest reader source t (i, p)) d
  exact ⟨ps, congrArg Prod.fst hps, (outcome_findMemoryless_eq reader ht d).trans (hfind.trans (reportFirst_firmTest ps))⟩

theorem firstReport_of_verdict {p : Profile} {verdict : Bool × String}
    (h : Pruning.firmVerdict reader source t.agents t.formula (p.map some) = .ok verdict) (i : Int)
    (ps : List (Int × Profile)) : firstReport reader source t ((i, p) :: ps) =
      .ok { satisfied := toDatum verdict, bound? := some i, profile? := some p } := by
  rw [firstReport, h]
  rfl

theorem firstReport_ne_true (h : firstReport reader source t ps = .ok f) : f.satisfied ≠ .bool true := by
  cases ps with
  | nil =>
    cases h
    simp
  | cons e ps =>
    obtain ⟨verdict, -, h⟩ := bind_eq_ok.1 h
    cases h
    simp [toDatum]

/-! ## Two profiles -/

section Toggle

open Pruning Checker

/-- The search for an agent who changes the state to where `p` holds. -/
def toggleTask : Task := ⟨toggle, "AXp", 1, [1], [("actions_agent1", ["A"])]⟩

theorem memoryless_toggle : memoryless toggleText "<\x7b1\x7d,1>Xp" = .ok toggleTask :=
  bind_eq_ok.2 ⟨toggle, toggle_load, start_eq (by decide) toggle_actions (by decide)⟩

theorem offers_toggle : (offers toggleTask toggleTask.bound.toNat 1).outcome {} =
    .ok [(1, [[⟨"p", "A"⟩]]), (1, [[⟨"p", "A"⟩]]), (1, [[⟨"q", "A"⟩]]), (1, [[⟨"p", "A"⟩]]), (1, [[⟨"q", "A"⟩]]),
      (1, [[⟨"untilq", "A"⟩]])] :=
  by decide

theorem firmVerdict_toggle_p : firmVerdict .ctl toggleText [1] "AXp" [some [⟨"p", "A"⟩]] =
    .ok (false, "Formula non soddisfatta nello stato iniziale: Initial state s0: False") :=
  toggle_prunable.toRewritable.firmVerdict_eq rfl ⟨_, toggle_actions⟩ [[.text "I", .text "A"], [.text "A", .zero]]
    (by decide +kernel) (by decide) (by decide) ⟨"Result: set()", some "Initial state s0: False"⟩ (by decide +kernel)

/-- Where `q` holds, changing the state leads to `p`. -/
theorem firmVerdict_toggle_q : firmVerdict .ctl toggleText [1] "AXp" [some [⟨"q", "A"⟩]] = .ok (true, "") :=
  toggle_prunable.toRewritable.firmVerdict_eq rfl ⟨_, toggle_actions⟩ [[.zero, .text "A"], [.text "A", .text "I"]]
    (by decide +kernel) (by decide) (by decide) ⟨"Result: \x7b's0'\x7d", some accepted⟩ (by decide +kernel)

/-- Whatever is drawn, the search reports the verdict on the first profile that is offered up to the bound. So the report
tells which profile is accepted just if that one is, or none is offered. -/
theorem findMemoryless_tells_iff (reader : Formula.Logic) {source formula : String} {t : Task}
    (ht : Task.memoryless source formula = .ok t) (d : Draws) :
    ∃ ps, (offers t t.bound.toNat 1).outcome d = .ok ps ∧
      (findMemoryless reader source formula).outcome d = firstReport reader source t ps ∧
      ∀ f, (findMemoryless reader source formula).outcome d = .ok f → f.satisfied ≠ .bool true ∧
        (f.Tells (t.Accepts reader source) t.bound ps ↔ ∀ e ∈ ps.head?, t.Accepts reader source e.2) := by
  obtain ⟨ps, hps, hfind⟩ := outcome_findMemoryless reader ht d
  refine ⟨ps, hps, hfind, fun f hf => ?_⟩
  rw [hfind] at hf
  exact ⟨firstReport_ne_true hf, tells_firstReport_iff hf⟩

/-- One profile is accepted; another one comes first and is rejected, and the report is that of the first. -/
theorem findMemoryless_tells_iff_toggle : Task.memoryless toggleText "<\x7b1\x7d,1>Xp" = .ok toggleTask ∧
    ∃ ps, (offers toggleTask toggleTask.bound.toNat 1).outcome {} = .ok ps ∧
      (findMemoryless .ctl toggleText "<\x7b1\x7d,1>Xp").outcome {} = firstReport .ctl toggleText toggleTask ps ∧
      ∀ f, (findMemoryless .ctl toggleText "<\x7b1\x7d,1>Xp").outcome {} = .ok f → f.satisfied ≠ .bool true ∧
        (f.Tells (toggleTask.Accepts .ctl toggleText) toggleTask.bound ps ↔
          ∀ e ∈ ps.head?, toggleTask.Accepts .ctl toggleText e.2) :=
  ⟨memoryless_toggle, findMemoryless_tells_iff .ctl memoryless_toggle {}⟩

/-- The strategy to change the state where `q` holds is offered and accepted; the report is negative and gives the
strategy that was offered first. -/
theorem findMemoryless_rejected : ∃ ps, (offers toggleTask toggleTask.bound.toNat 1).outcome {} = .ok ps ∧
    (1, [[⟨"q", "A"⟩]]) ∈ ps ∧ toggleTask.Accepts .ctl toggleText [[⟨"q", "A"⟩]] ∧
    ∃ f, (findMemoryless .ctl toggleText "<\x7b1\x7d,1>Xp").outcome {} = .ok f ∧
      f.satisfied = .tuple [.bool false,
        .text "Formula non soddisfatta nello stato iniziale: Initial state s0: False"] ∧
      f.profile? = some [[⟨"p", "A"⟩]] ∧ ¬ f.Tells (toggleTask.Accepts .ctl toggleText) toggleTask.bound ps := by
  obtain ⟨ps, hps, hfind⟩ := outcome_findMemoryless .ctl memoryless_toggle {}
  obtain rfl := Except.ok.inj (offers_toggle.symm.trans hps)
  have hreport := firstReport_of_verdict (t := toggleTask) (p := [[⟨"p", "A"⟩]]) firmVerdict_toggle_p 1
    [(1, [[⟨"p", "A"⟩]]), (1, [[⟨"q", "A"⟩]]), (1, [[⟨"p", "A"⟩]]), (1, [[⟨"q", "A"⟩]]), (1, [[⟨"untilq", "A"⟩]])]
  refine ⟨_, offers_toggle, by decide, ⟨"", firmVerdict_toggle_q⟩, _, hfind.trans hreport, rfl, rfl, fun htells => ?_⟩
  -- the first profile would have to be accepted
  obtain ⟨reason, haccept⟩ := (tells_firstReport_iff hreport).1 htells _ rfl
  have hne := firmVerdict_toggle_p.symm.trans haccept
  simp at hne

end Toggle

end Natural

end Arena
