/-
Sure wins and equilibria, looked for complexity by complexity among the profiles offered there. A sure win is reported
at the first complexity whose last profile wins, since each verdict replaces those before it. No profile can be examined
for an equilibrium, so there is an answer only if none is offered.
-/
import Arena.Natural.Equilibrium
import Arena.Proofs.Natural.GradedSearch

namespace Arena.Natural.Equilibrium

open Drawing List Recall Checker.Branching Pruning Model

variable {source formula : String} {bound : Int} {agents : List Int} {t : Task} {reader : Formula.Logic}
  {test : Profile → Outcome Bool} {report : Checker.Report} {ps : List Profile} {g : Matrix}

/-! ## Tasks -/

/-- Enters actions under a name, in the place of what stands there. -/
def enter (table : List (String × List String)) (e : String × List String) : List (String × List String) :=
  if table.any (·.1 == e.1) then table.map fun x => if x.1 == e.1 then (e.1, e.2) else x else table ++ [(e.1, e.2)]

theorem length_enter_le (table : List (String × List String)) (e : String × List String) :
    (enter table e).length ≤ table.length + 1 := by
  unfold enter
  split <;> simp

theorem length_foldl_enter_le : ∀ (es table : List (String × List String)),
    (es.foldl enter table).length ≤ table.length + es.length
  | [], _ => Nat.le_refl _
  | e :: es, table => by
    have hstep := length_enter_le table e
    have hrest := length_foldl_enter_le es (enter table e)
    rw [foldl_cons, length_cons]
    omega

theorem of_task (h : task source formula bound agents = .ok t) :
    t.bound = bound ∧ t.actions.length ≤ t.agents.length := by
  obtain ⟨m, -, h⟩ := bind_eq_ok.1 h
  obtain ⟨n, -, h⟩ := bind_eq_ok.1 h
  obtain ⟨_, -, h⟩ := bind_eq_ok.1 h
  obtain ⟨actions, -, h⟩ := bind_eq_ok.1 h
  generalize hnamed : ((actions.zip agents).map fun e => ("actions_agent" ++ toString e.2, e.1.2)) = named at h
  have ht : t = ⟨m, toBranching formula, bound, agents, named.foldl enter []⟩ := by
    exact (Except.ok.inj h).symm
  have hshort : named.length ≤ agents.length := by
    rw [← hnamed, length_map, length_zip]
    exact Nat.min_le_right _ _
  have hle := length_foldl_enter_le named []
  rw [length_nil, Nat.zero_add] at hle
  rw [ht]
  exact ⟨rfl, hle.trans hshort⟩

theorem run_task (h : task source formula bound agents = .ok t) (d : Draws) :
    (liftM (task source formula bound agents) : Drawing Task).run.run d = (.ok t, d) := by
  rw [h]
  rfl

/-! ## Sure wins -/

/-- The profiles that are offered at the next `n` complexities from `i` on, complexity by complexity. -/
def rounds (t : Task) : Nat → Int → Drawing (List (Int × List Profile))
  | 0, _ => return []
  | n + 1, i => do
    let here ← offersAt t i
    let later ← rounds t n (i + 1)
    return (i, here) :: later

def verdict (reader : Formula.Logic) (source : String) (t : Task) (p : Profile) : Outcome Bool :=
  lenientVerdict reader source t.agents t.formula (p.map some)

def endsInWin (test : Profile → Outcome Bool) (ps : List Profile) : Bool :=
  ps.getLast?.any fun p => (test p).toOption.getD false

theorem lastVerdict_eq : ∀ {ps : List Profile} {last : Bool},
    (∀ p ∈ ps, ∃ b, test p = .ok b) → lastVerdict test ps last = (ps.getLast?.map test).getD (.ok last)
  | [], _, _ => rfl
  | p :: ps, last, h => by
    obtain ⟨⟨b, hb⟩, hps⟩ := forall_mem_cons.1 h
    rw [lastVerdict, hb]
    change lastVerdict test ps b = _
    rw [lastVerdict_eq hps]
    cases ps with
    | nil => exact hb.symm
    | cons q ps =>
      rfl

theorem lastVerdict_false (h : ∀ p ∈ ps, ∃ b, test p = .ok b) :
    lastVerdict test ps false = .ok (endsInWin test ps) := by
  rw [lastVerdict_eq h]
  unfold endsInWin
  cases hlast : ps.getLast? with
  | none => rfl
  | some p =>
    obtain ⟨b, hb⟩ := h p (mem_of_getLast? hlast)
    simp [hb, Except.toOption]

theorem sureFrom_succ (reader : Formula.Logic) (source : String) (t : Task) (n : Nat) (i : Int) :
    sureFrom reader source t (n + 1) i = (do
      let ps ← offersAt t i
      let wins ← lastVerdict (verdict reader source t) ps false
      if wins then return { satisfied := .bool true, bound? := some i }
      sureFrom reader source t n (i + 1)) := by
  rw [sureFrom]
  unfold offersAt emergingProfiles
  simp only [bind_assoc]
  refine bind_congr fun table => ?_
  cases stagesFrom Guard.complexity i 0 table (replicate t.agents.length []) <;> rfl

/-- What is said of the first complexity whose last profile wins, if there is one. -/
def sureFinding (bound : Int) : Option (Int × List Profile) → Finding
  | some r => { satisfied := .bool true, bound? := some r.1 }
  | none => { satisfied := .bool false, bound? := some bound }

/-- The search goes from one complexity to the next until the last profile of one wins. -/
theorem outcome_sureFrom (ht : t.actions.length ≤ t.agents.length) : ∀ (n : Nat) (i : Int) (d : Draws),
    ∃ rs d', (rounds t n i).run.run d = (.ok rs, d') ∧
      ((∀ r ∈ rs, ∀ p ∈ r.2, ∃ b, verdict reader source t p = .ok b) →
        (sureFrom reader source t n i).outcome d =
          .ok (sureFinding t.bound (rs.find? fun r => endsInWin (verdict reader source t) r.2)))
  | 0, _, d => ⟨[], d, rfl, fun _ => rfl⟩
  | n + 1, i, d => by
    obtain ⟨here, d₁, hhere, -⟩ := gives_offersAt ht i d
    obtain ⟨later, d₂, hlater, hsure⟩ := outcome_sureFrom ht n (i + 1) d₁
    refine ⟨(i, here) :: later, d₂, ?_, fun h => ?_⟩
    · rw [rounds, run_bind_ok hhere, run_bind_ok hlater]
      rfl
    · obtain ⟨hfirst, hrest⟩ := forall_mem_cons.1 h
      have hlast : (liftM (lastVerdict (verdict reader source t) here false) : Drawing Bool).run.run d₁ =
          (.ok (endsInWin (verdict reader source t) here), d₁) := by
        rw [lastVerdict_false hfirst]
        rfl
      unfold outcome at hsure ⊢
      rw [sureFrom_succ, run_bind_ok hhere, run_bind_ok hlast, find?_cons]
      cases endsInWin (verdict reader source t) here with
      | true => rfl
      | false => exact hsure hrest

theorem outcome_sureWin (reader : Formula.Logic) (ht : task source formula bound agents = .ok t) (d : Draws) :
    ∃ rs d', (rounds t bound.toNat 1).run.run d = (.ok rs, d') ∧
      ((∀ r ∈ rs, ∀ p ∈ r.2, ∃ b, verdict reader source t p = .ok b) →
        (sureWin reader source formula bound agents).outcome d =
          .ok (sureFinding bound (rs.find? fun r => endsInWin (verdict reader source t) r.2))) := by
  obtain ⟨hbound, hlength⟩ := of_task ht
  obtain ⟨rs, d', hrs, hsure⟩ := outcome_sureFrom hlength bound.toNat 1 d
  refine ⟨rs, d', hrs, fun h => ?_⟩
  have hsure := hsure h
  unfold sureWin
  unfold outcome at hsure ⊢
  rw [run_bind_ok (run_task ht d), hsure, hbound]

/-- A finding tells that a profile wins surely: that the last profile of some complexity wins. Then it gives the first such
complexity, and otherwise the bound. -/
structure TellsLast (wins : Profile → Prop) (bound : Int) (rs : List (Int × List Profile)) (f : Finding) : Prop where
  satisfied : f.satisfied = .bool true ↔ ∃ r ∈ rs, ∃ p, r.2.getLast? = some p ∧ wins p
  found : f.satisfied = .bool true → ∃ earlier r later, rs = earlier ++ r :: later ∧ f.bound? = some r.1 ∧
    ∀ r' ∈ earlier, ∀ p, r'.2.getLast? = some p → ¬ wins p
  missed : f.satisfied ≠ .bool true → f.satisfied = .bool false ∧ f.bound? = some bound

theorem endsInWin_iff : endsInWin test ps = true ↔ ∃ p, ps.getLast? = some p ∧ test p = .ok true := by
  have htest : ∀ p, (test p).toOption.getD false = true ↔ test p = .ok true := by
    intro p
    cases test p with
    | error f => simp [Except.toOption]
    | ok b => simp [Except.toOption]
  unfold endsInWin
  rw [Option.any_eq_true]
  simp only [htest]

theorem tellsLast_sureFinding (test : Profile → Outcome Bool) (bound : Int) (rs : List (Int × List Profile)) :
    TellsLast (fun p => test p = .ok true) bound rs (sureFinding bound (rs.find? fun r => endsInWin test r.2)) := by
  cases hfind : rs.find? fun r => endsInWin test r.2 with
  | none =>
    have hnone := find?_eq_none.1 hfind
    refine ⟨⟨fun h => by simp [sureFinding] at h, ?_⟩, fun h => by simp [sureFinding] at h, fun _ => ⟨rfl, rfl⟩⟩
    rintro ⟨r, hr, hwin⟩
    exact absurd (endsInWin_iff.2 hwin) (hnone r hr)
  | some r =>
    obtain ⟨hwin, earlier, later, rfl, hearlier⟩ := find?_eq_some_iff_append.1 hfind
    refine ⟨⟨fun _ => ⟨r, by simp, endsInWin_iff.1 hwin⟩, fun _ => rfl⟩, fun _ => ?_, fun h => absurd rfl h⟩
    refine ⟨earlier, r, later, rfl, rfl, fun r' hr' p hlast hwins => ?_⟩
    have hlost := hearlier r' hr'
    rw [endsInWin_iff.2 ⟨p, hlast, hwins⟩] at hlost
    cases hlost

/-! ## Equilibria -/

/-- Agents of whom none is named twice and each can play something, and a proposition that is a guard of the first
complexity: what is needed for a profile. -/
structure Playable (t : Task) : Prop where
  someone : t.agents ≠ []
  nodup : t.agents.Nodup
  length : t.actions.length = t.agents.length
  actions : ∀ as ∈ t.actionLists, as ≠ []
  bound : 1 ≤ t.bound
  guard : ∃ p ∈ t.model.props, Guard.complexity p = 1

/-- With the first complexity the propositions are guards, and nothing is drawn. -/
theorem exists_guardsAt_one {names : List String} (hnames : names ≠ []) (props : List String) :
    ∃ guards, guardsAt 1 names props = pure guards ∧ props ⊆ guards := by
  unfold guardsAt Guard.conditions
  rw [Guard.Growth.all_eq_pure rfl]
  simp only [pure_bind, mapM_pure]
  refine ⟨_, rfl, fun p hp => ?_⟩
  obtain ⟨name, names, rfl⟩ := exists_cons_of_ne_nil hnames
  rw [map_cons, flatten_cons, mem_append, mem_flatMap]
  exact .inl ⟨p, Text.mem_distinct.2 hp, mem_cons_self⟩

theorem Playable.offered (h : Playable t) {guards : List String} (hguards : t.model.props ⊆ guards) :
    ∃ profile, Offered t guards 1 profile := by
  obtain ⟨p, hp, hcost⟩ := h.guard
  refine ⟨t.actionLists.map fun as => [⟨p, as.headD ""⟩], ?_, h.nodup, ?_⟩
  · rw [ne_eq, map_eq_nil_iff, Task.actionLists, map_eq_nil_iff, ← length_eq_zero_iff, h.length,
      length_eq_zero_iff]
    exact h.someone
  · rw [forall₂_map_right_iff, forall₂_same]
    intro as has
    obtain ⟨a, rest, rfl⟩ := exists_cons_of_ne_nil (h.actions as has)
    have hrule : ⟨p, a⟩ ∈ rules guards (a :: rest) :=
      mem_flatMap.2 ⟨p, hguards hp, mem_map.2 ⟨a, mem_cons_self, rfl⟩⟩
    exact ⟨cons_ne_nil _ _, singleton_sublist.2 hrule, nodup_singleton a, by simp [totalCost, hcost],
      le_rfl⟩

theorem Playable.offers_ne_nil (h : Playable t) {d d' : Draws} {ps : List (Int × Profile)}
    (hps : (offers t t.bound.toNat 1).run.run d = (.ok ps, d')) : ps ≠ [] := by
  have hnames : t.names ≠ [] := by
    rw [ne_eq, Task.names, map_eq_nil_iff, ← length_eq_zero_iff, h.length, length_eq_zero_iff]
    exact h.someone
  obtain ⟨guards, hguards, hprops⟩ := exists_guardsAt_one hnames t.model.props
  have hdedup : t.actions.length = t.agents.eraseDups.length := by rw [h.length, (length_eraseDups_eq_iff _).2 h.nodup]
  obtain ⟨levels, ps', d₁, hlevels, hoffers, -, hmem⟩ := run_offers hdedup t.bound.toNat 1 d
  cases hps.symm.trans hoffers
  have hfirst : (1, guards) ∈ levels := by
    obtain ⟨n, hn⟩ : ∃ n, t.bound.toNat = n + 1 := ⟨t.bound.toNat - 1, by have := h.bound; omega⟩
    obtain ⟨later, -, d₂, hlater, -⟩ := run_offers hdedup n (1 + 1) d
    rw [hn, levelsFrom, hguards, pure_bind, run_bind_ok hlater] at hlevels
    cases hlevels
    exact mem_cons_self
  obtain ⟨profile, hprofile⟩ := h.offered hprops
  exact ne_nil_of_mem ((hmem 1 profile).2 ⟨guards, hfirst, hprofile⟩)

/-- Where nothing can be examined, the search fails at the first profile. -/
theorem outcome_existsEquilibrium (ht : task source formula bound agents = .ok t) (d : Draws) :
    ∃ ps d', (offers t t.bound.toNat 1).run.run d = (.ok ps, d') ∧
      (existsEquilibrium source formula bound agents).outcome d =
        if ps = [] then .ok { satisfied := .bool false, bound? := some bound } else .error .shape := by
  obtain ⟨hbound, hlength⟩ := of_task ht
  have hlevel : (fun i => do
      let table ← memorylessRules i t.names t.actionLists t.model.props
      let ps ← emergingProfiles i t.agents.length table
      if ps.isEmpty then return none else throw .shape : Int → Drawing (Option Finding)) =
      fun i => offersAt t i >>= firstAccepted fun _ => liftM (.error .shape : Outcome (Option Finding)) := by
    funext i
    unfold offersAt emergingProfiles
    simp only [bind_assoc]
    refine bind_congr fun table => ?_
    cases stagesFrom Guard.complexity i 0 table (replicate t.agents.length []) with
    | error f => rfl
    | ok r =>
      change (if (r.2.flatMap profiles).isEmpty then pure none else throw .shape : Drawing (Option Finding)) =
        firstAccepted _ (r.2.flatMap profiles)
      cases r.2.flatMap profiles <;> rfl
  obtain ⟨ps, d', hps, hclimb⟩ := climb_offeredFrom (gives_offersAt hlength)
    (fun _ => .error .shape) t.bound.toNat 1 d
  refine ⟨ps, d', hps, ?_⟩
  unfold existsEquilibrium
  unfold outcome at hclimb ⊢
  rw [run_bind_ok (run_task ht d)]
  rw [hlevel, ← hbound, ExceptT.run_bind, StateT.run_bind]
  generalize (climb (fun i => offersAt t i >>= firstAccepted fun _ =>
    liftM (.error .shape : Outcome (Option Finding))) t.bound.toNat 1).run.run d = r at hclimb ⊢
  obtain ⟨r, d₁⟩ := r
  obtain rfl : r = _ := hclimb
  cases ps <;> rfl

/-! ## A home -/

theorem Pruning.lenientVerdict_eq {m : Model} {n : Int} {text : String}
    {plans : List Plan} (hload : load .plain source = .ok m) (hmatrix : lenientMatrix reader source agents plans = .ok g)
    (hcount : m.agentCount = .ok n) (hmoves : checkMoves { m with graph := g } n = .ok ())
    (htext : withMatrix source (some g) = .ok text) (hreport : check reader text formula = .ok report) :
    lenientVerdict reader source agents formula plans = .ok (report.initial? = some accepted) :=
  bind_eq_ok.2 ⟨m, hload, bind_eq_ok.2 ⟨g, hmatrix, bind_eq_ok.2 ⟨n, hcount, bind_eq_ok.2 ⟨(), hmoves,
    bind_eq_ok.2 ⟨text, htext, bind_eq_ok.2 ⟨report, hreport, rfl⟩⟩⟩⟩⟩⟩

/-- The task of staying at home, where `p` holds. -/
def homeTask : Task := ⟨detour, "AGp", 1, [1], [("actions_agent1", ["A", "B"])]⟩

theorem task_home : task detourLayout.text "Gp" 1 [1] = .ok homeTask := by
  refine bind_eq_ok.2 ⟨detour, detour_load, bind_eq_ok.2 ⟨1, rfl, bind_eq_ok.2 ⟨(), by decide,
    bind_eq_ok.2 ⟨_, actions_detour, ?_⟩⟩⟩⟩
  rfl

theorem rounds_home : (rounds homeTask (1 : Int).toNat 1).outcome {} =
    .ok [(1, [[[⟨"p", "A"⟩]], [[⟨"p", "A"⟩]], [[⟨"p", "B"⟩]]])] :=
  by decide

/-- The verdict on a rule for home is that on the model where it leaves only its action and idling there. -/
theorem verdict_home {action : String} (g : Matrix) (report : Checker.Report)
    (hleft : keepMatrix (obeyed (fun _ => ["s0"]) [1] [[⟨"p", action⟩]]) detour.graph = g)
    (hlength : g.length = 2) (hwritten : ∀ row ∈ g, ∀ c ∈ row, Text.IsWord c.write ∧ Cell.ofWord c.write = c)
    (htitles : ∀ row ∈ g, header? .plain (rowText row) = none)
    (hmoves : checkMoves { detour with graph := g } 1 = .ok ())
    (hreport : checkModel .ctl { detour with graph := g } "AGp" = .ok report) :
    verdict .ctl detourLayout.text homeTask [[⟨"p", action⟩]] = .ok (report.initial? = some Pruning.accepted) := by
  have hholds : ∀ rules ∈ [[(⟨"p", action⟩ : Rule)]], ∀ r ∈ rules, HoldsIn .ctl detourLayout.text r ["s0"] :=
    forall_mem_singleton.2 (forall_mem_singleton.2 ⟨by decide, _, check_home, names_s0⟩)
  have hmatrix := lenientMatrix_eq detour_load ⟨_, actions_detour⟩ (by decide) (by simp) (fun _ => ["s0"]) hholds hleft
  have hproper : detourLayout.Proper := by decide
  have hblock := hproper.block_rows
  rw [← hproper.trimmedLines_text] at hblock
  obtain ⟨text, htext, hnew⟩ := load_withMatrix detour_load hblock (by simp [title]) hlength hwritten htitles
  exact Pruning.lenientVerdict_eq detour_load hmatrix rfl hmoves htext ((check_of_load hnew (by decide)).trans hreport)

theorem verdict_home_stay : verdict .ctl detourLayout.text homeTask [[⟨"p", "A"⟩]] = .ok true :=
  verdict_home [[.text "I", .zero], [.text "A", .text "I"]]
    ⟨"Result: \x7b's0'\x7d", some "Initial state s0: True"⟩ (by decide) rfl (by decide) (by decide) (by decide)
    (by decide +kernel)

/-- Who may play `B` at home can leave it. -/
theorem verdict_home_leave : verdict .ctl detourLayout.text homeTask [[⟨"p", "B"⟩]] = .ok false :=
  verdict_home [[.text "I", .text "B"], [.text "A", .text "I"]]
    ⟨"Result: set()", some "Initial state s0: False"⟩ (by decide) rfl (by decide) (by decide) (by decide)
    (by decide +kernel)

theorem judged_home : ∀ r ∈ [((1 : Int), [[[⟨"p", "A"⟩]], [[⟨"p", "A"⟩]], [[⟨"p", "B"⟩]]])], ∀ p ∈ r.2,
    ∃ b, verdict .ctl detourLayout.text homeTask p = .ok b := by
  simp [verdict_home_stay, verdict_home_leave]

/-- Whatever is drawn, if there is a verdict on each profile, a sure win is reported just if the last profile that is
offered at some complexity up to the bound wins, and with the first such complexity. -/
theorem sureWin_tellsLast (reader : Formula.Logic) {source formula : String} {bound : Int} {agents : List Int} {t : Task}
    (ht : task source formula bound agents = .ok t) (d : Draws) :
    ∃ rs, (rounds t bound.toNat 1).outcome d = .ok rs ∧
      ((∀ r ∈ rs, ∀ p ∈ r.2, ∃ b, verdict reader source t p = .ok b) →
        ∃ f, (sureWin reader source formula bound agents).outcome d = .ok f ∧
          TellsLast (fun p => verdict reader source t p = .ok true) bound rs f) := by
  obtain ⟨rs, d', hrs, hsure⟩ := outcome_sureWin reader ht d
  exact ⟨rs, outcome_of_run hrs, fun h => ⟨_, hsure h, tellsLast_sureFinding _ bound rs⟩⟩

theorem sureWin_tellsLast_home : task detourLayout.text "Gp" 1 [1] = .ok homeTask ∧
    ∃ rs, (rounds homeTask (1 : Int).toNat 1).outcome {} = .ok rs ∧
      (∀ r ∈ rs, ∀ p ∈ r.2, ∃ b, verdict .ctl detourLayout.text homeTask p = .ok b) ∧
      ∃ f, (sureWin .ctl detourLayout.text "Gp" 1 [1]).outcome {} = .ok f ∧
        TellsLast (fun p => verdict .ctl detourLayout.text homeTask p = .ok true) 1 rs f := by
  obtain ⟨rs, hrs, hsure⟩ := sureWin_tellsLast .ctl task_home {}
  obtain rfl := Except.ok.inj (rounds_home.symm.trans hrs)
  exact ⟨task_home, _, hrs, judged_home, hsure judged_home⟩

/-- Staying at home is offered and wins, but leaving is offered after it, and no sure win is reported. -/
theorem sureWin_misses_home : ∃ rs, (rounds homeTask (1 : Int).toNat 1).outcome {} = .ok rs ∧
    (∃ r ∈ rs, [[⟨"p", "A"⟩]] ∈ r.2 ∧ verdict .ctl detourLayout.text homeTask [[⟨"p", "A"⟩]] = .ok true) ∧
    (sureWin .ctl detourLayout.text "Gp" 1 [1]).outcome {} = .ok { satisfied := .bool false, bound? := some 1 } := by
  obtain ⟨rs, d', hrs, hsure⟩ := outcome_sureWin .ctl task_home {}
  have hrounds : (rounds homeTask (1 : Int).toNat 1).outcome {} = .ok rs := outcome_of_run hrs
  obtain rfl := Except.ok.inj (rounds_home.symm.trans hrounds)
  refine ⟨_, hrounds, ⟨_, mem_singleton_self _, mem_cons_self, verdict_home_stay⟩, ?_⟩
  have hlost : endsInWin (verdict .ctl detourLayout.text homeTask)
      [[[⟨"p", "A"⟩]], [[⟨"p", "A"⟩]], [[⟨"p", "B"⟩]]] = false := by
    simp [endsInWin, verdict_home_leave, Except.toOption]
  rw [hsure judged_home, find?_eq_none.2]
  · rfl
  · intro r hr
    obtain rfl := mem_singleton.1 hr
    rw [Bool.not_eq_true]
    exact hlost

theorem playable_home : Playable homeTask where
  someone := by decide
  nodup := by decide
  length := rfl
  actions := by decide
  bound := by decide
  guard := ⟨"p", by decide, by decide⟩

/-- Whatever is drawn, a search for an equilibrium fails just if a profile is offered at some complexity up to the bound,
and otherwise says that there is none. So it fails whenever the agents are different, each of them can play something, some
proposition is a guard of the first complexity, and the bound is positive. -/
theorem existsEquilibrium_fails_iff {source formula : String} {bound : Int} {agents : List Int} {t : Task}
    (ht : task source formula bound agents = .ok t) (d : Draws) :
    ∃ ps, (offers t t.bound.toNat 1).outcome d = .ok ps ∧
      ((existsEquilibrium source formula bound agents).outcome d = .error .shape ↔ ps ≠ []) ∧
      ((existsEquilibrium source formula bound agents).outcome d =
        .ok { satisfied := .bool false, bound? := some bound } ↔ ps = []) ∧
      (Playable t → (existsEquilibrium source formula bound agents).outcome d = .error .shape) := by
  obtain ⟨ps, d', hps, hexists⟩ := outcome_existsEquilibrium ht d
  refine ⟨ps, outcome_of_run hps, ?_⟩
  rw [hexists]
  by_cases hnone : ps = []
  · have hplay : ¬ Playable t := fun h => h.offers_ne_nil hps hnone
    simp [hplay]
  · simp [hnone]

theorem existsEquilibrium_fails_iff_home : task detourLayout.text "Gp" 1 [1] = .ok homeTask ∧ Playable homeTask ∧
    ∃ ps, (offers homeTask homeTask.bound.toNat 1).outcome {} = .ok ps ∧ ps ≠ [] ∧
      (existsEquilibrium detourLayout.text "Gp" 1 [1]).outcome {} = .error .shape := by
  obtain ⟨ps, hps, hfails, -, hplay⟩ := existsEquilibrium_fails_iff task_home {}
  have herror := hplay playable_home
  exact ⟨task_home, playable_home, ps, hps, hfails.1 herror, herror⟩

/-- Staying at home is offered and is an equilibrium, but the search for one fails. -/
theorem existsEquilibrium_fails_home : (∃ ps, (offers homeTask homeTask.bound.toNat 1).outcome {} = .ok ps ∧
      (1, [[⟨"p", "A"⟩]]) ∈ ps) ∧
    (∃ e, (isEquilibrium .ctl detourLayout.text "Gp" 1 (some [some [⟨"p", "A"⟩]]) [1]).outcome {} = .ok e ∧
      e.finding = .ok (some { satisfied := .bool true, bound? := some 1 })) ∧
    (existsEquilibrium detourLayout.text "Gp" 1 [1]).outcome {} = .error .shape := by
  have hoffers : (offers homeTask homeTask.bound.toNat 1).outcome {} =
      .ok [(1, [[⟨"p", "A"⟩]]), (1, [[⟨"p", "A"⟩]]), (1, [[⟨"p", "B"⟩]])] := by decide
  refine ⟨⟨_, hoffers, mem_cons_self⟩, ?_, ?_⟩
  · have hwins : Pruning.lenientVerdict .ctl detourLayout.text [1] homeTask.formula [some [⟨"p", "A"⟩]] = .ok true :=
      verdict_home_stay
    have hlift : (liftM (Pruning.lenientVerdict .ctl detourLayout.text [1] homeTask.formula [some [⟨"p", "A"⟩]]) :
        Drawing Bool).run.run {} = (.ok true, {}) := by
      rw [hwins]
      rfl
    have hnone : (deviationFrom homeTask (Pruning.lenientVerdict .ctl detourLayout.text [1] homeTask.formula)
        [some [⟨"p", "A"⟩]] 0 [1]).run.run {} = (.ok none, {}) := by
      rw [deviationFrom, run_bind_ok hlift]
      rfl
    refine ⟨⟨.ok (some { satisfied := .bool true, bound? := some 1 }), some [some [⟨"p", "A"⟩]]⟩, ?_, rfl⟩
    refine outcome_of_run (e := {}) ?_
    unfold isEquilibrium
    rw [run_bind_ok (run_task task_home {})]
    rw [run_bind_ok hnone]
    rfl
  · obtain ⟨ps, d', hps, hexists⟩ := outcome_existsEquilibrium task_home {}
    obtain rfl := Except.ok.inj (hoffers.symm.trans (outcome_of_run hps))
    exact hexists

end Arena.Natural.Equilibrium
