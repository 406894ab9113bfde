/-
What becomes of profiles that a search by degrees cannot use. Without memory, a profile beyond the resource is passed
over, but one that leaves a row of the matrix without transitions ends the search with a fault. With recall, a rule that
the agent cannot play, or a profile beyond the resource, ends it as well.
-/
import Arena.Proofs.Natural.RecallLevels
import Arena.Proofs.Natural.RecallOffers
import Arena.Proofs.Natural.Succession

namespace Arena

open Checker.Branching List Model Formula Fuzzy

variable {m : Model} {source : String} {g g' : Matrix} {test : Int × Profile → Outcome (Option Finding)}
  {e : Int × Profile} {α : Type} {ps : List (Int × Profile)} {index n : Int} {sources : SourceNames} {f : Fault}
  {xs : List α} {s : Scene}

/-! ## Budgets -/

namespace Model

/-- What an agent pays at a place of the matrix: its digit at the front of the entry, whichever joint action it takes. -/
def frontPrice (m : Model) (agent : Int) (i j : Nat) : Outcome Int := do
  let entry ← nth (← nth m.actionCosts i) j
  orFault .value (Text.readInt? (← letterAt entry (agent - 1)))

theorem of_letterCost {letter : String} {k price : Int} (h : m.letterCost letter k = .ok price) :
    ∃ i j c, cellAt? m.graph i j = some c ∧ playsLetter c k letter = true ∧ m.frontPrice k i j = .ok price := by
  unfold letterCost at h
  by_cases hlow : k < 1
  · rw [if_pos hlow] at h
    cases h
  rw [if_neg hlow] at h
  cases hn : m.agents with
  | text s =>
    rw [hn] at h
    cases h
  | number n =>
    rw [hn] at h
    dsimp only at h
    by_cases hhigh : n < k
    · rw [if_pos hhigh] at h
      cases h
    rw [if_neg hhigh] at h
    cases hfind : m.findLetter? k letter with
    | none =>
      rw [hfind] at h
      cases h
    | some place =>
      rw [hfind] at h
      unfold findLetter? at hfind
      rw [zip_range] at hfind
      obtain ⟨e, he, hfind⟩ := exists_of_findSome?_eq_some hfind
      obtain ⟨j, hj, hplace⟩ := Option.map_eq_some_iff.1 hfind
      cases hplace
      obtain ⟨hlt, hplays, -⟩ := findIdx?_eq_some_iff_getElem.1 hj
      exact ⟨_, j, _, (cellAt?_eq (mem_zipIdx_iff_getElem?.1 he) j).trans (getElem?_eq_getElem hlt), hplays, h⟩

theorem affordableFrom_iff (m : Model) : ∀ (ss : List Strategy) (k : Nat), m.affordableFrom k ss = .ok true ↔
    ∀ e ∈ ss.zipIdx k, ∃ cost, m.strategyCost e.2 e.1 = .ok cost ∧ cost ≤ m.resource
  | [], _ => by simp [affordableFrom]
  | s :: ss, k => by
    rw [affordableFrom, bind_eq_ok, zipIdx_cons, forall_mem_cons, ← affordableFrom_iff m ss (k + 1), ← exists_and_right]
    refine exists_congr fun cost => ?_
    rw [and_assoc, and_congr_right_iff]
    intro _
    by_cases h : m.resource < cost
    · rw [if_pos h]
      exact ⟨nofun, fun hle => absurd hle.1 (Int.not_le.2 h)⟩
    · rw [if_neg h]
      exact (and_iff_right (Int.not_lt.1 h)).symm

/-- Strategies are affordable just if for each the agent at its place in the list can pay all its letters within the
resource; a letter is paid where the agent plays it in some joint action of a cell. -/
theorem affordable_iff (m : Model) (ss : List Strategy) :
    (m.affordable ss = .ok true ↔
      ∀ e ∈ ss.zipIdx 1, ∃ cost, m.strategyCost e.2 e.1 = .ok cost ∧ cost ≤ m.resource) ∧
    ∀ letter k price, m.letterCost letter k = .ok price →
      ∃ i j c, cellAt? m.graph i j = some c ∧ playsLetter c k letter = true ∧ m.frontPrice k i j = .ok price :=
  ⟨affordableFrom_iff m ss 1, fun _ _ _ => of_letterCost⟩

end Model

/-! ## Rows without transitions -/

/-- The first row of a matrix that has no transition. -/
def Matrix.emptyRow? (g : Matrix) : Option Nat := g.findIdx? fun row => row.all Cell.isZero

/-- A cell whose joint actions have a letter for each of `n` agents. -/
def Cell.Lettered (n : Int) (c : Cell) : Prop :=
  c.isZero = false → c.isAny = false → ∀ x ∈ Text.split "," c.write, n ≤ (Text.trim x).length

def Matrix.Lettered (n : Int) (g : Matrix) : Prop := ∀ row ∈ g, ∀ c ∈ row, c.Lettered n

theorem forM_eq_ok {f : α → Outcome PUnit} (h : ∀ x ∈ xs, f x = .ok ⟨⟩) : xs.forM f = .ok ⟨⟩ := by
  induction xs with
  | nil => rfl
  | cons x xs ih =>
    obtain ⟨hx, hxs⟩ := forall_mem_cons.1 h
    exact bind_eq_ok.2 ⟨⟨⟩, hx, ih hxs⟩

theorem forM_zip_eq {f : α × Nat → Outcome PUnit} {p : α → Bool} {fault : Nat → Fault}
    (h : ∀ x ∈ xs, ∀ i, f (x, i) = if p x then .error (fault i) else .ok ⟨⟩) :
    (xs.zip (range xs.length)).forM f = match xs.findIdx? p with
      | some i => .error (fault i)
      | none => .ok ⟨⟩ := by
  suffices hfrom : ∀ k : Nat, (xs.zipIdx k).forM f = match xs.findIdx? p with
      | some i => .error (fault (k + i))
      | none => .ok ⟨⟩ by
    rw [zip_range, hfrom]
    simp only [Nat.zero_add]
  induction xs with
  | nil => exact fun _ => rfl
  | cons x xs ih =>
    intro k
    obtain ⟨hx, hxs⟩ := forall_mem_cons.1 h
    rw [findIdx?_cons]
    change (f (x, k) >>= fun _ => (xs.zipIdx (k + 1)).forM f) = _
    rw [hx]
    cases p x with
    | true => rfl
    | false =>
      refine (ih hxs (k + 1)).trans ?_
      cases xs.findIdx? p <;> simp [Nat.add_assoc, Nat.add_comm 1]

/-- A matrix with all letters fails the check just if it has a row without transitions. -/
theorem Model.checkMoves_eq (h : m.graph.Lettered n) : m.checkMoves n =
    match m.graph.emptyRow? with
    | some r => .error (.emptyRowAt r)
    | none => .ok () := by
  refine forM_zip_eq (p := fun row : List Cell => row.all Cell.isZero) (fun row hrow r => ?_)
  dsimp only
  split
  · rfl
  · refine forM_eq_ok fun e he => ?_
    split
    · rfl
    · rename_i hcell
      rw [Bool.or_eq_true, not_or, Bool.not_eq_true, Bool.not_eq_true] at hcell
      refine forM_eq_ok fun x hx => ?_
      have hle := h row hrow e.1 (of_mem_zip he).1 hcell.1 hcell.2 x hx
      rw [if_neg (by omega)]
      rfl

theorem Model.lettered_of_checkMoves (h : m.checkMoves n = .ok ()) : m.graph.Lettered n :=
  fun _ hrow => (checkMoves_spec h hrow).2

namespace Natural

variable {reader : Logic} {t : Task} {formula : String} {b : Bool}

namespace Pruning

variable {states : Names} {agents : List Int}

/-! ## Lenient pruning -/

section Restrict

variable {pick : List Move → Outcome (List Move)} (hpick : ∀ xs ys, pick xs = .ok ys → ∀ y ∈ ys, y ∈ xs)

include hpick

theorem lettered_restrictCell {source : Option String} {c c' : Cell} (hc : c.Lettered n)
    (h : restrictCell states pick source c = .ok c') : c'.Lettered n := by
  unfold restrictCell at h
  split at h
  · rename_i q s
    split at h
    · cases h
      exact hc
    · rename_i hstay
      have hs : (Cell.text s).isAny = false := by
        simp only [Bool.or_eq_true, not_or] at hstay
        simpa [Cell.isAny] using hstay.1
      obtain ⟨kept, hkept, h⟩ := bind_eq_ok.1 h
      have hsub := hpick _ _ hkept
      cases kept with
      | nil =>
        cases h
        exact fun hzero => Bool.noConfusion hzero
      | cons y ys =>
        have hsplit := split_join_kept hsub (cons_ne_nil y ys)
        dsimp only at h
        split at h
        · cases h
          exact fun hzero => Bool.noConfusion hzero
        · cases h
          intro _ _ x hx
          change x ∈ Text.split "," (Text.join "," (y :: ys)) at hx
          rw [hsplit] at hx
          exact hc rfl hs x (hsub x hx)
  · cases h
    exact hc

theorem lettered_restrict (hg : g.Lettered n) (h : restrict sources states pick g = .ok g') : g'.Lettered n := by
  intro row' hrow' c' hc'
  obtain ⟨⟨row, i⟩, hrow, hcells⟩ := exists_of_mem_mapM h hrow'
  obtain ⟨⟨c, j⟩, hc, hcell⟩ := exists_of_mem_mapM hcells hc'
  obtain ⟨names, -, hcell⟩ := bind_eq_ok.1 hcell
  obtain ⟨source, -, hcell⟩ := bind_eq_ok.1 hcell
  exact lettered_restrictCell hpick (hg row (of_mem_zip hrow).1 c (of_mem_zip hc).1) hcell

end Restrict

theorem lettered_lenient (hg : g.Lettered n) {action : String}
    (h : lenient g sources states action index agents = .ok g') : g'.Lettered n := by
  refine lettered_restrict (fun xs ys hpick y hy => ?_) hg h
  obtain ⟨place, -, hpick⟩ := bind_eq_ok.1 hpick
  exact ((mem_filterM hpick).1 hy).1

section Plans

variable {admits : Outcome Bool}

theorem lettered_lenientRules : ∀ {s : Strategy} {isFirst : Bool} {before : Names} {g g' : Matrix}
    {flag flag' : Option Bool}, g.Lettered n →
    lenientRules reader source m admits agents index isFirst s before g flag = .ok (g', flag') → g'.Lettered n
  | [], _, _, _, _, _, _, hg, h => by
    cases h
    exact hg
  | r :: s, isFirst, before, g, g', flag, flag', hg, h => by
    obtain ⟨report, -, h⟩ := bind_eq_ok.1 h
    obtain ⟨value, -, h⟩ := bind_eq_ok.1 h
    obtain ⟨b, -, h⟩ := bind_eq_ok.1 h
    cases b with
    | true =>
      obtain ⟨⟨states, action⟩, -, h⟩ := bind_eq_ok.1 h
      obtain ⟨g₁, hg₁, h⟩ := bind_eq_ok.1 h
      exact lettered_lenientRules (lettered_lenient hg hg₁) h
    | false => exact lettered_lenientRules hg h

theorem lettered_lenientPlans : ∀ {plans : List Plan} {index : Int} {g g' : Matrix} {flag flag' : Option Bool},
    g.Lettered n → lenientPlans reader source m admits agents index plans g flag = .ok (g', flag') → g'.Lettered n
  | [], _, _, _, _, _, hg, h => by
    cases h
    exact hg
  | p :: plans, index, g, g', flag, flag', hg, h => by
    obtain ⟨s, -, h⟩ := bind_eq_ok.1 h
    obtain ⟨⟨g₁, flag₁⟩, hrules, h⟩ := bind_eq_ok.1 h
    exact lettered_lenientPlans (lettered_lenientRules hg hrules) h

/-- A rule whose condition can be evaluated. -/
def Evaluated (reader : Logic) (source : String) (r : Rule) : Prop :=
  ∃ value, (check reader source r.condition >>= fun report => resultValue report.result) = .ok value

/-- When nothing is admitted, rules that can be evaluated leave the matrix. -/
theorem lenientRules_dear : ∀ {s : Strategy}, (∀ r ∈ s, Evaluated reader source r) →
    ∀ (isFirst : Bool) (before : Names) (g : Matrix) (flag : Option Bool),
      lenientRules reader source m (.ok false) agents index isFirst s before g flag =
        .ok (g, if s.isEmpty then flag else some false)
  | [], _, _, _, _, _ => rfl
  | r :: s, h, isFirst, before, g, flag => by
    obtain ⟨⟨value, hvalue⟩, hs⟩ := forall_mem_cons.1 h
    obtain ⟨report, hreport, hvalue⟩ := bind_eq_ok.1 hvalue
    rw [lenientRules, hreport]
    refine bind_eq_ok.2 ⟨report, rfl, bind_eq_ok.2 ⟨value, hvalue, bind_eq_ok.2 ⟨false, rfl, ?_⟩⟩⟩
    refine (lenientRules_dear hs false before g (some false)).trans ?_
    cases s <;> rfl

theorem lenientPlans_dear : ∀ {p : Profile}, (∀ s ∈ p, ∀ r ∈ s, Evaluated reader source r) →
    ∀ (index : Int) (g : Matrix) (flag : Option Bool),
      lenientPlans reader source m (.ok false) agents index (p.map some) g flag =
        .ok (g, if p.all isEmpty then flag else some false)
  | [], _, _, _, _ => rfl
  | s :: p, h, index, g, flag => by
    obtain ⟨hs, hp⟩ := forall_mem_cons.1 h
    refine bind_eq_ok.2 ⟨s, rfl, bind_eq_ok.2 ⟨_, lenientRules_dear hs true [] g flag, ?_⟩⟩
    refine (lenientPlans_dear hp (index + 1) g _).trans ?_
    cases s with
    | nil => rfl
    | cons r s => simp

theorem lenientPlans_unpriced : ∀ {p : Profile}, (∀ s ∈ p, ∀ r ∈ s, Evaluated reader source r) →
    p.all isEmpty = false → ∀ (index : Int) (g : Matrix) (flag : Option Bool),
      lenientPlans reader source m (.error f) agents index (p.map some) g flag = .error f
  | [] :: p, h, hne, index, g, flag => by
    exact lenientPlans_unpriced (forall_mem_cons.1 h).2 hne (index + 1) g flag
  | (r :: s) :: p, h, _, index, g, flag => by
    obtain ⟨value, hvalue⟩ := h _ mem_cons_self r mem_cons_self
    obtain ⟨report, hreport, hvalue⟩ := bind_eq_ok.1 hvalue
    have hrules : lenientRules reader source m (.error f) agents index true (r :: s) [] g flag = .error f := by
      rw [lenientRules, hreport]
      simp only [bind, Except.bind, hvalue]
    have hplan : Plan.rules (some (r :: s)) = .ok (r :: s) := rfl
    rw [map_cons, lenientPlans, hplan]
    simp only [bind, Except.bind, hrules]

end Plans

end Pruning

/-! ## Searches -/

/-- A profile that a search comes to: all that are offered before it are passed over. -/
def Examined (test : Int × Profile → Outcome (Option Finding)) (offered : List (Int × Profile)) (e : Int × Profile) :
    Prop :=
  ∃ before after, offered = before ++ e :: after ∧ ∀ e' ∈ before, test e' = .ok none

theorem not_examined_nil : ¬ Examined test [] e := by
  rintro ⟨before, after, h, -⟩
  simp at h

theorem examined_cons_iff {p : Int × Profile} :
    Examined test (p :: ps) e ↔ e = p ∨ test p = .ok none ∧ Examined test ps e := by
  constructor
  · rintro ⟨before, after, h, hbefore⟩
    cases before with
    | nil =>
      cases h
      exact .inl rfl
    | cons p' before =>
      cases h
      obtain ⟨hp, hbefore⟩ := forall_mem_cons.1 hbefore
      exact .inr ⟨hp, before, after, rfl, hbefore⟩
  · rintro (rfl | ⟨hp, before, after, rfl, hbefore⟩)
    · exact ⟨[], ps, rfl, by simp⟩
    · exact ⟨p :: before, after, rfl, forall_mem_cons.2 ⟨hp, hbefore⟩⟩

theorem reportFirst_eq_error_iff (ps : List (Int × Profile)) :
    reportFirst t test ps = .error f ↔ ∃ e, Examined test ps e ∧ test e = .error f := by
  induction ps with
  | nil =>
    simp only [not_examined_nil, false_and, exists_false, iff_false]
    intro h
    cases h
  | cons p ps ih =>
    simp only [examined_cons_iff, or_and_right, exists_or, exists_eq_left]
    unfold reportFirst at ih ⊢
    rw [firstAccepted]
    rcases htest : test p with f' | _ | finding
    · simp [bind, Except.bind]
    · simp only [true_and, reduceCtorEq, false_or, ← ih]
      rfl
    · simp [bind, Except.bind, pure, Except.pure]

/-! ## Profiles without memory -/

theorem Task.of_memoryless (h : memoryless source formula = .ok t) :
    load .plain source = .ok t.model ∧ (∃ actions, t.model.actions t.agents = .ok actions) ∧
      ∃ n, t.model.agentCount = .ok n ∧ t.model.checkMoves n = .ok () := by
  obtain ⟨m, hload, hstart⟩ := bind_eq_ok.1 h
  obtain ⟨rfl, -, -, -, hcheck, hactions⟩ := of_start hstart
  exact ⟨hload, hactions, bind_eq_ok.1 hcheck⟩

/-- What the degrees of a formula in a pruned model come to for a search. -/
def gradedAnswer (source : String) (t : Task) (g : Matrix) (e : Int × Profile) : Outcome (Option Finding) := do
  let (degrees, k) : Valuation Number × Kripke Number ←
    Branching.check (← withMatrix source (some g)) t.formula
  let degree ← degrees.get k.initial
  if !Degree.same degree Degree.one then return none
  return some { satisfied := .bool true, bound? := some e.1, profile? := some e.2,
                degrees? := some (← degreesText ⟨Degree.same degree Degree.one, degrees, k⟩) }

section Memoryless

variable (ht : Task.memoryless source formula = .ok t)

include ht

theorem gradedMatrix_eq (p : Profile) : Pruning.gradedMatrix reader source t.agents (p.map some) = (do
    let (g, flag) ← Pruning.lenientPlans reader source t.model (t.model.affordable p) t.agents 1 (p.map some)
      t.model.graph none
    return (g, ← orFault .unset flag)) := by
  obtain ⟨hload, ⟨actions, hactions⟩, -⟩ := Task.of_memoryless ht
  have hplans : (p.map some).map (fun plan : Plan => plan.getD []) = p := by simp
  unfold Pruning.gradedMatrix
  rw [hload]
  change (t.model.actions t.agents >>= _) = _
  rw [hactions, hplans]
  rfl

theorem gradedTest_eq (h : Pruning.gradedMatrix reader source t.agents (e.2.map some) = .ok (g, b)) :
    gradedTest reader source t e = if b then
        match g.emptyRow? with
        | some r => .error (.emptyRowAt r)
        | none => gradedAnswer source t g e
      else .ok none := by
  obtain ⟨hload, -, n, hcount, hcheck⟩ := Task.of_memoryless ht
  have hletters : g.Lettered n := by
    have hmatrix := h
    rw [gradedMatrix_eq ht] at hmatrix
    obtain ⟨⟨g, flag⟩, hplans, hmatrix⟩ := bind_eq_ok.1 hmatrix
    obtain ⟨b, -, hmatrix⟩ := bind_eq_ok.1 hmatrix
    cases hmatrix
    exact Pruning.lettered_lenientPlans (lettered_of_checkMoves hcheck) hplans
  have hmoves : ({ t.model with graph := g } : Model).checkMoves n = match g.emptyRow? with
      | some r => .error (.emptyRowAt r)
      | none => .ok () := checkMoves_eq hletters
  have hverdict : Pruning.gradedVerdict reader source t.agents t.formula (e.2.map some) = if b then (do
      ({ t.model with graph := g } : Model).checkMoves n
      let (degrees, k) : Valuation Number × Kripke Number ←
        Branching.check (← withMatrix source (some g)) t.formula
      let degree ← degrees.get k.initial
      return some ⟨Degree.same degree Degree.one, degrees, k⟩) else .ok none := by
    unfold Pruning.gradedVerdict
    rw [hload, h]
    cases b with
    | false => rfl
    | true =>
      simp only [bind, Except.bind, hcount, Bool.not_true, Bool.false_eq_true, if_false, if_true]
  unfold gradedTest
  rw [hverdict, hmoves]
  cases b with
  | false => rfl
  | true =>
    cases g.emptyRow? with
    | some r => rfl
    | none =>
      simp only [if_true, bind_assoc]
      exact pure_bind () _

theorem gradedTest_dear (hrules : ∀ s ∈ e.2, ∀ r ∈ s, Pruning.Evaluated reader source r)
    (hne : e.2.all isEmpty = false) (h : t.model.affordable e.2 = .ok false) :
    gradedTest reader source t e = .ok none := by
  have hmatrix : Pruning.gradedMatrix reader source t.agents (e.2.map some) = .ok (t.model.graph, false) := by
    rw [gradedMatrix_eq ht, h, Pruning.lenientPlans_dear hrules, hne]
    rfl
  rw [gradedTest_eq ht hmatrix]
  rfl

theorem gradedTest_unpriced (hrules : ∀ s ∈ e.2, ∀ r ∈ s, Pruning.Evaluated reader source r)
    (hne : e.2.all isEmpty = false) (h : t.model.affordable e.2 = .error f) :
    gradedTest reader source t e = .error f := by
  have hmatrix : Pruning.gradedMatrix reader source t.agents (e.2.map some) = .error f := by
    rw [gradedMatrix_eq ht, h, Pruning.lenientPlans_unpriced hrules hne]
    rfl
  obtain ⟨hload, -⟩ := Task.of_memoryless ht
  unfold gradedTest Pruning.gradedVerdict
  rw [hload, hmatrix]
  rfl

theorem exists_rule_of_offered {d : Draws}
    (hps : (offers t t.bound.toNat 1).outcome d = .ok ps) (he : e ∈ ps) : e.2.all isEmpty = false := by
  obtain ⟨m, -, hstart⟩ := bind_eq_ok.1 ht
  obtain ⟨levels, ps', d', -, hps', -, hmem⟩ := run_offers (Task.of_start hstart).2.2.2.1 t.bound.toNat 1 d
  cases hps.symm.trans (congrArg Prod.fst hps')
  obtain ⟨guards, -, hoffered⟩ := (hmem e.1 e.2).1 he
  obtain ⟨s, hs⟩ := exists_mem_of_ne_nil e.2 hoffered.nonempty
  obtain ⟨actions, -, hlisted⟩ := exists_of_mem_forall₂ hoffered.strategies hs
  rw [all_eq_false]
  exact ⟨s, hs, by simpa using hlisted.nonempty⟩

end Memoryless

/-! ## Profiles with recall -/

namespace Recall

open Step

variable {tree : Unfolding}

/-- The setting of a search by degrees: stories are met nowhere. -/
def gradedSetting (reader : Logic) (source : String) : Setting := ⟨reader, source, some []⟩

/-- What the degrees in a pruned tree come to for a search, which takes for granted that there are some. -/
def gradedFinding {M : Type → Type} [Monad M] [MonadLiftT Outcome M] (e : Int × Profile)
    (g? : Option (Pruning.Graded Number)) : M (Option Finding) := do
  let g ← orFault .shape g?
  if !g.holds then return none
  return some { satisfied := .bool true, bound? := some e.1, profile? := some e.2, degrees? := some (← degreesText g) }

/-- What a search by degrees with recall makes of a profile. -/
def gradedTest (reader : Logic) (source : String) (t : Task) (tree : Unfolding) (e : Int × Profile) :
    Outcome (Option Finding) :=
  ((gradedVerdict (gradedSetting reader source) 4 t.formula (e.2.map some)).run.run ⟨t.model, tree⟩).1 >>=
    gradedFinding e

/-- The degrees in a pruned tree are found without reading another model. -/
theorem keeps_gradedVerdict {set : Setting} (hload : load .plain set.source = .ok m) (height : Int)
    (formula : String) (plans : List Plan) :
    Keeps (· = m) (fun _ => True) (gradedVerdict set height formula plans) := by
  have hwithin : Keeps (· = m) (fun _ => True) (withinResource plans) := keeps_get_bind fun _ => respects_ofOutcome _
  have hrenamed : Keeps (· = m) (fun _ => True) (modify fun s => { s with tree := s.tree.renamed } : Step PUnit) :=
    fun s s' h => ⟨rfl, h.1, h.2.1, congrArg Unfolding.renamed h.2.2.1, trivial⟩
  have htext : Keeps (· = m) (fun _ => True) (prunedText set height) :=
    hrenamed.bind fun _ => keeps_get_bind fun _ => keeps_get_bind fun _ => (respects_ofOutcome _).bind fun _ =>
      (respects_ofOutcome _).bind fun _ => respects_ofOutcome _
  refine (keeps_applyPlans (M := (· = m)) hload rfl stable_any hwithin height 1 plans false).bind fun admitted => ?_
  split
  · exact respects_pure _
  · exact htext.bind fun text => (respects_ofOutcome _).bind fun checked => (respects_ofOutcome _).bind fun degree =>
      respects_pure _

section Find

open Searching

def gradedAttempt (reader : Logic) (source : String) (t : Task) (tree : Unfolding) (i : Int) (p : Profile) :
    Searching (Option Finding) := do
  let (g?, _) ← onTree tree (gradedVerdict (gradedSetting reader source) 4 t.formula (p.map some))
  gradedFinding (i, p) g?

theorem findGraded_eq (reader : Logic) (source formula : String) : findGraded reader source formula =
    (do
      let t ← task source formula
      search t 4 (gradedAttempt reader source t) : Searching Finding).run' {} := rfl

theorem follows_gradedAttempt (hload : load .plain source = .ok t.model) (reader : Logic) (tree : Unfolding) (i : Int)
    (p : Profile) : Follows (· = t.model)
      (gradedAttempt reader source t tree i p) (liftM (gradedTest reader source t tree (i, p))) := by
  have hset : load .plain (gradedSetting reader source).source = .ok t.model := hload
  have hrun := follows_onTree tree (keeps_gradedVerdict hset 4 t.formula (p.map some))
  unfold gradedAttempt gradedTest
  generalize (gradedVerdict (gradedSetting reader source) 4 t.formula (p.map some)).run.run ⟨t.model, tree⟩ = r
    at hrun ⊢
  have hbind : r.1 >>= gradedFinding (i, p) =
      (r.1.map fun g? => (g?, r.2.tree)) >>= fun a => gradedFinding (i, p) a.1 := by
    cases r.1 <;> rfl
  rw [hbind]
  refine hrun.bind_lift fun a _ => (follows_outcome (orFault .shape a.1)).bind_lift fun g _ => ?_
  cases g.holds with
  | false =>
    exact follows_pure none
  | true =>
    exact (follows_outcome (degreesText g)).bind_lift fun text _ => follows_pure _

variable (ht : Task.withRecall source formula = .ok t) (htree : Unfolding.ofModel t.model t.model.states 4 = .ok tree)
  (reader : Logic)

include ht htree

/-- A search by degrees with recall reports the first profile offered up to the bound that has degree one. -/
theorem outcome_findGraded (d : Draws) : ∃ ps, (offeredFrom (offersAt t) t.bound.toNat 1).outcome d = .ok ps ∧
    (findGraded reader source formula).outcome d = reportFirst t (gradedTest reader source t tree) ps := by
  obtain ⟨hload, hactions⟩ := Task.load_of_withRecall ht
  obtain ⟨ps, d', hps, hsearch⟩ := outcome_searchOffered t (gives_offersAt hactions) (gradedTest reader source t tree) d
  have hfollows := follows_search htree (follows_gradedAttempt hload reader tree)
  refine ⟨ps, congrArg Prod.fst hps, ?_⟩
  rw [← hsearch, ← hfollows.outcome rfl, findGraded_eq, outcome_run',
    bind_ok (run_task_withRecall ht {} d), outcome_run']

end Find

/-! ## Refused profiles -/

theorem gradedTest_refused
    (h : (applyPlans (gradedSetting reader source) (withinResource (e.2.map some)) 4 1 (e.2.map some) false).run.run ⟨t.model, tree⟩ = (.ok false, s)) :
    gradedTest reader source t tree e = .error .shape := by
  unfold gradedTest gradedVerdict
  rw [run_bind_ok h]
  rfl

theorem gradedTest_inadmissible (hload : load .plain source = .ok t.model) {r : Rule} {rules : Strategy}
    {rest : Profile} (he : e.2 = (r :: rules) :: rest)
    (hplays : (isLegitimate (gradedSetting reader source) r.condition r.action 1).run.run ⟨t.model, tree⟩ = (.ok b, s))
    (h : b = false ∨ t.model.affordable e.2 = .ok false) : gradedTest reader source t tree e = .error .shape := by
  have hset : load .plain (gradedSetting reader source).source = .ok t.model := hload
  have hkeeps : Keeps (· = t.model) (fun _ => True) (isLegitimate (gradedSetting reader source) r.condition r.action 1) :=
    respects_isLegitimate (by rw [read_of_load hset]) (stable_any.simulates 1) _ _
  have hmodel : s.model = t.model := (hkeeps.apply rfl trivial hplays).1
  have hplans : (e.2.map some).map (fun plan : Plan => plan.getD []) = e.2 := by simp
  have hwithin : (withinResource (e.2.map some)).run.run s = (t.model.affordable e.2, s) := by
    unfold withinResource
    rw [run_bind_ok (run_get s), hmodel, hplans]
    rfl
  have hrules : (applyRules (gradedSetting reader source) (withinResource (e.2.map some)) 4 1 (r :: rules)
      false).run.run ⟨t.model, tree⟩ = (.ok none, s) := by
    rw [applyRules, run_bind_ok hplays]
    cases b with
    | false => rfl
    | true =>
      rw [h.resolve_left (by simp)] at hwithin
      exact run_bind_ok hwithin
  refine gradedTest_refused (s := s) ?_
  have hplan : (ofOutcome (Plan.rules (some (r :: rules)))).run.run ⟨t.model, tree⟩ =
      (.ok (r :: rules), ⟨t.model, tree⟩) := rfl
  generalize withinResource (e.2.map some) = within at hrules ⊢
  rw [he, map_cons, applyPlans, run_bind_ok hplan, run_bind_ok hrules]
  rfl

end Recall

/-! ## Two models -/

/-- The text of a model in which one action can be played in each state. -/
def deadEndLayout : Layout where
  front := []
  rows := ["0 A", "B 0"]
  unknown := []
  names := ["s0 s1"]
  middle := ["s0", "Resource", "5", "Actions_Costs_from_Transition", "0 1", "1 0", "Atomic_propositions", "p"]
  labels := ["0", "1"]
  back := ["1"]

def deadEnd : Model where
  graph := [[.zero, .text "A"], [.text "B", .zero]]
  states := ["s0", "s1"]
  props := ["p"]
  labels := [[.num 0], [.num 1]]
  initial := "s0"
  agents := .number 1
  resource := 5
  actionCosts := [["0", "1"], ["1", "0"]]

theorem deadEnd_load : load .plain deadEndLayout.text = .ok deadEnd := load_join (by decide) (by decide)

def deadEndTask : Task := ⟨deadEnd, "AFp", 1, [1], [("actions_agent1", ["A", "B"])]⟩

theorem actions_deadEnd : deadEnd.actions [1] = .ok [("agent1", ["A", "B"])] :=
  actions_eq (by decide)

theorem memoryless_deadEnd : Task.memoryless deadEndLayout.text "<\x7b1\x7d,1>Fp" = .ok deadEndTask :=
  bind_eq_ok.2 ⟨deadEnd, deadEnd_load, Task.start_eq (by decide) actions_deadEnd (by decide)⟩

theorem offers_deadEnd : (offers deadEndTask deadEndTask.bound.toNat 1).outcome {} =
    .ok [(1, [[⟨"p", "A"⟩]]), (1, [[⟨"p", "A"⟩]]), (1, [[⟨"p", "B"⟩]])] :=
  by decide +kernel

theorem check_deadEnd : check .ctl deadEndLayout.text "p" =
    .ok ⟨"Result: \x7b's1'\x7d", some "Initial state s0: False"⟩ :=
  (check_of_load deadEnd_load (by decide)).trans (by decide +kernel)

theorem gradedMatrix_deadEnd : Pruning.gradedMatrix .ctl deadEndLayout.text deadEndTask.agents
    ([[⟨"p", "A"⟩]].map some) = .ok ([[.zero, .text "A"], [.zero, .zero]], true) := by
  have hholds : ∀ rules ∈ [[(⟨"p", "A"⟩ : Rule)]], ∀ r ∈ rules, Pruning.HoldsIn .ctl deadEndLayout.text r ["s1"] :=
    forall_mem_singleton.2 (forall_mem_singleton.2 ⟨by decide, _, check_deadEnd, Recall.names_s1⟩)
  have hwithin : deadEnd.affordable [[⟨"p", "A"⟩]] = .ok true := by decide
  exact Pruning.gradedMatrix_eq deadEnd_load ⟨_, actions_deadEnd⟩ (by decide) (by decide) (fun _ => ["s1"]) hholds hwithin
    ⟨_, mem_singleton_self _, cons_ne_nil _ _⟩ (by decide)

namespace Recall

def detourTask : Task := ⟨detour, "AF!p", 1, [1], [("actions_agent1", ["A", "B"])]⟩

theorem withRecall_detour : Task.withRecall detourLayout.text "<\x7b1\x7d,1>F!p" = .ok detourTask :=
  bind_eq_ok.2 ⟨detour, detour_load, Task.start_eq (by decide) actions_detour (by decide)⟩

theorem offers_detour : (offeredFrom (offersAt detourTask) detourTask.bound.toNat 1).outcome {} =
    .ok [(1, [[⟨"p", "A"⟩]]), (1, [[⟨"p", "B"⟩]])] :=
  by decide +kernel

theorem exists_unfold_detour : ∃ tree, Unfolding.ofModel detour detour.states 4 = .ok tree ∧
    (isLegitimate (gradedSetting .guard detourLayout.text) "p" "A" 1).run.run ⟨detour, tree⟩ =
      (.ok false, ⟨detour, tree⟩) := by
  obtain ⟨tree, htree, hadmits⟩ : ∃ t, Unfolding.ofModel detour detour.states 4 = .ok t ∧
      t.admits ["s0"] 1 "A" = .ok false := by decide +kernel
  have hreport : checkModel .guard detour "p" =
      .ok ⟨"Result: \x7b's0'\x7d", some "Initial state s0: True"⟩ := by decide +kernel
  have hload : load .plain (gradedSetting .guard detourLayout.text).source = .ok detour := detour_load
  refine ⟨tree, htree, ?_⟩
  rw [run_isLegitimate hload (by decide) (run_statesWhere hload (by decide) hreport names_s0), if_neg (by decide),
    hadmits]

end Recall

/-! ## Fates -/

/-- What a search by degrees without memory makes of a profile. Beyond the resource it is passed over; if its price
cannot be told, or it leaves a row without transitions, it fails. -/
structure GradedFate (reader : Logic) (source : String) (t : Task) (e : Int × Profile) : Prop where
  dear : t.model.affordable e.2 = .ok false → gradedTest reader source t e = .ok none
  unpriced : ∀ f, t.model.affordable e.2 = .error f → gradedTest reader source t e = .error f
  emptied : ∀ g r, Pruning.gradedMatrix reader source t.agents (e.2.map some) = .ok (g, true) →
    g.emptyRow? = some r → gradedTest reader source t e = .error (.emptyRowAt r)
  intact : ∀ g, Pruning.gradedMatrix reader source t.agents (e.2.map some) = .ok (g, true) →
    g.emptyRow? = none → gradedTest reader source t e = gradedAnswer source t g e

/-- What a search by degrees with recall makes of a profile that is not admitted: it fails, be it that the agent cannot
play a rule or that the profile is beyond the resource. -/
structure Recall.GradedFate (reader : Logic) (source : String) (t : Task) (tree : Unfolding)
    (e : Int × Profile) : Prop where
  refused : ∀ s, (applyPlans (gradedSetting reader source) (withinResource (e.2.map some)) 4 1 (e.2.map some)
    false).run.run ⟨t.model, tree⟩ = (.ok false, s) → gradedTest reader source t tree e = .error .shape
  first : ∀ r rules rest b s, e.2 = (r :: rules) :: rest →
    (isLegitimate (gradedSetting reader source) r.condition r.action 1).run.run ⟨t.model, tree⟩ = (.ok b, s) →
    b = false ∨ t.model.affordable e.2 = .ok false → gradedTest reader source t tree e = .error .shape

/-- A search by degrees fails just if it comes to a profile whose test fails, all earlier ones having been passed over.
Without memory this happens with a profile that leaves a row without transitions, while one beyond the resource is
passed over; with recall it happens with every profile that is not admitted. -/
theorem findGraded_error_iff (reader : Formula.Logic) (source formula : String) :
    (∀ t, Task.memoryless source formula = .ok t → ∀ d, ∃ ps, (offers t t.bound.toNat 1).outcome d = .ok ps ∧
      (∀ f, (findGraded reader source formula).outcome d = .error f ↔
        ∃ e, Examined (gradedTest reader source t) ps e ∧ gradedTest reader source t e = .error f) ∧
      ∀ e ∈ ps, (∀ s ∈ e.2, ∀ r ∈ s, Pruning.Evaluated reader source r) → GradedFate reader source t e) ∧
    ∀ t tree, Task.withRecall source formula = .ok t → Unfolding.ofModel t.model t.model.states 4 = .ok tree → ∀ d,
      ∃ ps, (offeredFrom (Recall.offersAt t) t.bound.toNat 1).outcome d = .ok ps ∧
        (∀ f, (Recall.findGraded reader source formula).outcome d = .error f ↔
          ∃ e, Examined (Recall.gradedTest reader source t tree) ps e ∧
            Recall.gradedTest reader source t tree e = .error f) ∧
        ∀ e, Recall.GradedFate reader source t tree e := by
  constructor
  · intro t ht d
    obtain ⟨m, -, hstart⟩ := bind_eq_ok.1 ht
    obtain ⟨ps, d', hps, hfind⟩ := outcome_searchMemoryless (Task.length_actions hstart)
      (fun i p => gradedTest reader source t (i, p)) d
    have hps := congrArg Prod.fst hps
    refine ⟨ps, hps, fun f => ?_, fun e he hrules => ?_⟩
    · rw [outcome_findGraded_eq ht, hfind]
      exact reportFirst_eq_error_iff ps
    · have hne := exists_rule_of_offered ht hps he
      refine ⟨gradedTest_dear ht hrules hne, fun f => gradedTest_unpriced ht hrules hne, fun g r hg hr => ?_,
        fun g hg hr => ?_⟩
      · rw [gradedTest_eq ht hg, hr]
        rfl
      · rw [gradedTest_eq ht hg, hr]
        rfl
  · intro t tree ht htree d
    obtain ⟨ps, hps, hfind⟩ := Recall.outcome_findGraded ht htree reader d
    refine ⟨ps, hps, fun f => ?_, fun e => ⟨fun s => Recall.gradedTest_refused, fun r rules rest b s he hplays h => ?_⟩⟩
    · rw [hfind]
      exact reportFirst_eq_error_iff ps
    · exact Recall.gradedTest_inadmissible (Task.load_of_withRecall ht).1 he hplays h

/-- A profile that leaves a row without transitions fails without memory; a rule that cannot be played fails with
recall. -/
theorem findGraded_fates : Task.memoryless deadEndLayout.text "<\x7b1\x7d,1>Fp" = .ok deadEndTask ∧
    gradedTest .ctl deadEndLayout.text deadEndTask (1, [[⟨"p", "A"⟩]]) = .error (.emptyRowAt 1) ∧
    Task.withRecall Recall.detourLayout.text "<\x7b1\x7d,1>F!p" = .ok Recall.detourTask ∧
    ∃ tree, Unfolding.ofModel Recall.detour Recall.detour.states 4 = .ok tree ∧
      Recall.gradedTest .guard Recall.detourLayout.text Recall.detourTask tree (1, [[⟨"p", "A"⟩]]) = .error .shape := by
  refine ⟨memoryless_deadEnd, ?_, Recall.withRecall_detour, ?_⟩
  · obtain ⟨ps, hps, -, hfate⟩ := (findGraded_error_iff .ctl deadEndLayout.text _).1 _ memoryless_deadEnd {}
    cases offers_deadEnd.symm.trans hps
    obtain ⟨value, hvalue, -⟩ := bind_eq_ok.1 Recall.names_s1
    refine (hfate (1, [[⟨"p", "A"⟩]]) mem_cons_self ?_).emptied _ 1 gradedMatrix_deadEnd (by decide)
    intro s hs r hr
    obtain rfl : s = [⟨"p", "A"⟩] := by simpa using hs
    obtain rfl : r = ⟨"p", "A"⟩ := by simpa using hr
    exact ⟨value, bind_eq_ok.2 ⟨_, check_deadEnd, hvalue⟩⟩
  · obtain ⟨tree, htree, hplays⟩ := Recall.exists_unfold_detour
    obtain ⟨ps, -, -, hfate⟩ := (findGraded_error_iff .guard Recall.detourLayout.text _).2 _ tree
      Recall.withRecall_detour htree {}
    exact ⟨tree, htree, (hfate (1, [[⟨"p", "A"⟩]])).first _ [] [] false _ rfl hplays (.inl rfl)⟩

/-- In both searches a profile is offered behind one that cannot be used, but the searches fail and do not come to
it. -/
theorem findGraded_fails : ∃ ps ps',
    (offers deadEndTask deadEndTask.bound.toNat 1).outcome {} = .ok ps ∧ (1, [[⟨"p", "B"⟩]]) ∈ ps ∧
    (findGraded .ctl deadEndLayout.text "<\x7b1\x7d,1>Fp").outcome {} = .error (.emptyRowAt 1) ∧
    (offeredFrom (Recall.offersAt Recall.detourTask) Recall.detourTask.bound.toNat 1).outcome {} = .ok ps' ∧
    (1, [[⟨"p", "B"⟩]]) ∈ ps' ∧
    (Recall.findGraded .guard Recall.detourLayout.text "<\x7b1\x7d,1>F!p").outcome {} = .error .shape := by
  refine ⟨_, _, offers_deadEnd, by decide, ?_, Recall.offers_detour, by decide, ?_⟩
  · obtain ⟨m, -, hstart⟩ := bind_eq_ok.1 memoryless_deadEnd
    obtain ⟨ps, d', hps, hfind⟩ := outcome_searchMemoryless (Task.length_actions hstart)
      (fun i p => gradedTest .ctl deadEndLayout.text deadEndTask (i, p)) {}
    cases offers_deadEnd.symm.trans (congrArg Prod.fst hps)
    rw [outcome_findGraded_eq memoryless_deadEnd, hfind]
    refine (reportFirst_eq_error_iff _).2 ⟨(1, [[⟨"p", "A"⟩]]), examined_cons_iff.2 (.inl rfl), ?_⟩
    have hempty : Matrix.emptyRow? [[.zero, .text "A"], [.zero, .zero]] = some 1 := by decide
    have htest := gradedTest_eq (e := (1, [[⟨"p", "A"⟩]])) memoryless_deadEnd gradedMatrix_deadEnd
    rw [hempty] at htest
    exact htest
  · obtain ⟨tree, htree, hplays⟩ := Recall.exists_unfold_detour
    obtain ⟨ps, hps, hfind⟩ := Recall.outcome_findGraded Recall.withRecall_detour htree .guard {}
    cases Recall.offers_detour.symm.trans hps
    rw [hfind]
    refine (reportFirst_eq_error_iff _).2 ⟨_, examined_cons_iff.2 (.inl rfl), ?_⟩
    exact Recall.gradedTest_inadmissible Recall.detour_load rfl hplays (.inl rfl)

end Natural

end Arena
