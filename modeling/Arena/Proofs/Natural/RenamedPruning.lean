/-
Pruning a model whose states have other names. Firm pruning knows the rows of the matrix by default names, the states of
a condition and the rows that a rule empties by their own names, and accepts the initial state `s0` only. So in a
renamed model a rule applies in a row if it applied in the state whose new name is the default name of the row.
-/
import Arena.Proofs.Checker.Renaming
import Arena.Proofs.Natural.Prefilter
import Mathlib.Data.List.Find

namespace Arena

open Model Text List

variable {S : Names} {f : String → String} {m : Model} {source source' : String}

/-! ## Runs side by side -/

/-- Two computations that both fail, or both succeed with related values. -/
inductive Parallel {α β : Type} (R : α → β → Prop) : Outcome α → Outcome β → Prop
  | ok {a : α} {b : β} (h : R a b) : Parallel R (.ok a) (.ok b)
  | error (e e' : Fault) : Parallel R (.error e) (.error e')

section Parallel

variable {α β γ δ : Type} {R : α → β → Prop} {S : γ → δ → Prop}

theorem Agree.parallel {x : Outcome α} {y : Outcome β} (h : Agree R x y) : Parallel R x y := by
  cases h with
  | ok h => exact .ok h
  | error e => exact .error e e

theorem parallel_refl (x : Outcome α) : Parallel Eq x x := ((agree_refl x).mono fun _ _ h => h.1).parallel

theorem Parallel.bind {x : Outcome α} {y : Outcome β} {k : α → Outcome γ} {k' : β → Outcome δ} (h : Parallel R x y)
    (hk : ∀ a b, x = .ok a → y = .ok b → R a b → Parallel S (k a) (k' b)) : Parallel S (x >>= k) (y >>= k') := by
  cases h with
  | ok h => exact hk _ _ rfl rfl h
  | error e e' => exact .error e e'

theorem Parallel.mono {R' : α → β → Prop} {x : Outcome α} {y : Outcome β} (h : Parallel R x y)
    (hR : ∀ a b, R a b → R' a b) : Parallel R' x y := by
  cases h with
  | ok h => exact .ok (hR _ _ h)
  | error e e' => exact .error e e'

theorem Parallel.join {S : α → δ → Prop} {x : Outcome α} {y : Outcome β} {z : Outcome δ} (h : Parallel R x y)
    (h' : Parallel S x z) : Parallel (fun b d => ∃ a, R a b ∧ S a d) y z := by
  cases h with
  | ok h =>
    cases h' with
    | ok h' => exact .ok ⟨_, h, h'⟩
  | error e e' =>
    cases h' with
    | error _ e'' => exact .error e' e''

/-- It is enough that the first succeeds with the second, and the second with the first and a related value. -/
theorem parallel_of_imp {x : Outcome α} {y : Outcome β} (h : ∀ a, x = .ok a → ∃ b, y = .ok b ∧ R a b)
    (hback : ∀ b, y = .ok b → ∃ a, x = .ok a) : Parallel R x y := by
  cases x with
  | ok a =>
    obtain ⟨b, rfl, hR⟩ := h a rfl
    exact .ok hR
  | error e =>
    cases y with
    | error e' => exact .error e e'
    | ok b =>
      obtain ⟨a, ha⟩ := hback b rfl
      cases ha

end Parallel

/-- Two lists of which the second has the images of the first have something left by tests that agree, or both have
nothing left. -/
theorem parallel_filterM {α : Type} {f : α → α} {xs ys : List α} (hmem : ∀ y, y ∈ ys ↔ ∃ x ∈ xs, f x = y)
    {p q : α → Outcome Bool} (hpq : ∀ x ∈ xs, q (f x) = p x) :
    Parallel (fun a b => a.isEmpty = b.isEmpty) (xs.filterM p) (ys.filterM q) := by
  have hall : ∀ {P Q : α → Prop}, (∀ x ∈ xs, P x ↔ Q (f x)) → ((∀ x ∈ xs, P x) ↔ ∀ y ∈ ys, Q y) := by
    intro P Q hPQ
    constructor
    · intro h y hy
      obtain ⟨x, hx, rfl⟩ := (hmem y).1 hy
      exact (hPQ x hx).1 (h x hx)
    · exact fun h x hx => (hPQ x hx).2 (h (f x) ((hmem _).2 ⟨x, hx, rfl⟩))
  have hq : (∀ x ∈ xs, ∃ b, p x = .ok b) ↔ ∀ y ∈ ys, ∃ b, q y = .ok b := hall fun x hx => by rw [hpq x hx]
  refine parallel_of_imp (fun a ha => ?_) fun b hb => ?_
  · obtain ⟨b, hb, hmemb⟩ := exists_filterM (hq.1 (ok_of_filterM ha))
    refine ⟨b, hb, ?_⟩
    rw [Bool.eq_iff_iff, List.isEmpty_iff, List.isEmpty_iff, eq_nil_iff_forall_not_mem,
      eq_nil_iff_forall_not_mem]
    simp only [mem_filterM ha, hmemb, not_and]
    exact hall fun x hx => by rw [hpq x hx]
  · exact (exists_filterM (hq.2 (ok_of_filterM hb))).imp fun _ h => h.1

/-! ## Checks of the conditions -/

namespace Checker.Branching

/-- The states and the initial state of a model get new names, one to one, and the sets of all states are not taken for
formulas. -/
structure Renaming (f : String → String) (m : Model) : Prop where
  inj : Set.InjOn f {q | q ∈ m.initial :: m.states}
  quiet : Unary.of? m.stateSet.print = none
  quiet' : Unary.of? (m.rename f).stateSet.print = none

section Check

variable (h : Renaming f m)

include h

theorem parallel_checkModel (formula : String) :
    Parallel (SameReport f m) (checkModel .ctl m formula) (checkModel .ctl (m.rename f) formula) :=
  (agree_checkModel (inj_states h.inj) h.quiet' formula).elim Agree.parallel fun hno => absurd h.quiet hno.1

variable (hload : load .plain source = .ok m) (hload' : load .plain source' = .ok (m.rename f))

include hload hload' in
theorem parallel_check (formula : String) :
    Parallel (SameReport f m) (check .ctl source formula) (check .ctl source' formula) := by
  unfold check
  by_cases hblank : isBlankFormula formula = true
  · rw [if_pos hblank, if_pos hblank]
    exact .ok (.inl ⟨_, rfl, rfl⟩)
  · rw [if_neg hblank, if_neg hblank, hload, hload']
    exact parallel_checkModel h formula

end Check

end Checker.Branching

namespace Natural.Pruning

open Checker Checker.Branching Report

theorem namesOf?_solved (m : Model) (hS : S.Nodup) :
    (resultValue? (solved m S.print).result).bind namesOf? = some (sorted S) := by
  have hcut : cut? ": " ("Result: " ++ S.print) = some ("Result", S.print) := by
    rw [cut?, String.toList_append]
    change some (_, String.ofList S.print.toList) = _
    rw [String.ofList_toList]
    rfl
  have hnames : namesOf? (.set ((sorted S).map Datum.text)) = some (sorted S) := by
    rw [namesOf?, mapM_map]
    exact mapM_pure.trans (congrArg some (map_id _))
  have hread := congrArg Except.toOption (Names.readDatum_print hS).2
  rw [apply_ite Except.toOption] at hread
  unfold resultValue?
  rw [solved, hcut, ← hnames]
  exact congrArg (Option.bind · namesOf?) hread

theorem namesOf?_message {formula s : String} (h : check .ctl source formula = .ok (.message s)) :
    (resultValue? s).bind namesOf? = none := by
  have hmessages : ∀ s ∈ ["Error: formula non inserita", "Errore di sintassi nella formula",
      "Errore di sintassi: l'atomo non esiste"], (resultValue? s).bind namesOf? = none := by
    decide
  refine hmessages s ?_
  have hmessage : ∀ {t : String}, message t = .message s → s = t := fun he => (congrArg result he).symm
  unfold check at h
  split at h
  · rw [hmessage (Except.ok.inj h)]
    simp
  obtain ⟨m, -, h⟩ := bind_eq_ok.1 h
  obtain ⟨g?, -, h⟩ := bind_eq_ok.1 h
  cases g? with
  | none =>
    rw [hmessage (Except.ok.inj h)]
    simp
  | some g =>
    obtain ⟨t?, -, h⟩ := bind_eq_ok.1 h
    cases t? with
    | none =>
      rw [hmessage (Except.ok.inj h)]
      simp
    | some t =>
      -- a result comes with a line on the initial state
      obtain ⟨x, -, h⟩ := bind_eq_ok.1 h
      have hline := congrArg initial? (Except.ok.inj h)
      simp [solved, message] at hline

/-- Scopes of which the second has the new names of the states of the first. -/
inductive SameScope (f : String → String) (m : Model) : Scope → Scope → Prop
  | everywhere : SameScope f m .everywhere .everywhere
  | states {condition : String} {S S' : Names} (h : Renames f m.states S S') :
      SameScope f m (.where_ condition S) (.where_ condition S')

theorem SameScope.renames {scope scope' : Scope} (h : SameScope f m scope scope') :
    Renames f m.states (scope.states m) (scope'.states (m.rename f)) := by
  cases h with
  | everywhere => exact renames_stateSet
  | states h => exact h

section Scopes

variable (h : Renaming f m) (hload : load .plain source = .ok m) (hload' : load .plain source' = .ok (m.rename f))

include h hload hload'

theorem parallel_scopeOf (condition : String) :
    Parallel (Option.Rel (SameScope f m)) (scopeOf .ctl source condition) (scopeOf .ctl source' condition) := by
  unfold scopeOf
  split
  · exact .ok (.some .everywhere)
  · refine (parallel_check h hload hload' _).bind fun report report' hcheck _ hreport => ?_
    rcases hreport with ⟨s, rfl, rfl⟩ | ⟨S, S', hS, rfl, rfl⟩
    · have hnone : (resultValue? (message s).result).bind namesOf? = none := namesOf?_message hcheck
      rw [hnone]
      exact .ok .none
    · rw [namesOf?_solved m hS.nodup, namesOf?_solved (m.rename f) hS.nodup']
      exact .ok (.some (.states hS.sorted))

end Scopes

/-! ## Rows -/

/-- The states whose rules apply in the cells of a matrix, if the default names of the rows are new names of states. -/
def rowNames (f : String → String) (m : Model) : SourceNames :=
  (sourceNames m.graph).map (map (·.bind fun s => m.states.find? (f · == s)))

section Rows

variable (hf : ∀ q ∈ m.states, ∀ r ∈ m.states, f q = f r → q = r) {S S' : Names} (hS : Renames f m.states S S')

include hf hS

theorem restrictCell_rename (pick : List Move → Outcome (List Move)) (source : Option String) (cell : Cell) :
    restrictCell S pick (source.bind fun s => m.states.find? (f · == s)) cell = restrictCell S' pick source cell := by
  rcases source with _ | s
  · rfl
  · rw [Option.bind_some]
    cases hfind : m.states.find? (f · == s) with
    | some q =>
      have hq := mem_of_find?_eq_some hfind
      have he := find?_some hfind
      obtain rfl : f q = s := eq_of_beq he
      cases cell with
      | num n => rfl
      | text t => simp only [restrictCell, hS.contains hf hq]
    | none =>
      have hout : S'.contains s = false := by
        rw [Bool.eq_false_iff, ne_eq, contains_iff_mem, hS.mem]
        rintro ⟨q, hq, rfl⟩
        exact absurd BEq.rfl (find?_eq_none.1 hfind q (hS.inside q hq))
      cases cell with
      | num n => rfl
      | text t =>
        simp only [restrictCell, hout, Bool.not_false, Bool.or_true]
        rfl

theorem restrict_rename (pick : List Move → Outcome (List Move)) (g : Matrix) :
    restrict (rowNames f m) S pick g = restrict (sourceNames m.graph) S' pick g := by
  unfold restrict rowNames
  congr 1
  funext ⟨row, i⟩
  simp only
  congr 1
  funext ⟨cell, j⟩
  simp only [nth_map]
  cases nth (sourceNames m.graph) i with
  | error e => rfl
  | ok names =>
    change (nth (names.map _) j >>= _) = (nth names j >>= _)
    rw [nth_map]
    cases nth names j with
    | error e => rfl
    | ok source => exact restrictCell_rename hf hS pick source cell

omit hS in
theorem rowOf?_rename {q : String} (hq : q ∈ m.states) : rowOf? (rowsOf (m.rename f)) (f q) = rowOf? (rowsOf m) q := by
  have hrows : rowsOf (m.rename f) = (rowsOf m).map (Prod.map f id) := by
    unfold rowsOf
    change ((m.states.map f).zip (List.range (m.states.map f).length)).map _ = _
    rw [length_map, zip_map_left, map_map, map_map]
    rfl
  have hmem : ∀ e ∈ (rowsOf m).reverse, e.1 ∈ m.states := by
    intro e he
    obtain ⟨⟨q, i⟩, hqi, rfl⟩ := mem_map.1 (mem_reverse.1 he)
    exact (of_mem_zip hqi).1
  unfold rowOf?
  rw [hrows, ← map_reverse, find?_map]
  have hfind : (rowsOf m).reverse.find? ((fun e : String × Int => e.1 == f q) ∘ Prod.map f id) =
      (rowsOf m).reverse.find? (fun e => e.1 == q) := by
    refine find?_congr fun e he => ?_
    rw [Bool.eq_iff_iff]
    simp only [Function.comp_apply, beq_iff_eq]
    exact ⟨hf e.1 (hmem e he) q hq, congrArg f⟩
  rw [hfind]
  cases (rowsOf m).reverse.find? (fun e => e.1 == q) <;> rfl

theorem parallel_firm (g : Matrix) (action : String) (index : Int) (agents : List Int) :
    Parallel (fun r r' => r.1 = r'.1 ∧ r.2.isEmpty = r'.2.isEmpty)
      (firm g (rowNames f m) S action index agents (rowsOf m))
      (firm g (sourceNames m.graph) S' action index agents (rowsOf (m.rename f))) := by
  refine (parallel_refl _).bind ?_
  rintro place _ - - rfl
  simp only [restrict_rename hf hS]
  refine (parallel_refl _).bind ?_
  rintro g' _ - - rfl
  refine (parallel_filterM (f := f) hS.mem fun q hq => ?_).bind fun emptied emptied' _ _ he => .ok ⟨rfl, he⟩
  rw [rowOf?_rename hf (hS.inside q hq)]

end Rows

/-! ## Rules -/

/-- The same matrix is left, or the strategies are refused both times. -/
inductive SamePruned : Pruned → Pruned → Prop
  | ok (g : Matrix) : SamePruned (.ok g) (.ok g)
  | error (reason reason' : String) : SamePruned (.error reason) (.error reason')

section Rules

variable (h : Renaming f m) (hload : load .plain source = .ok m) (hload' : load .plain source' = .ok (m.rename f))
  (agents : List Int)

include h hload hload'

theorem parallel_firmRules (index : Int) : ∀ (rules : Strategy) {covered covered' : Names} (g : Matrix),
    Renames f m.states covered covered' →
    Parallel SamePruned (firmRules .ctl source m (rowNames f m) agents index rules covered g)
      (firmRules .ctl source' (m.rename f) (sourceNames m.graph) agents index rules covered' g)
  | [], _, _, g, _ => .ok (.ok g)
  | r :: rest, covered, covered', g, hcovered => by
    have hinj := inj_states h.inj
    refine (parallel_scopeOf h hload hload' _).bind fun scope? scope?' _ _ hscope => ?_
    cases hscope with
    | none => exact parallel_firmRules index rest g hcovered
    | @some scope scope' hscope =>
      have htargets := hscope.renames.diff hinj hcovered
      have hempty : ((scope'.states (m.rename f)).diff covered').isEmpty = ((scope.states m).diff covered).isEmpty := by
        rw [Bool.eq_iff_iff, isEmpty_iff_length_eq_zero, isEmpty_iff_length_eq_zero, htargets.length hinj]
      change Parallel SamePruned (if ((scope.states m).diff covered).isEmpty then _ else _)
        (if ((scope'.states (m.rename f)).diff covered').isEmpty then _ else _)
      rw [hempty]
      split
      · exact parallel_firmRules index rest g hcovered
      · refine (parallel_firm hinj htargets g _ index agents).bind ?_
        rintro ⟨g₁, emptied⟩ ⟨_, emptied'⟩ - - ⟨rfl, he⟩
        simp only at he ⊢
        rw [he]
        split
        · exact .ok (.error _ _)
        · exact parallel_firmRules index rest g₁ (hcovered.union htargets)

theorem parallel_firmPlans : ∀ (plans : List Plan) (index : Int) (g : Matrix),
    Parallel SamePruned (firmPlans .ctl source m (rowNames f m) agents index plans g)
      (firmPlans .ctl source' (m.rename f) (sourceNames m.graph) agents index plans g)
  | [], _, g => .ok (.ok g)
  | p :: plans, index, g => by
    refine (parallel_refl _).bind ?_
    rintro rules _ - - rfl
    refine (parallel_firmRules h hload hload' agents index rules g renames_nil).bind ?_
    rintro pruned pruned' - - hpruned
    cases hpruned with
    | ok g => exact parallel_firmPlans plans (index + 1) g
    | error reason reason' => exact .ok (.error reason reason')

end Rules

/-! ## Verdicts -/

/-- What a check finds in the model that is left, if a table says whose rules apply in which cells; nothing if the
strategies are refused or leave no proper model. -/
def prunedReport (source : String) (m : Model) (sources : SourceNames) (agents : List Int) (formula : String)
    (plans : List Plan) : Outcome (Option Report) := do
  let _ ← m.actions agents
  match ← firmPlans .ctl source m sources agents 1 plans m.graph with
  | .error _ => return none
  | .ok g =>
    match (do ({ m with graph := g } : Model).checkMoves (← m.agentCount) : Outcome Unit) with
    | .error _ => return none
    | .ok _ => return some (← checkModel .ctl { m with graph := g } formula)

/-- The check has found a set with the initial state. -/
def Admits (m : Model) (report? : Option Report) : Prop :=
  ∃ S : Names, S.Nodup ∧ report? = some (.solved m S.print) ∧ m.initial ∈ S

theorem admits_solved (hS : S.Nodup) : Admits m (some (.solved m S.print)) ↔ m.initial ∈ S := by
  constructor
  · rintro ⟨T, hT, he, hmem⟩
    have hprint : S.print = T.print := by
      have hresult := congrArg (fun r => r.result.toList) (Option.some.inj he)
      simp only [solved, String.toList_append] at hresult
      exact String.toList_injective (append_cancel_left hresult)
    have hread := Names.read_print hT
    rw [← hprint, Names.read_print hS] at hread
    rwa [← mem_sorted, Except.ok.inj hread, mem_sorted]
  · exact fun h => ⟨S, hS, rfl, h⟩

theorem not_admits_message (s : String) : ¬ Admits m (some (.message s)) := by
  rintro ⟨S, -, he, -⟩
  have hline := congrArg initial? (Option.some.inj he)
  simp [solved, message] at hline

section Verdicts

variable (h : Renaming f m) (hload : load .plain source = .ok m) (hm' : Rewritable source' (m.rename f))
  (hlegible : (m.rename f).initial = "s0" → Legible (m.rename f))

include h hlegible in
theorem line_eq_accepted_iff {S' : Names} (hS : Renames f m.states S S') :
    (solved (m.rename f) S'.print).initial?.getD "" = accepted ↔
      (m.rename f).initial = "s0" ∧ Admits m (some (.solved m S.print)) := by
  rw [admits_solved hS.nodup]
  refine line_eq_accepted.trans (and_congr_right fun hs0 => ?_)
  have hname : (m.rename f).initial = f m.initial := by
    refine if_neg fun hempty => ?_
    have : (m.rename f).initial = "" := if_pos hempty
    rw [this] at hs0
    exact absurd hs0 (by decide)
  rw [(hlegible hs0).verdict_iff hS.inside', hname, hS.mem]
  constructor
  · rintro ⟨q, hq, he⟩
    rwa [← h.inj (mem_cons_of_mem _ (hS.inside q hq)) mem_cons_self he]
  · exact fun hmem => ⟨m.initial, hmem, rfl⟩

include h hload hm' hlegible

/-- Pruning a renamed model accepts strategies if its initial state is called `s0` and the original model, in which
rules apply in the rows of the new names, has its initial state in the set that is found. -/
theorem parallel_firmVerdict (hn : ∀ n, m.agentCount = .ok n → 0 < n) {agents : List Int}
    (hagents : ∀ a ∈ agents, 1 ≤ a) {formula : String} (hblank : isBlankFormula formula = false) (plans : List Plan) :
    Parallel (fun report? v => v.1 = true ↔ (m.rename f).initial = "s0" ∧ Admits m report?)
      (prunedReport source m (rowNames f m) agents formula plans) (firmVerdict .ctl source' agents formula plans) := by
  have hmatrix : firmMatrix .ctl source' agents plans = m.actions agents >>= fun _ =>
      firmPlans .ctl source' (m.rename f) (sourceNames m.graph) agents 1 plans m.graph := by
    unfold firmMatrix
    rw [hm'.load]
    rfl
  have hrefused : ∀ reason : String, (false, reason).1 = true ↔ (m.rename f).initial = "s0" ∧ Admits m none := by
    simp [Admits]
  unfold prunedReport firmVerdict
  rw [hm'.load, hmatrix]
  change Parallel _ _ ((m.actions agents >>= _) >>= _)
  rw [bind_assoc]
  refine (parallel_refl (m.actions agents)).bind ?_
  rintro _ _ - - -
  refine (parallel_firmPlans h hload hm'.load agents plans 1 m.graph).bind ?_
  rintro pruned pruned' - hplans hpruned
  cases hpruned with
  | error reason reason' => exact .ok (hrefused reason')
  | ok g =>
    simp only
    have hsame : (do ({ m.rename f with graph := g } : Model).checkMoves (← (m.rename f).agentCount) : Outcome Unit) =
        (do ({ m with graph := g } : Model).checkMoves (← m.agentCount)) := rfl
    rw [hsame]
    cases hcheck : (do ({ m with graph := g } : Model).checkMoves (← m.agentCount) : Outcome Unit) with
    | error e => exact .ok (hrefused _)
    | ok u =>
      obtain ⟨n, hcount, hmoves⟩ := bind_eq_ok.1 hcheck
      obtain ⟨text, htext, hloadText⟩ := hm'.load_firmPlans (hn n hcount) hagents hplans hmoves
      have hcheckText : check .ctl text formula = checkModel .ctl (rename f { m with graph := g }) formula := by
        unfold check
        rw [if_neg (by simp [hblank]), hloadText]
        rfl
      have hbind : ∀ k : String → Outcome (Bool × String), (Except.ok text >>= k) = k text := fun _ => rfl
      simp only [htext, hbind, hcheckText]
      refine (parallel_checkModel (m := { m with graph := g }) ⟨h.inj, h.quiet, h.quiet'⟩ formula).bind ?_
      rintro report report' - - hreport
      -- the line decides
      suffices hline : report'.initial?.getD "" = accepted ↔ (m.rename f).initial = "s0" ∧ Admits m (some report) by
        split
        · rename_i hyes
          exact .ok ⟨fun _ => hline.1 hyes, fun _ => rfl⟩
        · rename_i hno
          refine .ok ⟨fun hfalse => ?_, fun hyes => absurd (hline.2 hyes) hno⟩
          cases hfalse
      rcases hreport with ⟨s, rfl, rfl⟩ | ⟨S, S', hS, rfl, rfl⟩
      · have hempty : "" ≠ accepted := by decide
        exact ⟨fun h => absurd h hempty, fun h => absurd h.2 (not_admits_message s)⟩
      · exact line_eq_accepted_iff h hlegible hS

end Verdicts

/-! ## Texts -/

theorem Rewritable.rename (hm : Rewritable source m) (hnames : ∀ q ∈ namesIn source, Nameable (f q)) :
    Rewritable (renameText f source) (m.rename f) := by
  have hall : ∀ e ∈ entries none (trimmedLines source), ∀ q ∈ Model.namesOf e, Nameable (f q) :=
    fun e he q hq => hnames q (mem_flatMap.2 ⟨e, he, hq⟩)
  have hlines : ∀ l ∈ trimmedLines source, IsTrimmed l :=
    fun l hl => trimmedLines_spec hl
  refine ⟨load_renameText hnames hm.load, ?_, hm.moves⟩
  obtain ⟨before, rows, after, hb, hnext⟩ := hm.layout
  have hnew : trimmedLines (renameText f source) = renameLines f none before ++
      title .transition :: (rows ++ renameLines f (some .transition) after) := by
    rw [renameText, trimmedLines_join (renameLines_spec _ none hlines hall).1, hb.eq,
      renameLines_append_header (t := .transition) rfl, renameLines_rows after hb.inside]
  rw [hb.eq, entries_append_header (t := .transition) rfl, entries_block _ _ hb.inside] at hall
  rw [hb.eq] at hlines
  have hold : ∀ {line s lines}, (∀ l ∈ lines, l ∈ before ++ title .transition :: (rows ++ after)) →
      (∀ e ∈ entries s lines, e ∈ entries none before ++
        (rows.map (some .transition, ·) ++ entries (some .transition) after)) →
      line ∈ renameLines f s lines → header? .plain line ≠ none → line ∈ lines :=
    fun hl he => mem_of_renameLines (fun l hmem => hlines l (hl l hmem)) fun e hmem => hall e (he e hmem)
  have hhead : (renameLines f (some .transition) after).head? = after.head? := by
    cases after with
    | nil => rfl
    | cons line after =>
      obtain ⟨t, ht⟩ := Option.ne_none_iff_exists'.1 (hb.next line rfl)
      simp only [renameLines, ht, head?_cons]
  refine ⟨_, rows, _, ⟨hnew, fun hmem => ?_, fun hmem => ?_, hb.inside, hhead ▸ hb.next⟩, hhead ▸ hnext⟩
  · exact hb.notBefore (hold (by simp +contextual) (by simp +contextual) hmem (by decide))
  · exact hb.notAfter (hold (by simp +contextual) (by simp +contextual) hmem (by decide))

/-! ## Two states with other names -/

theorem nameable_s0_b : ∀ q ∈ namesIn toggleText, Nameable (named "s0" "b" q) := by decide +kernel

theorem nameable_a_b : ∀ q ∈ namesIn toggleText, Nameable (named "a" "b" q) := by decide +kernel

def relabel (q : String) : String := if q = "b" then "c" else q

theorem nameable_relabel : ∀ q ∈ namesIn (renameText (named "s0" "b") toggleText), Nameable (relabel q) := by
  decide +kernel

/-! ## Renamed models -/

theorem exists_row_of_sourceNames {g : Matrix} {row : List (Option String)} (hrow : row ∈ sourceNames g)
    {s : String} (hs : some s ∈ row) : ∃ i < g.length, s = defaultName i := by
  obtain ⟨i, hi⟩ := mem_iff_getElem?.1 hrow
  have hlt : i < g.length := by
    have := lt_of_getElem? hi
    simpa [sourceNames] using this
  rw [getElem?_sourceNames (getElem?_eq_getElem hlt)] at hi
  cases hi
  obtain ⟨c, -, hc⟩ := mem_map.1 hs
  refine ⟨i, hlt, ?_⟩
  cases c with
  | num n => cases hc
  | text t =>
    change (if t = "*" then none else some _) = some s at hc
    split at hc
    · cases hc
    · exact (Option.some.inj hc).symm

/-- If no state moves to the default name of a row or away from it, rules apply in the rows where they applied. -/
theorem rowNames_eq (h : ∀ i < m.graph.length, ∀ q ∈ m.states, f q = defaultName i ↔ q = defaultName i) :
    rowNames f m = rowNames id m := by
  refine map_congr_left fun row hrow => map_congr_left fun s? hs => ?_
  rcases s? with _ | s
  · rfl
  · obtain ⟨i, hi, rfl⟩ := exists_row_of_sourceNames hrow hs
    refine find?_congr fun q hq => ?_
    rw [Bool.eq_iff_iff, beq_iff_eq, beq_iff_eq]
    exact h i hi q hq

/-- When the names of the states are replaced by other names, one to one, firm pruning gives the verdict of the original
model with the rules applied in the rows of the new names, and accepts only if the initial state is called `s0` then. If
no state moves to the default name of a row or away from it, this is the verdict on the original model. -/
theorem firmVerdict_renameText {source : String} {m : Model} (hm : Rewritable source m)
    (hn : ∀ n, m.agentCount = .ok n → 0 < n) {f : String → String}
    (hnames : ∀ q ∈ Model.namesIn source, Model.Nameable (f q)) (hf : Set.InjOn f {q | q ∈ m.initial :: m.states})
    (hquiet : Unary.of? m.stateSet.print = none) (hquiet' : Unary.of? (m.rename f).stateSet.print = none)
    (hlegible' : (m.rename f).initial = "s0" → Legible (m.rename f)) {agents : List Int} (hagents : ∀ a ∈ agents, 1 ≤ a)
    {formula : String} (hblank : isBlankFormula formula = false) (plans : List Plan) :
    Parallel (fun report? v => v.1 = true ↔ (m.rename f).initial = "s0" ∧ Admits m report?)
        (prunedReport source m (rowNames f m) agents formula plans)
        (firmVerdict .ctl (Model.renameText f source) agents formula plans) ∧
      ((m.initial = "s0" → Legible m) →
        (∀ i < m.graph.length, ∀ q ∈ m.states, f q = Model.defaultName i ↔ q = Model.defaultName i) →
        ((m.rename f).initial = "s0" ↔ m.initial = "s0") →
        Parallel (fun v v' => v.1 = v'.1) (firmVerdict .ctl source agents formula plans)
          (firmVerdict .ctl (Model.renameText f source) agents formula plans)) := by
  have hrenamed := parallel_firmVerdict ⟨hf, hquiet, hquiet'⟩ hm.load (hm.rename hnames) hlegible' hn hagents
    hblank plans
  refine ⟨hrenamed, fun hlegible hrows hs0 => ?_⟩
  have hid : m.rename id = m := m.rename_id
  have hsame := parallel_firmVerdict (f := id) ⟨Function.injective_id.injOn, hquiet, hid.symm ▸ hquiet⟩
    hm.load (hid.symm ▸ hm) (by rw [hid]; exact hlegible) hn hagents hblank plans
  rw [hid, ← rowNames_eq hrows] at hsame
  refine (hsame.join hrenamed).mono ?_
  rintro v v' ⟨report?, hv, hv'⟩
  rw [Bool.eq_iff_iff, hv, hv', hs0]

theorem firmVerdict_renameText_toggle :
    firmVerdict .ctl (Model.renameText (named "s0" "b") toggleText) [1] "AXp" alternate = .ok (true, "") ∧
      ∃ v, firmVerdict .ctl (Model.renameText relabel (Model.renameText (named "s0" "b") toggleText)) [1] "AXp"
        alternate = .ok v ∧ v.1 = true := by
  have hverdict : firmVerdict .ctl (Model.renameText (named "s0" "b") toggleText) [1] "AXp" alternate =
      .ok (true, "") :=
    (toggle_prunable.toRewritable.rename nameable_s0_b).firmVerdict_eq rfl ⟨_, toggle_actions⟩
      [[.zero, .text "A"], [.text "A", .text "I"]] (by decide +kernel) (by decide +kernel) (by decide)
      ⟨"Result: \x7b's0'\x7d", some accepted⟩ (by decide +kernel)
  have hagents : ∀ n, (toggle.rename (named "s0" "b")).agentCount = .ok n → 0 < n := by
    rintro n hn
    cases hn
    decide
  have hmembers : ∀ a ∈ [(1 : Int)], 1 ≤ a := by decide
  have hblank : isBlankFormula "AXp" = false := by decide
  obtain ⟨-, hsame⟩ := firmVerdict_renameText (toggle_prunable.toRewritable.rename nameable_s0_b) hagents
    nameable_relabel (by decide) (branching_of?_print (by decide)) (branching_of?_print (by decide))
    (fun _ => ⟨by decide, by decide, by decide⟩) hmembers hblank alternate
  have hverdicts := hsame (fun _ => ⟨by decide, by decide, by decide⟩) (by decide) (by decide)
  refine ⟨hverdict, ?_⟩
  rw [hverdict] at hverdicts
  generalize firmVerdict .ctl (Model.renameText relabel (Model.renameText (named "s0" "b") toggleText)) [1] "AXp"
    alternate = outcome at hverdicts
  cases hverdicts with
  | ok h => exact ⟨_, rfl, h.symm⟩

/-- A state called `b` is the state of no row, so that its rules do not apply; and if no state is called `s0`, nothing
is accepted. -/
theorem firmVerdict_rename_ne :
    firmVerdict .ctl toggleText [1] "AXAXq" alternate = .ok (true, "") ∧
      firmVerdict .ctl (Model.renameText (named "s0" "b") toggleText) [1] "AXAXq" alternate =
        .ok (false, "Formula non soddisfatta nello stato iniziale: Initial state s0: False") ∧
      firmVerdict .ctl toggleText [1] "q" alternate = .ok (true, "") ∧
      firmVerdict .ctl (Model.renameText (named "a" "b") toggleText) [1] "q" alternate =
        .ok (false, "Formula non soddisfatta nello stato iniziale: Initial state a: True") := by
  refine ⟨toggle_firmVerdict (by decide) (by decide +kernel), ?_, toggle_firmVerdict (by decide) (by decide +kernel), ?_⟩
  · exact (toggle_prunable.toRewritable.rename nameable_s0_b).firmVerdict_eq rfl ⟨_, toggle_actions⟩
      [[.zero, .text "A"], [.text "A", .text "I"]] (by decide +kernel) (by decide +kernel) (by decide)
      ⟨"Result: set()", some "Initial state s0: False"⟩ (by decide +kernel)
  · exact (toggle_prunable.toRewritable.rename nameable_a_b).firmVerdict_eq rfl ⟨_, toggle_actions⟩ toggle.graph
      (by decide +kernel) (by decide +kernel) (by decide) ⟨"Result: \x7b'a'\x7d", some "Initial state a: True"⟩
      (by decide +kernel)

end Natural.Pruning

end Arena
