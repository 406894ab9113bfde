/-
Coalitions whose bound allows nothing, where nothing costs anything. The checker for bounded resources computes
fixpoints of the states that are admitted, not of those that the coalition forces. On complete games it never answers
with fewer states than the checker for coalitions.
-/
import Arena.Proofs.Checker.Purse

namespace Arena

open Formula Text Names Model List

variable {agents : List Nat} {t q : String} {X : Set String} {is js : List Int} {move : Move}

namespace Checker.Bounded

open Coalition Unary Move

variable {m : Model} {n r : Nat}

theorem of?_print {a : Names} (h : ∀ n ∈ a, Unmarked n) : of? .joint a.print = none := by
  obtain ⟨hnot, hcoal⟩ := marks_rbatl.absent (l := .rbatl) (unmarked_print h)
  unfold of? Pricing.logic
  simp only [hnot, hcoal, Bool.false_and, Bool.false_eq_true, if_false]

/-! ## Runs -/

theorem run_solve {fuel : Nat} {key node result : Tree} {mem mem' : Memory} (hnode : recalled mem key = node)
    (h : (solveNode .joint m (solve .joint m fuel) node).run.run mem = (.ok result, mem')) :
    ∃ mem'', (solve .joint m (fuel + 1) key).run.run mem = (.ok result, mem'') ∧
      ∀ e ∈ mem'', e ∈ mem' ∨ e = (key, result.text) := by
  refine ⟨if (remembered? mem' key).isSome then mem' else mem' ++ [(key, result.text)], ?_, ?_⟩
  · rw [solve_succ, run_bind_ok (show (get : Solving Memory).run.run mem = (.ok mem, mem) from rfl), hnode, run_bind_ok h]
    rfl
  · intro e he
    split at he
    · exact .inl he
    · rcases mem_append.1 he with he | he
      · exact .inl he
      · exact .inr (mem_singleton.1 he)

/-- What is remembered are the texts of the trees themselves, as after solving leaves. -/
def Plainly (mem : Memory) : Prop := ∀ e ∈ mem, e.2 = e.1.text

theorem run_leaf (ht : of? .joint t = none) {fuel : Nat} (hfuel : fuel ≠ 0) {mem : Memory} (h : Plainly mem) :
    ∃ mem', (solve .joint m fuel (.leaf t)).run.run mem = (.ok (.leaf t), mem') ∧ Plainly mem' := by
  obtain ⟨fuel, rfl⟩ := Nat.exists_eq_succ_of_ne_zero hfuel
  have hnode : recalled mem (.leaf t) = .leaf t := by
    unfold recalled
    cases hs : remembered? mem (.leaf t) with
    | none => rfl
    | some s =>
      obtain ⟨e, he, rfl⟩ := Option.map_eq_some_iff.1 hs
      have hkey : e.1 = .leaf t := by simpa using find?_some he
      rw [h e (mem_of_find?_eq_some he), hkey]
      rfl
  have hrun : (solveNode .joint m (solve .joint m fuel) (.leaf t)).run.run mem = (.ok (.leaf t), mem) := by
    simp only [solveNode, solveOne, Tree.text, ht]
    rfl
  obtain ⟨mem', hmem', hin⟩ := run_solve hnode hrun
  refine ⟨mem', hmem', fun e he => ?_⟩
  rcases hin e he with he | rfl
  · exact h e he
  · rfl

theorem plainly_nil : Plainly [] := fun _ he => by cases he

theorem shows_answer {t base : Tree} {T : Names} {mem : Memory} (hT : T.Nodup ∧ T.toSet = X)
    (hnode : (solveNode .joint m (solve .joint m (depth t)) t).run.run [] = (.ok (base.withText T.print), mem)) :
    Shows (answerOf .joint m t) X := by
  obtain ⟨_, hsolve, -⟩ := run_solve (recalled_nil _) hnode
  refine ⟨T, ?_, hT⟩
  rw [answerOf, hsolve]
  exact congrArg Except.ok (text_withText ..)

theorem shows_answer_unary {l : String} (ht : of? .joint t = none)
    (h : ∀ again, Prints (solveOne .joint m again (.unary l (.leaf t)) (some t)) (.unary l (.leaf t)) X) :
    Shows (answerOf .joint m (.unary l (.leaf t))) X := by
  have hdepth : depth (.unary l (.leaf t)) ≠ 0 := by simp [depth]
  obtain ⟨mem, hleaf, -⟩ := run_leaf (m := m) ht hdepth plainly_nil
  obtain ⟨T, hT, hset⟩ := h (solve .joint m (depth (.unary l (.leaf t))))
  exact shows_answer hset ((run_bind_ok hleaf).trans (congrArg (fun x : Solving Tree => x.run.run mem) hT))

theorem shows_answer_binary {l u : String} (ht : of? .joint t = none) (hu : of? .joint u = none)
    (h : ∀ again, Prints (solveTwo .joint m again (.binary l (.leaf t) (.leaf u)) t u) (.binary l (.leaf t) (.leaf u)) X) :
    Shows (answerOf .joint m (.binary l (.leaf t) (.leaf u))) X := by
  have hdepth : depth (.binary l (.leaf t) (.leaf u)) ≠ 0 := by simp [depth]
  obtain ⟨mem, hleft, hmem⟩ := run_leaf (m := m) ht hdepth plainly_nil
  obtain ⟨mem', hright, -⟩ := run_leaf (m := m) hu hdepth hmem
  obtain ⟨T, hT, hset⟩ := h (solve .joint m (depth (.binary l (.leaf t) (.leaf u))))
  exact shows_answer hset
    ((run_bind_ok hleft).trans ((run_bind_ok hright).trans (congrArg (fun x : Solving Tree => x.run.run mem') hT)))

/-! ## Operators -/

def places (agents : List Nat) : List Int := agents.map fun a : Nat => (a : Int) - 1

theorem mem_places (i : Int) : i ∈ places agents ↔ ∃ a ∈ agents, i = (a : Int) - 1 := by
  rw [places, mem_map]
  exact exists_congr fun a => and_congr_right fun _ => eq_comm

theorem keep_congr {p q : Int → Bool} (h : ∀ i, p i = q i) (move : Move) : move.keep p = move.keep q := by
  rw [funext h]

theorem parts_congr (h : ∀ i, i ∈ is ↔ i ∈ js) : ofCoalition is = ofCoalition js ∧ ofOpponents is = ofOpponents js := by
  have hin : ∀ i, is.contains i = js.contains i := by
    intro i
    rw [Bool.eq_iff_iff, contains_iff_mem, contains_iff_mem, h]
  exact ⟨funext fun x => keep_congr hin x, funext fun x => keep_congr (fun i => by rw [hin]) x⟩

theorem admitted_congr (h : ∀ i, i ∈ is ↔ i ∈ js) : admitted m is = admitted m js := by
  unfold admitted
  rw [(parts_congr h).1, (parts_congr h).2]

/-- The setting of the comparison: agents play on a square matrix and pay nothing, and a coalition is named
together with a bound of zero for each resource. -/
structure FreeGame (m : Model) (n r : Nat) (agents : List Nat) : Prop where
  playable : m.Playable n
  square : ∀ row ∈ m.graph, row.length = m.states.length
  free : m.Free r
  resources : r ≠ 0
  named : agents ≠ []
  numerals : ∀ a ∈ agents, a < 10 ^ maxDigits

section Operators

variable (g : FreeGame m n r agents) {φ ψ : Names}

include g

theorem FreeGame.bears (operator : String) : Bears r (text agents).toList (replicate r 0) operator
    (boundedLabel agents (replicate r 0) operator) := bears_free g.named g.resources operator

theorem FreeGame.exists_engine : ∃ step, Engine .joint m r (text agents).toList step ∧
    step (replicate r 0) = admitted m (places agents) := by
  have hpay : ∀ bound : Bound, bound.length = r → (∀ b ∈ bound, 0 ≤ b) → ∀ {i j c move},
      cellAt? m.graph i j = some c → m.Lists c move →
        isAffordable .joint m (names (text agents)) bound i move = .ok true := by
    rintro bound rfl hpos i j c move hc hl
    exact isAffordable_free _ g.free hpos hc hl
  have hsquare : m.Square := ⟨g.playable.nodup, g.playable.rows, g.square, n, g.playable.agents⟩
  obtain ⟨is, hmem, e⟩ := engine_of_priced hsquare g.resources g.named g.numerals
    fun bound hr hpos i j c move hc hl => ⟨true, hpay bound hr hpos hc hl⟩
  refine ⟨_, e, ?_⟩
  have hsame : ∀ i, i ∈ is ↔ i ∈ places agents := fun i => (hmem i).trans (mem_places i).symm
  rw [← admitted_congr hsame]
  refine funext (admittedBy_eq g.playable ?_)
  exact fun i j c move hc hl => hpay _ (by simp) (by simp) hc hl

variable (hof : of? .joint φ.print = none) (hφ : Within m φ)

include hof hφ

theorem FreeGame.shows_next :
    Shows (answerOf .joint m (.unary (boundedLabel agents (replicate r 0) "X") (.leaf φ.print)))
      (admitted m (places agents) φ.toSet) := by
  obtain ⟨step, e, hstep⟩ := g.exists_engine
  have hop : _ = some next := ((g.bears "X").of?_eq (p := .joint) e.numerals).1.trans (by decide)
  rw [← hstep]
  exact shows_answer_unary hof fun again => e.prints_next again (g.bears "X") hφ hop _

theorem FreeGame.shows_eventually (hX : IsLeast {X | φ.toSet ∪ admitted m (places agents) X ⊆ X} X) :
    Shows (answerOf .joint m (.unary (boundedLabel agents (replicate r 0) "F") (.leaf φ.print))) X := by
  obtain ⟨step, e, hstep⟩ := g.exists_engine
  have hop : _ = some eventually := ((g.bears "F").of?_eq (p := .joint) e.numerals).1.trans (by decide)
  -- every state may be passed
  have hthrough : ∀ Z, admitted m (places agents) Z ∩ toSet m.stateSet = admitted m (places agents) Z := fun Z =>
    Set.inter_eq_left.2 (hstep ▸ e.inside _ Z)
  have hleast := e.isLeast_free (isZero_free r) (toSet m.stateSet) φ.toSet
  simp only [hstep, hthrough] at hleast
  rw [hX.unique hleast]
  exact shows_answer_unary hof fun again => e.prints_eventually again (g.bears "F") hφ hop
    fun hz => absurd (hz.symm.trans (isZero_free r)) Bool.false_ne_true

theorem FreeGame.shows_globally (hX : IsGreatest {X | X ⊆ admitted m (places agents) X ∩ φ.toSet} X) :
    Shows (answerOf .joint m (.unary (boundedLabel agents (replicate r 0) "G") (.leaf φ.print))) X := by
  obtain ⟨step, e, hstep⟩ := g.exists_engine
  have hop : _ = some globally := ((g.bears "G").of?_eq (p := .joint) e.numerals).1.trans (by decide)
  refine shows_answer_unary hof fun again => ?_
  obtain ⟨Y, -, hY, -, hgreatest⟩ := e.prints_globally again (a := .leaf φ.print) (g.bears "G") hφ hop rfl
    fun hz => absurd (hz.symm.trans (isZero_free r)) Bool.false_ne_true
  -- from each state all states are admitted
  have hall : step (replicate r 0) (toSet m.stateSet) = toSet m.stateSet := by
    rw [hstep, toSet_stateSet, admitted_states g.playable.live]
  have hgreatest := hgreatest (isZero_free r) fun _ => hall
  simp only [stepThrough, hstep] at hgreatest
  rwa [hX.unique hgreatest]

theorem FreeGame.shows_untl (hof' : of? .joint ψ.print = none) (hψ : Within m ψ)
    (hX : IsLeast {X | ψ.toSet ∪ admitted m (places agents) X ∩ φ.toSet ⊆ X} X) :
    Shows (answerOf .joint m (.binary (boundedLabel agents (replicate r 0) "U") (.leaf φ.print) (.leaf ψ.print))) X := by
  obtain ⟨step, e, hstep⟩ := g.exists_engine
  have hop : _ = some Binary.untl := ((g.bears "U").of?_eq (p := .joint) e.numerals).2.trans (by decide)
  rw [hX.unique (hstep ▸ e.isLeast_free (isZero_free r) φ.toSet ψ.toSet)]
  exact shows_answer_binary hof hof' fun again => e.prints_untl again (g.bears "U") hφ hψ hop
    fun hz => absurd (hz.symm.trans (isZero_free r)) Bool.false_ne_true

end Operators

/-! ## Complete games -/

/-- Any letters that are played at a state, one for each agent, are a joint action of the state. -/
def Complete (m : Model) (n : Nat) : Prop :=
  ∀ q ∈ m.states, ∀ x : Move, x.length = n →
    (∀ k < n, ∃ y r, m.Leads q y r ∧ y.toList[k]? = x.toList[k]?) → ∃ r, m.Leads q x r

/-- The joint action in which a coalition plays as in one and its opponents as in another. -/
def mix (members : List Int) (x y : Move) : Move :=
  String.ofList ((x.toList.zip y.toList).zipIdx.map fun p => if members.contains (p.2 : Int) then p.1.1 else p.1.2)

section Mix

variable (members : List Int) {x y : Move} (hx : x.length = n) (hy : y.length = n)

include hx hy

theorem length_mix : (mix members x y).length = n := by
  unfold mix
  rw [← String.length_toList, String.toList_ofList, length_map, length_zipIdx, length_zip,
    String.length_toList, String.length_toList, hx, hy, Nat.min_self]

theorem getElem?_mix (k : Nat) : (mix members x y).toList[k]? =
    if members.contains (k : Int) then x.toList[k]? else y.toList[k]? := by
  rw [← String.length_toList] at hx hy
  unfold mix
  rw [String.toList_ofList, getElem?_map, getElem?_zipIdx, Nat.zero_add]
  by_cases hk : k < n
  · have hz : (x.toList.zip y.toList)[k]? = some (x.toList[k], y.toList[k]) := by
      rw [getElem?_zip_eq_some]
      exact ⟨getElem?_eq_getElem (by omega), getElem?_eq_getElem (by omega)⟩
    rw [hz, getElem?_eq_getElem (by omega), getElem?_eq_getElem (by omega)]
    simp only [Option.map_some]
    cases members.contains (k : Int) <;> rfl
  · rw [getElem?_eq_none (by rw [length_zip]; omega), getElem?_eq_none (by omega),
      getElem?_eq_none (by omega), ite_self]
    rfl

/-- A test sees of the joint action only the letters that it selects. -/
theorem keep_mix {p : Int → Bool} {z : Move} (hz : z.length = n)
    (hsame : ∀ k : Nat, p k = true → (mix members x y).toList[k]? = z.toList[k]?) :
    (mix members x y).keep p = z.keep p := by
  have hlen := length_mix members hx hy
  rw [← String.length_toList] at hz hlen
  refine String.toList_injective (ext_getElem? fun k => ?_)
  rw [getElem?_keep, getElem?_keep]
  by_cases hp : p k = true
  · rw [hsame k hp]
  · -- a dash on both sides, or the end of both
    by_cases hk : k < n
    · rw [getElem?_eq_getElem (by omega), getElem?_eq_getElem (by omega), Option.map_some, Option.map_some,
        if_neg hp, if_neg hp]
    · rw [getElem?_eq_none (by omega), getElem?_eq_none (by omega)]

theorem ofCoalition_mix : (mix members x y).ofCoalition members = x.ofCoalition members :=
  keep_mix members hx hy hx fun k hk => by rw [getElem?_mix members hx hy, if_pos hk]

theorem ofOpponents_mix : (mix members x y).ofOpponents members = y.ofOpponents members :=
  keep_mix members hx hy hy fun k hk => by
    rw [Bool.not_eq_true'] at hk
    rw [getElem?_mix members hx hy, hk, if_neg Bool.false_ne_true]

end Mix

theorem force_subset_admitted (h : m.Playable n) (hcomplete : Complete m n) (members : List Int) (X : Set String) :
    (m.partGame members).force X ⊆ admitted m members X := by
  rintro q ⟨hq, c, ⟨r, move, hl, rfl⟩, hall⟩
  refine ⟨⟨move, r, hl, hall r ⟨move, hl, rfl⟩, .inr fun first r' hf hsame => hall r' ⟨first, hf.leads, hsame⟩⟩, ?_⟩
  intro other r' ho
  have hx := h.length_move hl
  have hy := h.length_move ho
  -- the coalition keeps its part whatever the opponents answer
  obtain ⟨target, ht⟩ := hcomplete q hq (mix members move other) (length_mix members hx hy) fun k _ => by
    by_cases hk : members.contains (k : Int) = true
    · exact ⟨move, r, hl, by rw [getElem?_mix members hx hy, if_pos hk]⟩
    · exact ⟨other, r', ho, by rw [getElem?_mix members hx hy, if_neg hk]⟩
  exact ⟨mix members move other, target, ht, hall target ⟨_, ht, ofCoalition_mix members hx hy⟩, ofOpponents_mix members hx hy⟩

/-- The part of a coalition is the same in all joint actions of a cell, and where a joint action has a star
every joint action leads to the same state. -/
structure Recognised (m : Model) (members : List Int) : Prop where
  parts : ∀ q first move r, m.LeadsFirst q first r → m.Leads q move r →
    first.ofCoalition members = move.ofCoalition members
  stars : ∀ q move r, m.Leads q move r → contains move "*" = true → ∀ other r', m.Leads q other r' → r' = r

theorem exists_leadsFirst {r : String} (hl : m.Leads q move r) : ∃ first, m.LeadsFirst q first r := by
  obtain ⟨i, j, c, hi, hj, hc, hz, moves, hmoves, hmove⟩ := hl
  cases moves with
  | nil => cases hmove
  | cons first rest => exact ⟨first, i, j, c, hi, hj, hc, hz, rest, hmoves⟩

theorem admitted_subset_force {members : List Int} (hrec : Recognised m members) (X : Set String) :
    admitted m members X ⊆ (m.partGame members).force X := by
  rintro q hq
  obtain ⟨⟨move, r, hl, hr, hwin⟩, -⟩ := id hq
  refine ⟨admitted_subset X hq, move.ofCoalition members, ⟨r, move, hl, rfl⟩, ?_⟩
  rintro r' ⟨other, ho, hsame⟩
  rcases hwin with hstar | hsafe
  · rw [hrec.stars q move r hl hstar other r' ho]
    exact hr
  · obtain ⟨first, hf⟩ := exists_leadsFirst ho
    exact hsafe first r' hf ((hrec.parts q first other r' hf ho).trans hsame)

/-! ## The comparison -/

/-- Two answers are the texts of sets: the second set meets a specification and holds the first one, and it
is the first one under a condition. -/
def Covers (exact : Prop) (spec : Set String → Prop) (forced found : Outcome String) : Prop :=
  ∃ X Y, Shows forced X ∧ Shows found Y ∧ spec Y ∧ X ⊆ Y ∧ (exact → X = Y)

section Covers

variable {exact : Prop} {f g : Set String → Set String} (hf : ∀ X Y, X ⊆ Y → f X ⊆ f Y)
  (hg : ∀ X Y, X ⊆ Y → g X ⊆ g Y) (hfg : ∀ X, f X ⊆ g X) (hgf : exact → ∀ X, g X ⊆ f X) {forced found : Outcome String}

include hf hg hfg hgf

theorem covers_least {s : Set String} (hforced : ∀ X, IsLeast {X | s ∪ f X ⊆ X} X → Shows forced X)
    (hfound : ∀ X, IsLeast {X | s ∪ g X ⊆ X} X → Shows found X) :
    Covers exact (IsLeast {X | s ∪ g X ⊆ X}) forced found := by
  obtain ⟨X, hX⟩ := exists_isLeast hf s
  obtain ⟨Y, hY⟩ := exists_isLeast hg s
  have hXY : X ⊆ Y := hX.2 ((Set.union_subset_union_right s (hfg Y)).trans hY.1)
  refine ⟨X, Y, hforced X hX, hfound Y hY, hY, hXY, fun hexact => hXY.antisymm ?_⟩
  exact hY.2 ((Set.union_subset_union_right s (hgf hexact X)).trans hX.1)

theorem covers_greatest (hforced : ∀ X, IsGreatest {X | X ⊆ f X} X → Shows forced X)
    (hfound : ∀ X, IsGreatest {X | X ⊆ g X} X → Shows found X) :
    Covers exact (IsGreatest {X | X ⊆ g X}) forced found := by
  obtain ⟨X, hX⟩ := exists_isGreatest hf
  obtain ⟨Y, hY⟩ := exists_isGreatest hg
  have hXY : X ⊆ Y := hY.2 (hX.1.trans (hfg X))
  refine ⟨X, Y, hforced X hX, hfound Y hY, hY, hXY, fun hexact => hXY.antisymm ?_⟩
  exact hX.2 (hY.1.trans (hgf hexact Y))

end Covers

/-- How the answers with a bound of zero cover those without a bound. -/
structure CoversForced (m : Model) (r : Nat) (agents : List Nat) (φ ψ : Names) : Prop where
  next : Covers (Recognised m (places agents)) (· = admitted m (places agents) φ.toSet)
    (Alternating.solve m (.unary (label agents "X") (.leaf φ.print)))
    (answerOf .joint m (.unary (boundedLabel agents (replicate r 0) "X") (.leaf φ.print)))
  globally : Covers (Recognised m (places agents)) (IsGreatest {X | X ⊆ admitted m (places agents) X ∩ φ.toSet})
    (Alternating.solve m (.unary (label agents "G") (.leaf φ.print)))
    (answerOf .joint m (.unary (boundedLabel agents (replicate r 0) "G") (.leaf φ.print)))
  eventually : Covers (Recognised m (places agents)) (IsLeast {X | φ.toSet ∪ admitted m (places agents) X ⊆ X})
    (Alternating.solve m (.unary (label agents "F") (.leaf φ.print)))
    (answerOf .joint m (.unary (boundedLabel agents (replicate r 0) "F") (.leaf φ.print)))
  untl : Covers (Recognised m (places agents)) (IsLeast {X | ψ.toSet ∪ admitted m (places agents) X ∩ φ.toSet ⊆ X})
    (Alternating.solve m (.binary (label agents "U") (.leaf φ.print) (.leaf ψ.print)))
    (answerOf .joint m (.binary (boundedLabel agents (replicate r 0) "U") (.leaf φ.print) (.leaf ψ.print)))

/-- In a complete game where nothing costs anything, for every coalition and all sets of states, solving a
temporal operator of the coalition with a bound of zero gives the states that are admitted, or the least or
the greatest set that the operator asks for with admitted states in place of forced ones. It holds the set
that solving the operator without a bound gives, and is that set where the cells are recognised. -/
theorem answer_covers_forced (g : FreeGame m n r agents) (hcomplete : Complete m n)
    (hnames : ∀ q ∈ m.states, Unmarked q) {φ ψ : Names} (hφ : Within m φ) (hψ : Within m ψ) :
    CoversForced m r agents φ ψ := by
  have hforce : ∀ X, (m.game agents).force X = (m.partGame (places agents)).force X := g.playable.force_eq_part mem_places
  have hin : ∀ X, (m.game agents).force X ⊆ admitted m (places agents) X := fun X =>
    hforce X ▸ force_subset_admitted g.playable hcomplete _ X
  have hout : Recognised m (places agents) → ∀ X, admitted m (places agents) X ⊆ (m.game agents).force X :=
    fun hrec X => hforce X ▸ admitted_subset_force hrec X
  have hforceMono : ∀ X Y, X ⊆ Y → (m.game agents).force X ⊆ (m.game agents).force Y := fun _ _ h => Game.force_mono h
  have hadmitMono : ∀ X Y, X ⊆ Y → admitted m (places agents) X ⊆ admitted m (places agents) Y := fun _ _ h =>
    admitted_mono h
  have hcut : ∀ {f : Set String → Set String}, (∀ X Y, X ⊆ Y → f X ⊆ f Y) →
      ∀ X Y, X ⊆ Y → f X ∩ φ.toSet ⊆ f Y ∩ φ.toSet := fun hf X Y h => Set.inter_subset_inter_left _ (hf X Y h)
  -- the leaves are left as they are by both checkers
  have hφleaf := Alternating.one_print (m := m) fun q hq => hnames q (hφ.2 q hq)
  have hψleaf := Alternating.one_print (m := m) fun q hq => hnames q (hψ.2 q hq)
  have hφof := of?_print fun q hq => hnames q (hφ.2 q hq)
  have hψof := of?_print fun q hq => hnames q (hψ.2 q hq)
  have hF : ∀ {o : String}, o.toList.length = 1 → _ := Alternating.computes_pre g.playable g.named g.numerals
  constructor <;> unfold Alternating.solve <;>
    simp only [Tree.solve_unary_leaf hφleaf, Tree.solve_binary_leaf hφleaf hψleaf]
  · exact ⟨_, _, Alternating.shows_next g.named hF hφ, g.shows_next hφof hφ, rfl, hin _,
      fun hrec => (hin _).antisymm (hout hrec _)⟩
  · refine covers_greatest (hcut hforceMono) (hcut hadmitMono) (fun X => Set.inter_subset_inter_left _ (hin X))
      (fun hrec X => Set.inter_subset_inter_left _ (hout hrec X)) (fun X hX => ?_)
      fun X hX => g.shows_globally hφof hφ hX
    exact Alternating.shows_globally g.named hF hφ (g.playable.proper _) rfl hX
  · exact covers_least hforceMono hadmitMono hin hout
      (fun X hX => Alternating.shows_eventually g.named hF hφ hX)
      fun X hX => g.shows_eventually hφof hφ hX
  · refine covers_least (hcut hforceMono) (hcut hadmitMono) (fun X => Set.inter_subset_inter_left _ (hin X))
      (fun hrec X => Set.inter_subset_inter_left _ (hout hrec X)) (fun X hX => ?_)
      fun X hX => g.shows_untl hφof hφ hψof hψ hX
    exact Alternating.shows_untl g.named hF hφ.1 hψ hX

/-- From `s0` the first agent cannot choose between the other two states: for each of its letters one answer
leads to `s1` and the other to `s2`. -/
def crossing : Model where
  graph := [[.zero, .text "BC,AD", .text "AC,BD"], [.zero, .text "II", .zero], [.zero, .zero, .text "II"]]
  states := ["s0", "s1", "s2"]
  props := ["p"]
  labels := [[.num 0], [.num 1], [.num 0]]
  initial := "s0"
  agents := .number 2
  costs := [("AC;s0", .shared [0]), ("AD;s0", .shared [0]), ("BC;s0", .shared [0]), ("BD;s0", .shared [0]),
    ("II;s1", .shared [0]), ("II;s2", .shared [0])]

/-- The joint actions of `crossing`, with the states between which they lead. -/
def crossingMoves : List (String × Move × String) :=
  [("s0", "BC", "s1"), ("s0", "AD", "s1"), ("s0", "AC", "s2"), ("s0", "BD", "s2"), ("s1", "II", "s1"),
    ("s2", "II", "s2")]

theorem crossing_leads {r : String} : crossing.Leads q move r ↔ (q, move, r) ∈ crossingMoves := by
  constructor
  · rintro ⟨i, j, c, hi, hj, hc, hl⟩
    have hall : ∀ i j c, cellAt? crossing.graph i j = some c → ∀ move, crossing.Lists c move →
        (crossing.states[i]?.getD "", move, crossing.states[j]?.getD "") ∈ crossingMoves := by decide
    have hmem := hall i j c hc move hl
    rwa [hi, hj] at hmem
  · intro h
    have hall : ∀ t ∈ crossingMoves, ∃ i < 3, ∃ j < 3, ∃ c ∈ cellAt? crossing.graph i j,
        crossing.states[i]? = some t.1 ∧ crossing.states[j]? = some t.2.2 ∧ crossing.Lists c t.2.1 := by decide
    obtain ⟨i, -, j, -, c, hc, hi, hj, hl⟩ := hall _ h
    exact ⟨i, j, c, hi, hj, hc, hl⟩

theorem crossing_freeGame : FreeGame crossing 2 1 [1] where
  playable := by decide
  square := by decide
  free := by
    have hall : ∀ i j c, cellAt? crossing.graph i j = some c → ∀ move, crossing.Lists c move →
        crossing.costOf move (defaultName i) = .ok (.shared (replicate 1 0)) := by decide
    exact fun i j c move hc hl => ⟨1, Nat.le_refl 1, hall i j c hc move hl⟩
  resources := by decide
  named := by decide
  numerals a ha := mem_singleton.1 ha ▸ Nat.one_lt_pow (by decide) (by decide)

theorem crossing_complete : Complete crossing 2 := by
  have hall : ∀ t ∈ crossingMoves, ∀ u ∈ crossingMoves, t.1 = u.1 → ∀ a ∈ t.2.1.toList[0]?.toList,
      ∀ b ∈ u.2.1.toList[1]?.toList, ∃ v ∈ crossingMoves, v.1 = t.1 ∧ v.2.1.toList = [a, b] := by decide
  intro q hq x hx hletters
  obtain ⟨a, b, hab⟩ : ∃ a b, x.toList = [a, b] := length_eq_two.1 hx
  obtain ⟨y, r, hy, hya⟩ := hletters 0 (by decide)
  obtain ⟨z, r', hz, hzb⟩ := hletters 1 (by decide)
  rw [hab] at hya hzb
  obtain ⟨⟨q', x', r''⟩, hv, rfl, hx'⟩ := hall _ (crossing_leads.1 hy) _ (crossing_leads.1 hz) rfl a
    (by rw [hya]; exact mem_singleton_self a) b (by rw [hzb]; exact mem_singleton_self b)
  obtain rfl : x' = x := String.toList_injective (hx'.trans hab.symm)
  exact ⟨r'', crossing_leads.2 hv⟩

theorem answer_covers_forced_crossing : CoversForced crossing 1 [1] ["s1"] ["s2"] :=
  answer_covers_forced crossing_freeGame crossing_complete (by decide) ⟨by decide, by decide⟩ ⟨by decide, by decide⟩

theorem crossing_deterministic : Alternating.Deterministic crossing := .of_cells (by decide) (by decide)

theorem crossing_admitted : admitted crossing (places [1]) (toSet ["s1"]) = toSet ["s0", "s1"] := by
  obtain ⟨step, e, hstep⟩ := crossing_freeGame.exists_engine
  have hin : ∀ q ∈ ["s1"], q ∈ crossing.stateSet := by decide
  obtain ⟨T, hT, -, hset⟩ := e.value (length_replicate (a := 0)) (by decide) ["s1"] hin
  have hpre : pre .joint crossing "1" ["s1"] [0] = .ok ["s0", "s1"] := by decide +kernel
  cases hpre.symm.trans hT
  exact hset.trans (congrFun hstep _) |>.symm

/-- The first agent cannot force `s1` from `s0`, but the checker admits it: the second joint action of a cell
is not recognised. -/
theorem answer_exceeds_forced_crossing :
    FreeGame crossing 2 1 [1] ∧ Complete crossing 2 ∧ Alternating.Deterministic crossing ∧
      Alternating.solve crossing (.unary (label [1] "X") (.leaf (print ["s1"]))) = .ok (print ["s1"]) ∧
      answerOf .joint crossing (.unary (boundedLabel [1] [0] "X") (.leaf (print ["s1"]))) =
        .ok (print ["s0", "s1"]) := by
  refine ⟨crossing_freeGame, crossing_complete, crossing_deterministic, by decide +kernel, ?_⟩
  obtain ⟨T, hT, hn, hset⟩ := crossing_freeGame.shows_next (of?_print (a := ["s1"]) (by decide)) ⟨by decide, by decide⟩
  rw [crossing_admitted] at hset
  refine hT.trans (congrArg Except.ok (print_congr hn (by decide) fun q => ?_))
  exact Set.ext_iff.1 hset q

end Checker.Bounded

end Arena
