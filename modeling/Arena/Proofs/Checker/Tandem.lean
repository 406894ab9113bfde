/-
Two solvers side by side. The first may remember what it has solved; the second remembers nothing and works on a model
whose states may have other names, though prices are looked up under the default names. At each step both fail with the
same cause, or their sets have the old and the new names of the same states, as long as no name is taken for an
operator.
-/
import Arena.Proofs.Checker.Bounds
import Arena.Proofs.Checker.Renaming

namespace Arena.Checker.Bounded

open Formula Text Model List Binary
open Branching (Renames renames_nil renames_ofList)

variable {p : Pricing} {S S' : Names} {x x' : String} {α β γ δ : Type} {through through' : Names} {a : α}
  {I : Memory → Prop} {m m' : Model} {f : String → String} {U : List String} {t t' : Tree}
  {again again' : Tree → Solving Tree}

/-- What a computation gives when nothing is remembered. -/
def value (x : Solving α) : Outcome α := (x.run.run []).1

/-! ## Computations side by side -/

/-- The second computation does not look at its memory. From every memory with a property, the first one gives an
outcome that agrees with that of the second one, and leaves a memory with the property. -/
def Tandem (I : Memory → Prop) (R : α → β → Prop) (x : Solving α) (y : Solving β) : Prop :=
  ∃ r r', Agree R r r' ∧ (∀ mem, y.run.run mem = (r', mem)) ∧ ∀ mem, I mem → ∃ mem', I mem' ∧ x.run.run mem = (r, mem')

section Tandem

variable {R : α → β → Prop} {Q : γ → δ → Prop} {x : Solving α} {y : Solving β}

theorem Tandem.run (h : Tandem I R x y) (mem : Memory) (hmem : I mem) :
    ∃ r mem', I mem' ∧ x.run.run mem = (r, mem') ∧ Agree R r (value y) := by
  obtain ⟨r, r', hr, hy, hx⟩ := h
  obtain ⟨mem', hmem', hrun⟩ := hx mem hmem
  exact ⟨r, mem', hmem', hrun, by rwa [value, hy]⟩

theorem Tandem.agree (h : Tandem (fun _ => True) R x y) : Agree R (value x) (value y) := by
  obtain ⟨r, mem, -, hrun, hr⟩ := h.run [] trivial
  rwa [show value x = r from congrArg Prod.fst hrun]

theorem Tandem.run_eq {x y : Solving α} (h : Tandem I Eq x y) (mem : Memory) (hmem : I mem) :
    ∃ mem', I mem' ∧ x.run.run mem = (value y, mem') := by
  obtain ⟨r, mem', hmem', hrun, hr⟩ := h.run mem hmem
  exact ⟨mem', hmem', by rw [hrun, hr.eq fun _ _ h => h.symm]⟩

theorem Tandem.mono {Q : α → β → Prop} (h : Tandem I R x y) (hRQ : ∀ a b, R a b → Q a b) : Tandem I Q x y := by
  obtain ⟨r, r', hr, hxy⟩ := h
  exact ⟨r, r', hr.mono hRQ, hxy⟩

theorem Tandem.value_eq (h : Tandem I R x y) : Tandem I (fun a b => R a b ∧ value y = .ok b) x y := by
  obtain ⟨r, r', hr, hy, hx⟩ := h
  refine ⟨r, r', ?_, hy, hx⟩
  rw [value, hy]
  cases hr with
  | ok h => exact .ok ⟨h, rfl⟩
  | error e => exact .error e

theorem tandem_lift {x : Outcome α} {y : Outcome β} (h : Agree R x y) : Tandem I R (lift x) (lift y) :=
  ⟨x, y, h, fun _ => rfl, fun mem hmem => ⟨mem, hmem, rfl⟩⟩

/-- Both sides compute the same value, on which the proof goes on. -/
theorem tandem_same (x : Outcome α) : Tandem I (fun a b => a = b ∧ x = .ok a) (lift x) (lift x) :=
  tandem_lift (agree_refl x)

theorem tandem_pure {b : β} (h : R a b) : Tandem I R (pure a) (pure b) := tandem_lift (.ok h)

theorem tandem_throw (e : Fault) : Tandem I R (throw e : Solving α) (throw e : Solving β) := tandem_lift (.error e)

theorem tandem_bind {f : α → Solving γ} {g : β → Solving δ} (h : Tandem I R x y)
    (hfg : ∀ a b, R a b → Tandem I Q (f a) (g b)) : Tandem I Q (x >>= f) (y >>= g) := by
  obtain ⟨r, r', hr, hy, hx⟩ := h
  cases hr with
  | error e =>
    refine ⟨.error e, .error e, .error e, fun mem => run_bind_error (hy mem), fun mem hmem => ?_⟩
    obtain ⟨mem', hmem', hrun⟩ := hx mem hmem
    exact ⟨mem', hmem', run_bind_error hrun⟩
  | ok h =>
    obtain ⟨s, s', hs, hg, hf⟩ := hfg _ _ h
    refine ⟨s, s', hs, fun mem => (run_bind_ok (hy mem)).trans (hg mem), fun mem hmem => ?_⟩
    obtain ⟨mem', hmem', hrun⟩ := hx mem hmem
    obtain ⟨mem'', hmem'', hrun'⟩ := hf mem' hmem'
    exact ⟨mem'', hmem'', (run_bind_ok hrun).trans hrun'⟩

theorem tandem_foldlM {f : α → γ → Solving α} {g : β → γ → Solving β} : ∀ {vs : List γ},
    (∀ v ∈ vs, ∀ a b, R a b → Tandem I R (f a v) (g b v)) → ∀ {a b}, R a b → Tandem I R (vs.foldlM f a) (vs.foldlM g b)
  | [], _, _, _, h => tandem_pure h
  | v :: vs, hfg, a, b, h => by
    obtain ⟨hv, hvs⟩ := forall_mem_cons.1 hfg
    exact tandem_bind (hv a b h) fun a b h => tandem_foldlM hvs h

end Tandem

/-! ## Models with other names -/

/-- The second model has other names of the states and, under the default names of the rows, the same costs. -/
structure Renamed (f : String → String) (m m' : Model) : Prop where
  graph : m'.graph = m.graph
  agents : m'.agents = m.agents
  states : m'.states = m.states.map f
  positionsOf : m'.positionsOf = m.positionsOf
  inj : ∀ q ∈ m.states, ∀ r ∈ m.states, f q = f r → q = r
  costs : ∀ i < m.graph.length, ∀ move, m'.costOf move (defaultName i) = m.costOf move (defaultName i)

theorem renamed_refl (m : Model) : Renamed id m m :=
  ⟨rfl, rfl, (map_id _).symm, rfl, fun _ _ _ _ he => he, fun _ _ _ => rfl⟩

section Frame

variable (hgraph : m'.graph = m.graph) (hagents : m'.agents = m.agents)

include hagents

theorem movesOf_agents : m'.movesOf = m.movesOf := by
  funext cell
  simp only [movesOf, agentCount, hagents]

theorem cellMoves_agents : ∀ (j : Nat) (row : List Cell), cellMoves m' j row = cellMoves m j row
  | _, [] => rfl
  | j, c :: row => by simp only [cellMoves, movesOf_agents hagents, cellMoves_agents (j + 1) row]

theorem isSafe_agents : isSafe m' = isSafe m := by
  funext agents columns move others
  simp only [isSafe, coalitionMoves, agentCount, hagents]

include hgraph

theorem isWinning_frame : isWinning m' = isWinning m := by
  funext agents columns e
  simp only [isWinning, hgraph, cellMoves_agents hagents, isSafe_agents hagents]

theorem meetsAll_frame : meetsAll m' = meetsAll m := by
  funext agents columns i
  simp only [meetsAll, hgraph, cellMoves_agents hagents]

end Frame

namespace Renamed

variable (h : Renamed f m m')

include h

theorem stateAt_eq (i : Int) : m'.stateAt i = (m.stateAt i).map f := by
  rw [stateAt, h.states]
  exact nth_map f m.states i

theorem renames_stateSet : Renames f m.states m.stateSet m'.stateSet := by
  rw [stateSet, stateSet, h.states]
  exact renames_ofList fun _ hq => hq

theorem mem_states (hS : Renames f m.states S S') : ∀ x ∈ S', x ∈ m'.states := by
  rw [h.states]
  exact hS.inside'

theorem rounds_eq (hS : Renames f m.states S S') : rounds m' S' = rounds m S := by
  rw [rounds, rounds, h.states, length_map, hS.length h.inj]

/-! ## Predecessors -/

theorem idxOf?_eq {q : String} (hq : q ∈ m.states) : m'.states.idxOf? (f q) = m.states.idxOf? q := by
  have hmap : ∀ U : List String, (∀ r ∈ U, f r = f q → r = q) → (U.map f).idxOf? (f q) = U.idxOf? q := by
    intro U hU
    induction U with
    | nil => rfl
    | cons r U ih =>
      obtain ⟨hr, hU⟩ := forall_mem_cons.1 hU
      have hsame : (f r == f q) = (r == q) := by
        rw [Bool.eq_iff_iff, beq_iff_eq, beq_iff_eq]
        exact ⟨hr, congrArg f⟩
      rw [map_cons, idxOf?_cons, idxOf?_cons, hsame, ih hU]
  rw [h.states]
  exact hmap m.states fun r hr he => h.inj r hr q hq he

theorem columns (hS : Renames f m.states S S') :
    ∃ ps ps', m.positions S = .ok ps ∧ m'.positions S' = .ok ps' ∧
      ps.mergeSort (· ≤ ·) = ps'.mergeSort (· ≤ ·) := by
  let index (n : Model) (q : String) : Nat := (n.states.idxOf? q).getD 0
  have hindex : ∀ (n : Model), ∀ q ∈ n.states, n.stateIndex q = .ok (index n q) := by
    intro n q hq
    obtain ⟨i, hi⟩ := Option.isSome_iff_exists.1 (isSome_idxOf?.2 hq)
    simp only [stateIndex, index, hi]
    rfl
  have hsame : ∀ q ∈ S, index m' (f q) = index m q := fun q hq => by
    simp only [index, h.idxOf?_eq (hS.inside q hq)]
  have hmem : ∀ i, i ∈ S.map (index m) ↔ i ∈ S'.map (index m') := by
    intro i
    simp only [mem_map, hS.mem]
    constructor
    · rintro ⟨q, hq, rfl⟩
      exact ⟨f q, ⟨q, hq, rfl⟩, hsame q hq⟩
    · rintro ⟨x, ⟨q, hq, rfl⟩, rfl⟩
      exact ⟨q, hq, (hsame q hq).symm⟩
  have hperm : (distinct (S.map (index m))).Perm (distinct (S'.map (index m'))) :=
    (perm_ext_iff_of_nodup (nodup_distinct _) (nodup_distinct _)).2 fun i => by
      rw [mem_distinct, mem_distinct, hmem]
  refine ⟨_, _, by rw [positions, mapM_eq_map fun q hq => hindex m q (hS.inside q hq)]; rfl,
    by rw [positions, mapM_eq_map fun x hx => hindex m' x (h.mem_states hS x hx)]; rfl, ?_⟩
  have hsorted : ∀ ps : List Nat, (ps.mergeSort (· ≤ ·)).Pairwise (· ≤ ·) := fun ps =>
    (pairwise_mergeSort (fun a b c => by simpa using Nat.le_trans) (fun a b => by simpa using Nat.le_total a b)
      ps).imp (by simp)
  exact Perm.eq_of_pairwise (fun _ _ _ _ h1 h2 => Nat.le_antisymm h1 h2) (hsorted _) (hsorted _)
    ((mergeSort_perm ..).trans (hperm.trans (mergeSort_perm ..).symm))

theorem isAffordable_eq (agents : List String) (bound : Bound) {i : Nat} (hi : i < m.graph.length) :
    isAffordable p m' agents bound i = isAffordable p m agents bound i := by
  funext move
  simp only [isAffordable, h.costs i hi]

theorem entriesFrom_eq (agents : List String) (bound : Bound) (columns : List Nat) : ∀ (i : Nat) (g : Matrix),
    i + g.length ≤ m.graph.length →
      entriesFrom p m' agents bound columns i g = entriesFrom p m agents bound columns i g
  | _, [], _ => rfl
  | i, row :: g, hi => by
    rw [length_cons] at hi
    simp only [entriesFrom, rowEntries, affordable, h.isAffordable_eq agents bound (show i < m.graph.length by omega),
      movesOf_agents h.agents, entriesFrom_eq agents bound columns (i + 1) g (by omega)]

theorem agree_pre (coalition : String) (hS : Renames f m.states S S') (bound : Bound) :
    Agree (Renames f m.states) (pre p m coalition S bound) (pre p m' coalition S' bound) := by
  obtain ⟨ps, ps', hps, hps', hcolumns⟩ := h.columns hS
  refine Agree.bind (R := fun a b => a.mergeSort (· ≤ ·) = b.mergeSort (· ≤ ·)) ?_ fun a b hab => ?_
  · rw [hps, hps']
    exact .ok hcolumns
  simp only [hab, h.graph, isWinning_frame h.graph h.agents, meetsAll_frame h.graph h.agents,
    h.entriesFrom_eq _ bound _ 0 m.graph (by omega)]
  refine (agree_refl _).bind fun entries _ he => ?_
  cases he.1
  refine (agree_refl _).bind fun winning _ hw => ?_
  cases hw.1
  refine (agree_refl _).bind fun rows _ hr => ?_
  cases hr.1
  rw [mapM_map_outcome fun i : Nat => h.stateAt_eq i]
  cases hqs : rows.mapM fun (i : Nat) => m.stateAt i with
  | error e => exact .error e
  | ok qs =>
    refine .ok (renames_ofList fun q hq => ?_)
    obtain ⟨i, -, hi⟩ := exists_of_mem_mapM hqs hq
    exact mem_of_nth hi

theorem agree_pre_inter (coalition : String) (ht : Renames f m.states through through') (bound : Bound)
    (hS : Renames f m.states S S') : Agree (Renames f m.states)
      (do return (← pre p m coalition S bound).inter through) (do return (← pre p m' coalition S' bound).inter through') :=
  (h.agree_pre coalition hS bound).bind fun _ _ hR => .ok (hR.inter h.inj ht)

end Renamed

/-! ## Loops -/

section Loops

variable (hf : ∀ q ∈ U, ∀ r ∈ U, f q = f r → q = r) {step step' : Names → Outcome Names}
  (hstep : ∀ {S S'}, Renames f U S S' → Agree (Renames f U) (step S) (step' S'))

include hf hstep

theorem agree_grow : ∀ (n : Nat) {S S' T T' : Names}, Renames f U S S' → Renames f U T T' →
    Agree (Renames f U) (grow step n S T) (grow step' n S' T')
  | 0, _, _, _, _, _, _ => .error _
  | n + 1, S, S', T, T', hS, hT => by
    simp only [grow, hT.subset hf hS]
    split
    · exact .ok hS
    · exact (hstep (hS.union hT)).bind fun R R' hR => agree_grow n (hS.union hT) hR

theorem agree_shrink : ∀ (n : Nat) {S S' T T' : Names}, Renames f U S S' → Renames f U T T' →
    Agree (Renames f U) (shrink step n S T) (shrink step' n S' T')
  | 0, _, _, _, _, _, _ => .error _
  | n + 1, S, S', T, T', hS, hT => by
    simp only [shrink, hS.subset hf hT]
    split
    · exact .ok hS
    · exact (hstep hT).bind fun R R' hR => agree_shrink n hT hR

end Loops

/-! ## Texts that are no operators -/

/-- The kinds of tokens without which a text is no operator. -/
def decisive : List TokenKind := [.not, .boundedCoalition, .or, .and, .implies]

/-- A name in whose quoted form no operator is seen. -/
def Calm (p : Pricing) (q : String) : Prop := ∀ k ∈ kindsIn p.logic (quote q), k ∉ decisive

instance (p : Pricing) (q : String) : Decidable (Calm p q) := inferInstanceAs (Decidable (∀ _ ∈ _, _))

theorem frames (p : Pricing) : Frames p.logic := Checker.frames (by cases p <;> decide)

theorem of?_calm (h : ∀ q ∈ S, Calm p q) : Unary.of? p S.print = none ∧ of? p S.print = none := by
  have hno : ∀ k ∈ decisive, (kindsIn p.logic S.print).contains k = false := by
    have hinert : ∀ k ∈ decisive, k ∉ inert := by decide
    intro k hk
    rw [contains_eq_mem, decide_eq_false_iff_not]
    intro hin
    rcases kindsIn_print (frames p) hin with hi | ⟨q, hq, hin⟩
    · exact hinert k hk hi
    · exact h q hq k hin hk
  unfold Unary.of? of?
  simp only [hno .not (by decide), hno .boundedCoalition (by decide), hno .or (by decide), hno .and (by decide),
    hno .implies (by decide), Bool.false_and, Bool.false_eq_true, if_false, and_self]

/-- Two models whose names, old and new, are not taken for operators. -/
structure Quiet (p : Pricing) (f : String → String) (m m' : Model) : Prop extends Renamed f m m' where
  calm : ∀ q ∈ m.states, Calm p q
  calm' : ∀ q ∈ m'.states, Calm p q

theorem quiet_refl (h : ∀ q ∈ m.states, Calm p q) : Quiet p id m m := ⟨renamed_refl m, h, h⟩

/-! ## Trees -/

/-- The texts of a set and of the set of new names, or the same label. -/
inductive Matched (f : String → String) (U : List String) : String → String → Prop
  | set {S S' : Names} (h : Renames f U S S') : Matched f U S.print S'.print
  | label {l : String} (h : Known l) : Matched f U l l

/-- Trees of the same shape with matched texts; those of leaves are sets. -/
inductive MatchedTree (f : String → String) (U : List String) : Tree → Tree → Prop
  | leaf {S S' : Names} (h : Renames f U S S') : MatchedTree f U (.leaf S.print) (.leaf S'.print)
  | unary {x x' : String} {a a' : Tree} (hx : Matched f U x x') (ha : MatchedTree f U a a') :
      MatchedTree f U (.unary x a) (.unary x' a')
  | binary {x x' : String} {a a' b b' : Tree} (hx : Matched f U x x') (ha : MatchedTree f U a a')
      (hb : MatchedTree f U b b') : MatchedTree f U (.binary x a b) (.binary x' a' b')

theorem MatchedTree.text (h : MatchedTree f U t t') : Matched f U t.text t'.text := by
  cases h with
  | leaf h => exact .set h
  | unary hx => exact hx
  | binary hx => exact hx

theorem Matched.read (h : Matched f U x x') : Agree (Renames f U) (Names.read x) (Names.read x') := by
  cases h with
  | set h =>
    rw [Names.read_print h.nodup, Names.read_print h.nodup']
    exact .ok h.sorted
  | label h =>
    obtain ⟨e, he⟩ := h.read
    rw [he]
    exact .error e

theorem Matched.eq (h : Matched id U x x') : x' = x := by
  cases h with
  | set h => exact Names.print_congr h.nodup' h.nodup fun x => by simp [h.mem]
  | label h => rfl

theorem MatchedTree.eq (h : MatchedTree id U t t') : t' = t := by
  induction h with
  | leaf h => rw [Matched.eq (.set h)]
  | unary hx _ ih => rw [hx.eq, ih]
  | binary hx _ _ iha ihb => rw [hx.eq, iha, ihb]

theorem renames_self (hS : S.Nodup) (h : ∀ q ∈ S, q ∈ U) : Renames id U S S := ⟨hS, hS, h, by simp⟩

theorem MatchedTree.fit (h : MatchedTree f U t t') : MatchedTree id U t t ∧ MatchedTree id (U.map f) t' t' := by
  have hset : ∀ {S S'}, Renames f U S S' → Renames id U S S ∧ Renames id (U.map f) S' S' := fun hS =>
    ⟨renames_self hS.nodup hS.inside, renames_self hS.nodup' hS.inside'⟩
  have htext : ∀ {x x'}, Matched f U x x' → Matched id U x x ∧ Matched id (U.map f) x' x' := by
    rintro x x' (hS | hl)
    · exact ⟨.set (hset hS).1, .set (hset hS).2⟩
    · exact ⟨.label hl, .label hl⟩
  induction h with
  | leaf hS => exact ⟨.leaf (hset hS).1, .leaf (hset hS).2⟩
  | unary hx _ ih => exact ⟨.unary (htext hx).1 ih.1, .unary (htext hx).2 ih.2⟩
  | binary hx _ _ iha ihb => exact ⟨.binary (htext hx).1 iha.1 ihb.1, .binary (htext hx).2 iha.2 ihb.2⟩

@[simp] theorem text_withText (t : Tree) (x : String) : (t.withText x).text = x := by cases t <;> rfl

@[simp] theorem withText_withText (t : Tree) (x y : String) : (t.withText x).withText y = t.withText y := by
  cases t <;> rfl

theorem withText_text (t : Tree) : t.withText t.text = t := by cases t <;> rfl

namespace Quiet

variable (h : Quiet p f m m')

include h

theorem of?_print (hS : Renames f m.states S S') : (Unary.of? p S.print = none ∧ of? p S.print = none) ∧
    Unary.of? p S'.print = none ∧ of? p S'.print = none :=
  ⟨of?_calm fun q hq => h.calm q (hS.inside q hq), of?_calm fun q hq => h.calm' q (h.mem_states hS q hq)⟩

theorem of?_eq (hx : Matched f m.states x x') : Unary.of? p x' = Unary.of? p x ∧ of? p x' = of? p x := by
  cases hx with
  | set hS =>
    obtain ⟨hu, hb⟩ := h.of?_print hS
    rw [hu.1, hu.2, hb.1, hb.2]
    exact ⟨rfl, rfl⟩
  | label hl => exact ⟨rfl, rfl⟩

theorem label_of_operator (hx : Matched f m.states x x') (hop : Unary.of? p x ≠ none ∨ of? p x ≠ none) :
    x' = x ∧ Known x := by
  cases hx with
  | set hS =>
    obtain ⟨hu, -⟩ := h.of?_print hS
    rw [hu.1, hu.2] at hop
    simp at hop
  | label hl => exact ⟨rfl, hl⟩

end Quiet

/-- The text of a solved node: no operator is seen in it, and it is the old one if none was seen there. -/
def Keeps {ω : Type} (of? : String → Option ω) (l x : String) : Prop := of? x = none ∧ (of? l = none → x = l)

/-- A tree in whose inner nodes no operator is seen. -/
def Settled (p : Pricing) : Tree → Prop
  | .leaf _ => True
  | .unary x a => Unary.of? p x = none ∧ Settled p a
  | .binary x l r => of? p x = none ∧ Settled p l ∧ Settled p r

/-- The second tree has the shape of the first one, and its nodes are solved. -/
def Solved (p : Pricing) : Tree → Tree → Prop
  | .leaf x, t => t = .leaf x
  | .unary l a, t => ∃ x a', t = .unary x a' ∧ Keeps (Unary.of? p) l x ∧ Solved p a a'
  | .binary l a b, t => ∃ x a' b', t = .binary x a' b' ∧ Keeps (of? p) l x ∧ Solved p a a' ∧ Solved p b b'

/-- The depth of the calls that solve a tree: an operator may call for lower bounds. -/
def need (p : Pricing) : Tree → Nat
  | .leaf _ => 1
  | .unary x a => (if Unary.of? p x = none then 0 else labelWeight x) + need p a + 1
  | .binary x l r => (if of? p x = none then 0 else labelWeight x) + need p l + need p r + 1

theorem Solved.settled : ∀ {t t' : Tree}, Solved p t t' → Settled p t'
  | .leaf _, _, h => by
    rw [h]
    trivial
  | .unary _ _, _, h => by
    obtain ⟨x, a', rfl, hx, ha⟩ := h
    exact ⟨hx.1, ha.settled⟩
  | .binary _ _ _, _, h => by
    obtain ⟨x, a', b', rfl, hx, ha, hb⟩ := h
    exact ⟨hx.1, ha.settled, hb.settled⟩

theorem Solved.need_le : ∀ {t t' : Tree}, Solved p t t' → need p t' ≤ need p t
  | .leaf _, _, h => by rw [h]
  | .unary _ _, _, h => by
    obtain ⟨x, a', rfl, hx, ha⟩ := h
    have := ha.need_le
    simp only [need, hx.1, if_true]
    omega
  | .binary _ _ _, _, h => by
    obtain ⟨x, a', b', rfl, hx, ha, hb⟩ := h
    have := ha.need_le
    have := hb.need_le
    simp only [need, hx.1, if_true]
    omega

theorem Solved.eq_of_settled : ∀ {t t' : Tree}, Settled p t → Solved p t t' → t' = t
  | .leaf _, _, _, h => h
  | .unary _ _, _, hs, h => by
    obtain ⟨x, a', rfl, hx, ha⟩ := h
    rw [hx.2 hs.1, ha.eq_of_settled hs.2]
  | .binary _ _ _, _, hs, h => by
    obtain ⟨x, a', b', rfl, hx, ha, hb⟩ := h
    rw [hx.2 hs.1, ha.eq_of_settled hs.2.1, hb.eq_of_settled hs.2.2]

/-! ## Operators -/

/-- Two trees with given subformulas and matched texts. -/
def Above (f : String → String) (U : List String) (base base' t t' : Tree) : Prop :=
  ∃ x x', Matched f U x x' ∧ t = base.withText x ∧ t' = base'.withText x'

/-- Two trees with given subformulas and the texts of a set and of the set of new names. -/
def Written (f : String → String) (U : List String) (base base' t t' : Tree) : Prop :=
  ∃ S S' : Names, Renames f U S S' ∧ t = base.withText S.print ∧ t' = base'.withText S'.print

section Operators

variable {label letter coalition : String} {bound : Bound} (base base' : Tree) (hknown : Known label)
  (hread : readLabel label = .ok (coalition, bound))
  (hagain : ∀ lower, Known lower → labelWeight lower < labelWeight label →
    Tandem I (Above f m.states base base') (again (base.withText lower)) (again' (base'.withText lower)))

include hknown hread hagain

theorem tandem_lower {step step' : Names → Bound → Outcome Names} {extend extend' : Names → Names → Outcome Names}
    (hstep : ∀ {S S'} b, Renames f m.states S S' → Agree (Renames f m.states) (step S b) (step' S' b))
    (hextend : ∀ {S S' T T'}, Renames f m.states S S' → Renames f m.states T T' →
      Agree (Renames f m.states) (extend S T) (extend' S' T')) (hzero : isZero bound = false) :
    Tandem I (Written f m.states base base')
      (do
        let (S, node) ← eachBound step extend again label letter bound (vectors bound) (zeros bound) [] base
        return node.withText S.print)
      (do
        let (S, node) ← eachBound step' extend' again' label letter bound (vectors bound) (zeros bound) [] base'
        return node.withText S.print) := by
  obtain ⟨before, hmem, hfold, -⟩ := eachBound_fold (hknown.nonneg hread) hzero
  rw [hfold, hfold]
  refine tandem_bind (tandem_foldlM (R := fun r r' => Renames f m.states r.1 r'.1 ∧
    ∃ x x', r.2 = base.withText x ∧ r'.2 = base'.withText x') (fun v hv => ?_)
      ⟨renames_nil, _, _, (withText_text base).symm, (withText_text base').symm⟩) ?_
  · rintro ⟨found, _⟩ ⟨found', _⟩ ⟨hfound, x, x', rfl, rfl⟩
    obtain ⟨hbelow, hne⟩ := hmem v hv
    obtain ⟨lower, hlower, hk, hweight⟩ := hknown.relabel hread hbelow letter
    have hless : labelWeight lower < labelWeight label := by
      rw [hweight, labelWeight_eq hread]
      exact hbelow.total_lt hne
    simp only [solveLower, hlower, lift_ok, pure_bind, withText_withText]
    refine tandem_bind (hagain lower hk hless) ?_
    rintro _ _ ⟨y, y', hy, rfl, rfl⟩
    simp only [text_withText]
    refine tandem_bind (tandem_lift hy.read) fun target target' htarget => ?_
    simp only [difference_eq hbelow]
    refine tandem_bind (tandem_lift (hstep _ htarget)) fun first first' hfirst => ?_
    exact tandem_bind (tandem_lift (hextend hfound hfirst)) fun more more' hmore => tandem_pure ⟨hmore, y, y', rfl, rfl⟩
  · rintro ⟨R, _⟩ ⟨R', _⟩ ⟨hR, x, x', rfl, rfl⟩
    exact tandem_pure ⟨_, _, hR, withText_withText .., withText_withText ..⟩

variable (hlabel : base.text = label) (hlabel' : base'.text = label) (h : Renamed f m m') {target target' : Names}
  (htarget : Renames f m.states target target')

include hlabel hlabel' h htarget

theorem tandem_reach (hthrough : Renames f m.states through through') :
    Tandem I (Written f m.states base base') (solveReach p m again base letter coalition bound through target)
      (solveReach p m' again' base' letter coalition bound through' target') := by
  have hstep : ∀ {S S'} b, Renames f m.states S S' → _ := h.agree_pre_inter (p := p) coalition hthrough
  unfold solveReach
  simp only [hlabel, hlabel', h.rounds_eq htarget]
  by_cases hzero : isZero bound = true
  · simp only [hzero]
    refine tandem_bind (tandem_lift (agree_grow h.inj (hstep bound) _ renames_nil htarget)) fun R R' hR => ?_
    exact tandem_pure ⟨_, _, hR, rfl, rfl⟩
  · simp only [hzero]
    refine tandem_lower base base' hknown hread hagain hstep (fun {S S' T T'} hS hT => ?_) (by simpa using hzero)
    rw [h.rounds_eq hT]
    exact agree_grow h.inj (hstep _) _ hS hT

theorem tandem_keep : Tandem I (Written f m.states base base') (solveKeep p m again base coalition bound target)
    (solveKeep p m' again' base' coalition bound target') := by
  have hstep : ∀ {S S'} b, Renames f m.states S S' → _ := h.agree_pre_inter (p := p) coalition htarget
  unfold solveKeep
  simp only [hlabel, hlabel', h.rounds_eq htarget]
  by_cases hzero : isZero bound = true
  · simp only [hzero]
    refine tandem_bind (tandem_lift (agree_shrink h.inj (hstep bound) _ h.renames_stateSet htarget)) fun R R' hR => ?_
    exact tandem_pure ⟨_, _, hR, rfl, rfl⟩
  · simp only [hzero]
    refine tandem_lower base base' hknown hread hagain hstep (fun {S S' T T'} hS hT => ?_) (by simpa using hzero)
    rw [h.rounds_eq hT, hS.subset h.inj hT]
    split
    · exact .ok hS
    · exact agree_grow h.inj (hstep _) _ hS hT

end Operators

/-! ## Nodes -/

/-- Solves the root of a tree, and its subformulas by another computation. -/
def solveNode (p : Pricing) (m : Model) (again : Tree → Solving Tree) : Tree → Solving Tree
  | .leaf x => solveOne p m again (.leaf x) none
  | .unary x a => do
    let a ← again a
    solveOne p m again (.unary x a) (some a.text)
  | .binary x l r => do
    let l ← again l
    let r ← again r
    solveTwo p m again (.binary x l r) l.text r.text

/-- The subformulas of the second tree are what a computation gives for those of the first. -/
def Parts (again : Tree → Solving Tree) : Tree → Tree → Prop
  | .leaf _, _ => True
  | .unary _ a, t => ∃ a', value (again a) = .ok a' ∧ t = .unary t.text a'
  | .binary _ l r, t => ∃ l' r', value (again l) = .ok l' ∧ value (again r) = .ok r' ∧ t = .binary t.text l' r'

theorem solveOne_rests (node : Tree) (h : Unary.of? p node.text = none) (arg : Option String) :
    solveOne p m again node arg = pure node := by
  unfold solveOne
  rw [h]

theorem solveTwo_rests (node : Tree) (h : of? p node.text = none) (left right : String) :
    solveTwo p m again node left right = pure node := by
  unfold solveTwo
  rw [h]

/-- The second two trees are what is left of the first two when their nodes are solved. -/
structure Twins (p : Pricing) (f : String → String) (U : List String) (t t' u u' : Tree) : Prop where
  matched : MatchedTree f U u u'
  solved : Solved p t u
  solved' : Solved p t' u'

section Nodes

variable (h : Quiet p f m m')

include h

theorem tandem_one {a a' : Tree} (hx : Matched f m.states x x') (ha : MatchedTree f m.states a a')
    (hagain : Unary.of? p x ≠ none → ∀ lower, Known lower → labelWeight lower < labelWeight x →
      Tandem I (Above f m.states (.unary x a) (.unary x' a')) (again (.unary lower a)) (again' (.unary lower a'))) :
    Tandem I (fun u u' => ∃ y y', Matched f m.states y y' ∧ (Keeps (Unary.of? p) x y ∧ Keeps (Unary.of? p) x' y') ∧
        u = .unary y a ∧ u' = .unary y' a')
      (solveOne p m again (.unary x a) (some a.text)) (solveOne p m' again' (.unary x' a') (some a'.text)) := by
  by_cases hop : Unary.of? p x = none
  · have hop' := (h.of?_eq hx).1.trans hop
    rw [solveOne_rests (.unary x a) hop, solveOne_rests (.unary x' a') hop']
    exact tandem_pure ⟨x, x', hx, ⟨⟨hop, fun _ => rfl⟩, hop', fun _ => rfl⟩, rfl, rfl⟩
  obtain ⟨rfl, hknown⟩ := h.label_of_operator hx (.inl hop)
  have hlower := hagain hop
  have harg := tandem_lift (I := I) ha.text.read
  -- an operator gives the text of a set
  refine Tandem.mono (R := Written f m.states (.unary x' a) (.unary x' a')) ?_ ?_
  swap
  · rintro u u' ⟨S, S', hS, rfl, rfl⟩
    obtain ⟨hu, hu'⟩ := h.of?_print hS
    exact ⟨_, _, .set hS, ⟨⟨hu.1, fun hn => absurd hn hop⟩, hu'.1, fun hn => absurd hn hop⟩, rfl, rfl⟩
  unfold solveOne
  obtain ⟨op, hop⟩ := Option.ne_none_iff_exists'.1 hop
  simp only [Tree.text, hop]
  cases op with
  | not =>
    refine tandem_bind harg fun S S' hS => ?_
    exact tandem_pure ⟨_, _, h.renames_stateSet.diff h.inj hS, rfl, rfl⟩
  | globally =>
    refine tandem_bind (tandem_same _) ?_
    rintro ⟨coalition, bound⟩ _ ⟨rfl, hread⟩
    by_cases hp : p = .perAgent
    · simp only [hp]
      exact tandem_bind (R := fun _ _ => False) (tandem_throw _) fun _ _ h => h.elim
    · simp only [hp]
      refine tandem_bind harg fun S S' hS => ?_
      exact tandem_keep _ _ hknown hread hlower rfl rfl h.toRenamed hS
  | next =>
    refine tandem_bind (tandem_same _) ?_
    rintro ⟨coalition, bound⟩ _ ⟨rfl, hread⟩
    refine tandem_bind harg fun S S' hS => ?_
    refine tandem_bind (tandem_lift (h.agree_pre coalition hS bound)) fun R R' hR => ?_
    exact tandem_pure ⟨_, _, hR, rfl, rfl⟩
  | eventually =>
    refine tandem_bind (tandem_same _) ?_
    rintro ⟨coalition, bound⟩ _ ⟨rfl, hread⟩
    refine tandem_bind harg fun S S' hS => ?_
    exact tandem_reach _ _ hknown hread hlower rfl rfl h.toRenamed hS h.renames_stateSet

theorem tandem_two {a a' b b' : Tree} (hx : Matched f m.states x x') (ha : MatchedTree f m.states a a')
    (hb : MatchedTree f m.states b b')
    (hagain : of? p x ≠ none → ∀ lower, Known lower → labelWeight lower < labelWeight x →
      Tandem I (Above f m.states (.binary x a b) (.binary x' a' b')) (again (.binary lower a b))
        (again' (.binary lower a' b'))) :
    Tandem I (fun u u' => ∃ y y', Matched f m.states y y' ∧ (Keeps (of? p) x y ∧ Keeps (of? p) x' y') ∧
        u = .binary y a b ∧ u' = .binary y' a' b')
      (solveTwo p m again (.binary x a b) a.text b.text) (solveTwo p m' again' (.binary x' a' b') a'.text b'.text) := by
  by_cases hop : of? p x = none
  · have hop' := (h.of?_eq hx).2.trans hop
    rw [solveTwo_rests (.binary x a b) hop, solveTwo_rests (.binary x' a' b') hop']
    exact tandem_pure ⟨x, x', hx, ⟨⟨hop, fun _ => rfl⟩, hop', fun _ => rfl⟩, rfl, rfl⟩
  obtain ⟨rfl, hknown⟩ := h.label_of_operator hx (.inr hop)
  have hlower := hagain hop
  have hleft := tandem_lift (I := I) ha.text.read
  have hright := tandem_lift (I := I) hb.text.read
  refine Tandem.mono (R := Written f m.states (.binary x' a b) (.binary x' a' b')) ?_ ?_
  swap
  · rintro u u' ⟨S, S', hS, rfl, rfl⟩
    obtain ⟨hu, hu'⟩ := h.of?_print hS
    exact ⟨_, _, .set hS, ⟨⟨hu.2, fun hn => absurd hn hop⟩, hu'.2, fun hn => absurd hn hop⟩, rfl, rfl⟩
  unfold solveTwo
  obtain ⟨op, hop⟩ := Option.ne_none_iff_exists'.1 hop
  simp only [Tree.text, hop]
  cases op with
  | or =>
    refine tandem_bind hleft fun S S' hS => tandem_bind hright fun T T' hT => ?_
    exact tandem_pure ⟨_, _, hS.union hT, rfl, rfl⟩
  | untl =>
    refine tandem_bind (tandem_same _) ?_
    rintro ⟨coalition, bound⟩ _ ⟨rfl, hread⟩
    refine tandem_bind hleft fun S S' hS => tandem_bind hright fun T T' hT => ?_
    exact tandem_reach _ _ hknown hread hlower rfl rfl h.toRenamed hT hS
  | and =>
    refine tandem_bind hleft fun S S' hS => tandem_bind hright fun T T' hT => ?_
    exact tandem_pure ⟨_, _, hS.inter h.inj hT, rfl, rfl⟩
  | implies =>
    refine tandem_bind hleft fun S S' hS => tandem_bind hright fun T T' hT => ?_
    exact tandem_pure ⟨_, _, (h.renames_stateSet.diff h.inj hS).union hT, rfl, rfl⟩

/-- Two ways of solving subformulas that agree on smaller trees agree on the whole. -/
theorem tandem_node {n : Nat} (hagain : ∀ {t t'}, MatchedTree f m.states t t' → need p t ≤ n →
      Tandem I (Twins p f m.states t t') (again t) (again' t')) (ht : MatchedTree f m.states t t')
    (hneed : need p t ≤ n + 1) : Tandem I (fun u u' => Twins p f m.states t t' u u' ∧ Parts again' t' u')
      (solveNode p m again t) (solveNode p m' again' t') := by
  cases ht with
  | @leaf S S' hS =>
    obtain ⟨hu, hu'⟩ := h.of?_print hS
    simp only [solveNode]
    rw [solveOne_rests (.leaf S.print) hu.1, solveOne_rests (.leaf S'.print) hu'.1]
    exact tandem_pure ⟨⟨.leaf hS, rfl, rfl⟩, trivial⟩
  | unary hx ha =>
    simp only [need] at hneed
    refine tandem_bind (hagain ha (by omega)).value_eq fun a a' ⟨⟨ha, hs, hs'⟩, hvalue⟩ => ?_
    have hle := hs.need_le
    refine (tandem_one h hx ha fun hop lower hk hw => ?_).mono ?_
    · simp only [if_neg hop] at hneed
      refine (hagain (.unary (.label hk) ha) ?_).mono ?_
      · simp only [need]
        split <;> omega
      · -- the subformula is solved already, so only the text of the node changes
        rintro u u' ⟨hu, ⟨y, b, rfl, -, hb⟩, y', b', rfl, -, hb'⟩
        rw [hb.eq_of_settled hs.settled, hb'.eq_of_settled hs'.settled]
        exact ⟨y, y', hu.text, rfl, rfl⟩
    · rintro u u' ⟨y, y', hy, ⟨hk, hk'⟩, rfl, rfl⟩
      exact ⟨⟨.unary hy ha, ⟨y, a, rfl, hk, hs⟩, y', a', rfl, hk', hs'⟩, a', hvalue, rfl⟩
  | binary hx ha hb =>
    simp only [need] at hneed
    refine tandem_bind (hagain ha (by omega)).value_eq fun a a' ⟨⟨ha, hsa, hsa'⟩, hvalueA⟩ => ?_
    refine tandem_bind (hagain hb (by omega)).value_eq fun b b' ⟨⟨hb, hsb, hsb'⟩, hvalueB⟩ => ?_
    have hleA := hsa.need_le
    have hleB := hsb.need_le
    refine (tandem_two h hx ha hb fun hop lower hk hw => ?_).mono ?_
    · simp only [if_neg hop] at hneed
      refine (hagain (.binary (.label hk) ha hb) ?_).mono ?_
      · simp only [need]
        split <;> omega
      · rintro u u' ⟨hu, ⟨y, c, d, rfl, -, hc, hd⟩, y', c', d', rfl, -, hc', hd'⟩
        rw [hc.eq_of_settled hsa.settled, hd.eq_of_settled hsb.settled, hc'.eq_of_settled hsa'.settled,
          hd'.eq_of_settled hsb'.settled]
        exact ⟨y, y', hu.text, rfl, rfl⟩
    · rintro u u' ⟨y, y', hy, ⟨hk, hk'⟩, rfl, rfl⟩
      exact ⟨⟨.binary hy ha hb, ⟨y, a, b, rfl, hk, hsa, hsb⟩, y', a', b', rfl, hk', hsa', hsb'⟩, a', b', hvalueA, hvalueB,
        rfl⟩

end Nodes

end Arena.Checker.Bounded
