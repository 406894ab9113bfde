/-
Solving with a memory. As long as every remembered text is that of the solution of its tree, solving a tree answers with
its solution and remembers only such texts.
-/
import Arena.Proofs.Checker.Tandem

namespace Arena.Checker.Bounded

variable {p : Pricing} {m : Model} {t' t : Tree}

/-! ## Solutions -/

/-- A tree as it comes from a formula, or with some of its nodes solved. -/
abbrev Fit (m : Model) (t : Tree) : Prop := MatchedTree id m.states t t

/-- Solves a tree without a memory. -/
def direct (p : Pricing) (m : Model) : Nat → Tree → Outcome Tree
  | 0, _ => .error .endless
  | fuel + 1, t => value (solveNode p m (fun t => lift (direct p m fuel t)) t)

def solution (p : Pricing) (m : Model) (t : Tree) : Outcome Tree := direct p m (need p t) t

theorem need_pos (p : Pricing) (t : Tree) : 0 < need p t := by cases t <;> exact Nat.succ_pos _

theorem need_le_depth (p : Pricing) : ∀ t, need p t ≤ depth t
  | .leaf x => by simp [need, depth]
  | .unary x a => by
    have := need_le_depth p a
    simp only [need, depth]
    split <;> omega
  | .binary x l r => by
    have := need_le_depth p l
    have := need_le_depth p r
    simp only [need, depth]
    split <;> omega

section Solutions

variable (hnames : ∀ q ∈ m.states, Calm p q)

include hnames

/-- With enough fuel, solving a tree goes by the solutions of its subformulas and of the trees for lower bounds. -/
theorem direct_eq (n : Nat) : ∀ t, Fit m t → need p t ≤ n →
    direct p m n t = value (solveNode p m (fun t => lift (solution p m t)) t) ∧
      ∀ t', direct p m n t = .ok t' → Twins p id m.states t t t' t' ∧ Parts (fun t => lift (solution p m t)) t t' := by
  induction n using Nat.strongRecOn with
  | ind n ih =>
    intro t hfit hneed
    obtain ⟨n, rfl⟩ := Nat.exists_eq_succ_of_ne_zero (by have := need_pos p t; omega : n ≠ 0)
    have hagain : ∀ {t t'}, MatchedTree id m.states t t' → need p t ≤ n →
        Tandem (fun _ => True) (Twins p id m.states t t') (lift (direct p m n t)) (lift (solution p m t')) := by
      intro t t' ht hle
      obtain rfl := ht.eq
      -- the fuel is enough here as it is for the solution
      obtain ⟨heq, hpost⟩ := ih n (Nat.lt_succ_self n) _ ht hle
      have hsol := (ih (need p t') (by omega) _ ht le_rfl).1
      rw [show direct p m n t' = solution p m t' from heq.trans hsol.symm] at hpost ⊢
      refine (tandem_same _).mono ?_
      rintro u _ ⟨rfl, hu⟩
      exact (hpost u hu).1
    obtain ⟨r, mem, -, hrun, hagree⟩ := (tandem_node (quiet_refl hnames) hagain hfit hneed).run [] trivial
    have hdirect : direct p m (n + 1) t = r := by
      change ((solveNode p m (fun t => lift (direct p m n t)) t).run.run []).1 = _
      rw [hrun]
    rw [hdirect]
    refine ⟨hagree.eq fun _ _ h => h.1.matched.eq, ?_⟩
    rintro t' rfl
    generalize value (solveNode p m (fun t => lift (solution p m t)) t) = r' at hagree
    cases hagree with
    | ok h =>
      obtain rfl := h.1.matched.eq
      exact h

variable (hfit : Fit m t)

include hfit

theorem solution_eq : solution p m t = value (solveNode p m (fun t => lift (solution p m t)) t) :=
  (direct_eq hnames _ t hfit le_rfl).1

theorem solution_twins (h : solution p m t = .ok t') : Twins p id m.states t t t' t' :=
  ((direct_eq hnames _ t hfit le_rfl).2 t' h).1

theorem solution_parts (h : solution p m t = .ok t') : Parts (fun t => lift (solution p m t)) t t' :=
  ((direct_eq hnames _ t hfit le_rfl).2 t' h).2

end Solutions

/-! ## Memories -/

/-- The tree whose text is the remembered solution, if there is one. -/
def recalled (mem : Memory) (t : Tree) : Tree :=
  match remembered? mem t with
  | some s => t.withText s
  | none => t

theorem recalled_nil (t : Tree) : recalled [] t = t := rfl

theorem solve_succ (fuel : Nat) (key : Tree) : solve p m (fuel + 1) key = (do
    let node ← solveNode p m (solve p m fuel) (recalled (← get) key)
    modify fun mem => if (remembered? mem key).isSome then mem else mem ++ [(key, node.text)]
    return node) := by
  refine bind_congr fun mem => ?_
  -- what follows the node is written once for each shape of it
  unfold recalled
  cases remembered? mem key <;> cases key <;> simp only [Tree.withText, solveNode, bind_assoc]

/-- Every remembered text is that of a solution. -/
def Sound (p : Pricing) (m : Model) (mem : Memory) : Prop :=
  ∀ e ∈ mem, ∃ node, solution p m e.1 = .ok node ∧ node.text = e.2

theorem sound_nil : Sound p m [] := fun _ he => by cases he

/-- A remembered solution in place of an operator leads to the same solution. -/
theorem recalled_spec (hnames : ∀ q ∈ m.states, Calm p q) {mem : Memory} (hmem : Sound p m mem) (hfit : Fit m t) :
    Fit m (recalled mem t) ∧ need p (recalled mem t) ≤ need p t ∧
      solution p m (recalled mem t) = solution p m t := by
  unfold recalled
  cases hs : remembered? mem t with
  | none => exact ⟨hfit, le_rfl, rfl⟩
  | some s =>
    obtain ⟨e, he, rfl⟩ := Option.map_eq_some_iff.1 hs
    have hkey : e.1 = t := by simpa using List.find?_some he
    obtain ⟨node, hnode, htext⟩ := hmem e (List.mem_of_find?_eq_some he)
    rw [hkey] at hnode
    obtain ⟨hmatched, hsolved, -⟩ := solution_twins hnames hfit hnode
    have hparts := solution_parts hnames hfit hnode
    simp only [← htext]
    cases t with
    | leaf x =>
      rw [hsolved]
      exact ⟨hfit, le_rfl, rfl⟩
    | unary l a =>
      obtain ⟨x, a', rfl, hx, -⟩ := hsolved
      obtain ⟨a'', ha, heq⟩ := hparts
      cases heq
      have hfit' : Fit m (.unary x a) := by
        cases hfit with | unary _ ha => exact .unary hmatched.text ha
      refine ⟨hfit', ?_, ?_⟩
      · simp only [Tree.withText, Tree.text, need, hx.1, if_true]
        omega
      · change solution p m (.unary x a) = _
        rw [solution_eq hnames hfit', hnode, solveNode, show solution p m a = .ok a' from ha]
        exact congrArg value (solveOne_rests (.unary x a') hx.1 _)
    | binary l a b =>
      obtain ⟨x, a', b', rfl, hx, -⟩ := hsolved
      obtain ⟨a'', b'', ha, hb, heq⟩ := hparts
      cases heq
      have hfit' : Fit m (.binary x a b) := by
        cases hfit with | binary _ ha hb => exact .binary hmatched.text ha hb
      refine ⟨hfit', ?_, ?_⟩
      · simp only [Tree.withText, Tree.text, need, hx.1, if_true]
        omega
      · change solution p m (.binary x a b) = _
        rw [solution_eq hnames hfit', hnode, solveNode, show solution p m a = .ok a' from ha,
          show solution p m b = .ok b' from hb]
        exact congrArg value (solveTwo_rests (.binary x a' b') hx.1 _ _)

/-- Whatever a sound memory holds, solving a tree answers with its solution and leaves a sound memory. -/
theorem tandem_solve (hnames : ∀ q ∈ m.states, Calm p q) : ∀ (n : Nat) {t : Tree}, Fit m t → need p t ≤ n →
    Tandem (Sound p m) (Twins p id m.states t t) (solve p m n t) (lift (solution p m t))
  | 0, t, _, hneed => by
    have := need_pos p t
    omega
  | n + 1, t, hfit, hneed => by
    refine ⟨solution p m t, _, (agree_refl _).mono ?_, fun _ => rfl, fun mem hmem => ?_⟩
    · rintro u _ ⟨rfl, hu⟩
      exact solution_twins hnames hfit hu
    obtain ⟨hfit', hneed', hsame⟩ := recalled_spec hnames hmem hfit
    have hagain : ∀ {u u'}, MatchedTree id m.states u u' → need p u ≤ n →
        Tandem (Sound p m) (Twins p id m.states u u') (solve p m n u) (lift (solution p m u')) := by
      intro u u' hu hle
      obtain rfl := hu.eq
      exact tandem_solve hnames n hu hle
    obtain ⟨r, mem', hmem', hrun, hagree⟩ :=
      (tandem_node (quiet_refl hnames) hagain hfit' (hneed'.trans hneed)).run mem hmem
    rw [hagree.eq fun _ _ h => h.1.matched.eq, ← solution_eq hnames hfit', hsame] at hrun
    rw [solve_succ, run_bind_ok (show (get : Solving Memory).run.run mem = (.ok mem, mem) from rfl)]
    cases hsol : solution p m t with
    | error e =>
      rw [hsol] at hrun
      exact ⟨mem', hmem', run_bind_error hrun⟩
    | ok node =>
      rw [hsol] at hrun
      refine ⟨if (remembered? mem' t).isSome then mem' else mem' ++ [(t, node.text)], ?_, by rw [run_bind_ok hrun]; rfl⟩
      split
      · exact hmem'
      · intro e he
        rcases List.mem_append.1 he with he | he
        · exact hmem' e he
        · cases List.mem_singleton.1 he
          exact ⟨node, hsol, rfl⟩

end Arena.Checker.Bounded
