/-
The branching-time checker is exact: each operator, the `until` over every path apart, computes the states where it
holds over paths, also on graphs with dead ends. The `until` over every path gives the states of its second argument,
which is right only where no other state has to step into them.
-/
import Arena.Proofs.Checker.Plain
import Arena.Proofs.Checker.Sentence

namespace Arena.Checker.Branching

open Names Binary List

variable {s t : Names} {q l : String} {m : Model} {es : Edges} {P : String → Prop} {φ ψ : Names} {op : Binary}

/-! ## Predecessors -/

section Apply

variable (h : m.Fits) (hes : m.edges = .ok es)

include hes

theorem yields_somePre (s : Names) : Yields (.ok (somePre es s)) (somePred m.Edge s.toSet) := by
  refine yields_ok.2 ⟨nodup_ofList _, Set.ext fun q => ?_⟩
  simp only [somePre, mem_toSet, mem_ofList, mem_map, mem_filter, contains_iff_mem,
    Prod.exists, somePred, Model.edge_iff_mem hes]
  constructor
  · rintro ⟨q', r, ⟨he, hr⟩, rfl⟩
    exact ⟨r, he, hr⟩
  · rintro ⟨r, he, hr⟩
    exact ⟨q, r, ⟨he, hr⟩, rfl⟩

theorem yields_allPre (s : Names) :
    Yields (.ok (allPre es m.states s)) {q | q ∈ m.states ∧ q ∈ everyPred m.Edge s.toSet} := by
  refine yields_ok.2 ⟨nodup_ofList _, Set.ext fun q => ?_⟩
  simp only [allPre, mem_toSet, mem_ofList, mem_filter, all_eq_true, Bool.or_eq_true,
    decide_eq_true_eq, contains_iff_mem, Prod.forall, everyPred, Model.edge_iff_mem hes]
  refine and_congr_right fun _ => ⟨fun h r he => ?_, fun h q' r he => ?_⟩
  · exact (h q r he).resolve_left fun hne => hne rfl
  · by_cases hq : q' = q
    · exact .inr (h r (hq ▸ he))
    · exact .inl hq

/-! ## Loops -/

include h

theorem computes_somePre : Computes m.stateSet (fun t => .ok (somePre es t)) (somePred m.Edge) where
  mono := somePred_mono
  inside := by
    rintro X q ⟨r, he, -⟩
    exact mem_ofList.2 (h.edge_mem he).1
  value p _ := yields_somePre hes p

theorem yields_reaching (hs : Within m s) :
    Yields (.ok (reaching m.states es s)) {q | Unary.Holds m.Edge .someEventually (· ∈ s.toSet) q} := by
  have := length_stateSet m
  exact yields_stable_union (computes_somePre h hes) hs.1 hs.toSet_subset (by omega) (isLeast_someEventually s.toSet)

theorem yields_staying (hs : Within m s) :
    Yields (.ok (staying m.states es s)) {q | Unary.Holds m.Edge .someGlobally (· ∈ s.toSet) q} := by
  have : (ofList m.states).length ≤ m.states.length := length_stateSet m
  exact yields_stable_inter (computes_somePre h hes) (nodup_stateSet m) hs.1 hs.toSet_subset (by omega)
    (isGreatest_someGlobally s.toSet)

theorem yields_through (hs : s.Nodup) (ht : Within m t) :
    Yields (.ok (through m.states es s t)) {q | Holds m.Edge .someUntil (· ∈ s.toSet) (· ∈ t.toSet) q} := by
  have hlen := length_stateSet m
  have hstep : Computes m.stateSet (fun p => .ok (s.inter (somePre es p))) fun X => s.toSet ∩ somePred m.Edge X :=
    { mono := fun X Y hXY => Set.inter_subset_inter_right _ (somePred_mono hXY)
      inside := fun X => Set.inter_subset_right.trans ((computes_somePre h hes).inside X)
      value := fun p _ => by
        have hp := (yields_ok.1 (yields_somePre hes p)).2
        exact yields_ok.2 ⟨nodup_inter hs, by rw [toSet_inter, hp]⟩ }
  exact yields_stable_union hstep ht.1 ht.toSet_subset (by omega) (isLeast_someUntil s.toSet t.toSet)

/-! ## Operators -/

omit hes

theorem mem_of_someUntil (htU : ∀ q ∈ t, q ∈ m.states) (hq : Holds m.Edge .someUntil P (· ∈ t.toSet) q) : q ∈ m.states := by
  obtain ⟨n, π, hπ, -, hn⟩ := hq
  cases n with
  | zero => exact htU q (hπ.1 ▸ hn)
  | succ n => exact (h.edge_mem hπ.tail.1).1

theorem mem_of_someEventually (hsU : ∀ q ∈ s, q ∈ m.states)
    (hq : Unary.Holds m.Edge .someEventually (· ∈ s.toSet) q) : q ∈ m.states :=
  mem_of_someUntil h hsU (someEventually_iff_until.1 hq)

theorem mem_of_someGlobally (hq : Unary.Holds m.Edge .someGlobally P q) : q ∈ m.states := by
  obtain ⟨π, hπ, -⟩ := hq
  exact (h.edge_mem hπ.tail.1).1

theorem Unary.yields_apply (hs : Within m s) (op : Unary) :
    Yields (op.apply m s) {q | q ∈ m.states ∧ op.Holds m.Edge (· ∈ s.toSet) q} := by
  obtain ⟨es, hes, -⟩ := h.edges_spec
  have hU : ∀ p ∈ {q | q ∈ m.states}, ∀ r, m.Edge p r → r ∈ {q | q ∈ m.states} := fun p _ r he => (h.edge_mem he).2
  -- the complement of the argument, for the operators that are computed through it
  have hdiff : ∀ q, q ∈ (m.stateSet.diff s).toSet ↔ q ∈ {q | q ∈ m.states} ∧ ¬ q ∈ s.toSet := by
    intro q
    rw [toSet_diff, toSet_stateSet]
    rfl
  have hd : Within m (m.stateSet.diff s) := within_stateSet.diff s
  unfold apply
  cases op with
  | not => exact (yields_ok.2 ⟨hs.1, rfl⟩).compl fun q _ => Iff.rfl
  | someNext =>
    simp only [hes]
    rw [inside_eq fun q ⟨r, he, _⟩ => (h.edge_mem he).1]
    exact yields_somePre hes s
  | everyNext =>
    simp only [hes]
    exact yields_allPre hes s
  | someEventually =>
    simp only [hes]
    rw [inside_eq fun q => mem_of_someEventually h hs.2]
    exact yields_reaching h hes hs
  | everyEventually =>
    simp only [hes]
    refine (yields_staying h hes hd).compl fun q hq => ?_
    simp only [hdiff]
    rw [everyEventually_iff_not, someGlobally_within hU hq]
  | someGlobally =>
    simp only [hes]
    rw [inside_eq fun q => mem_of_someGlobally h]
    exact yields_staying h hes hs
  | everyGlobally =>
    simp only [hes]
    refine (yields_reaching h hes hd).compl fun q hq => ?_
    simp only [hdiff]
    rw [everyGlobally_iff_not, someEventually_within hU hq]

/-- Each operator on two sets but the `until` over every path computes the states where it holds. -/
theorem Binary.yields_apply (hs : Within m s) (ht : Within m t) (op : Binary) (hop : op ≠ .everyUntil) :
    Yields (op.apply m s t) {q | q ∈ m.states ∧ op.Holds m.Edge (· ∈ s.toSet) (· ∈ t.toSet) q} := by
  obtain ⟨es, hes, -⟩ := h.edges_spec
  unfold apply
  cases op with
  | or =>
    rw [inside_eq fun q hq => hq.elim (hs.2 q) (ht.2 q)]
    exact yields_ok.2 ⟨nodup_union hs.1 ht.1, toSet_union s t⟩
  | and =>
    rw [inside_eq fun q hq => hs.2 q hq.1]
    exact yields_ok.2 ⟨nodup_inter hs.1, toSet_inter s t⟩
  | implies =>
    refine yields_ok.2 ⟨((within_stateSet.diff s).union ht).1, Set.ext fun q => ?_⟩
    rw [toSet_union, toSet_diff, toSet_stateSet]
    constructor
    · rintro (⟨hq, hqs⟩ | hqt)
      · exact ⟨hq, fun hqs' => absurd hqs' hqs⟩
      · exact ⟨ht.2 q hqt, fun _ => hqt⟩
    · rintro ⟨hq, himp⟩
      by_cases hqs : q ∈ s.toSet
      · exact .inr (himp hqs)
      · exact .inl ⟨hq, hqs⟩
  | someUntil =>
    simp only [hes]
    rw [inside_eq fun q => mem_of_someUntil h ht.2]
    exact yields_through h hes hs.1 ht
  | everyUntil => exact absurd rfl hop

end Apply

/-! ## Labels -/

/-- The spellings of a path quantifier before an operator. -/
def spellings (heads operators : List String) : List String :=
  heads.flatMap fun h => operators.map (h ++ ·)

def Unary.labels : Unary → List String
  | not => ["!"]
  | someNext => spellings ["E", "exist"] ["X"]
  | everyNext => spellings ["A", "forall"] ["X"]
  | someEventually => spellings ["E", "exist"] ["F", "eventually"]
  | everyEventually => spellings ["A", "forall"] ["F", "eventually"]
  | someGlobally => spellings ["E", "exist"] ["G", "globally", "always"]
  | everyGlobally => spellings ["A", "forall"] ["G", "globally", "always"]

def Binary.labels : Binary → List String
  | or => ["||", "|", "or"]
  | and => ["&&", "&", "and"]
  | implies => ["->", ">", "implies"]
  | someUntil => spellings ["E", "exist"] ["U", "until"]
  | everyUntil => spellings ["A", "forall"] ["U", "until"]

theorem Unary.of?_label {op : Unary} : ∀ l ∈ op.labels, of? l = some op := by
  cases op <;> decide

theorem Binary.of?_label : ∀ l ∈ op.labels, of? l = some op := by
  cases op <;> decide

/-! ## Checking -/

theorem shows_one (h : m.Fits) {op : Unary} (hl : Unary.of? l = some op) (hs : Within m s) :
    Shows (one m l (some s.print)) {q | q ∈ m.states ∧ op.Holds m.Edge (· ∈ s.toSet) q} := by
  have hv := Unary.yields_apply h hs.sorted op
  rw [toSet_sorted] at hv
  simp only [one, hl, argument, read_print hs.1]
  exact hv.shows

theorem shows_two (h : m.Fits) (hop : op ≠ .everyUntil) (hl : of? l = some op) (hs : Within m s)
    (ht : Within m t) :
    Shows (two m l s.print t.print) {q | q ∈ m.states ∧ op.Holds m.Edge (· ∈ s.toSet) (· ∈ t.toSet) q} := by
  have hv := yields_apply h hs.sorted ht.sorted op hop
  rw [toSet_sorted, toSet_sorted] at hv
  simp only [two, hl, read_print hs.1, read_print ht.1]
  exact hv.shows

theorem one_print (h : ∀ q ∈ s, Plain .ctl q) : one m s.print none = .ok s.print := by
  simp only [one, branching_of?_print h]

theorem decides (h : m.Fits) (hp : ∀ q ∈ m.states, Plain .ctl q) : Decides m Unary.labels labels (one m) (two m) where
  leaf _ hsU := one_print fun q hq => hp q (hsU q hq)
  unary _ l hl _ hs hsU := shows_one h (Unary.of?_label l hl) ⟨hs, hsU⟩
  binary _ hop l hl _ _ hs hsU ht htU := shows_two h hop (of?_label l hl) ⟨hs, hsU⟩ ⟨ht, htU⟩

/-- For a model whose matrices fit its states, and whose names are not taken for operators, grounding and
solving a sentence without an `until` over every path ends with the text of the set of states where the
sentence holds. -/
theorem shows_meaning (h : m.Fits) (hl : m.LabelsFit) (hp : ∀ q ∈ m.states, Plain .ctl q) {s : Sentence} {f : Formula}
    (hs : s.Spelled m Unary.labels Binary.labels f) (hu : s.WithoutEveryUntil) :
    ∃ t, ground m f = .ok (some t) ∧ Shows (solve m t) (s.meaning m) :=
  (decides h hp).solve hl hs hu

/-- Two states on a cycle, one of which can also leave it for a third that has no successor. -/
def exitedCycle : Model where
  graph := [[.zero, .text "A", .text "B"], [.text "A", .zero, .zero], [.zero, .zero, .zero]]
  states := ["s0", "s1", "s2"]
  props := ["p", "q"]
  labels := [[.num 1, .num 0], [.num 1, .num 0], [.num 0, .num 1]]
  agents := .number 1

theorem shows_meaning_exitedCycle :
    ∃ t, ground exitedCycle
        (.binary "&&" (.unary "EG" (.atom "p")) (.unary "!" (.unary "forallF" (.atom "q")))) = .ok (some t) ∧
      Shows (solve exitedCycle t) (Sentence.meaning exitedCycle
        (.binary .and (.unary .someGlobally (.atom "p")) (.unary .not (.unary .everyEventually (.atom "q"))))) :=
  shows_meaning ⟨by decide, by decide⟩ ⟨by decide, by decide⟩ (by decide)
    (.binary (by decide) (.unary (by decide) (.atom (by decide)))
      (.unary (by decide) (.unary (by decide) (.atom (by decide)))))
    ⟨by decide, trivial, trivial⟩

/-- Two states whose names have no token of an operator, but are quoted with escapes that end in letters. -/
def escapedNames : Model where
  graph := [[.zero, .text "A"], [.zero, .text "A"]]
  states := ["\x0exist", "\x1always"]
  props := ["p"]
  labels := [[.num 1], [.num 1]]
  agents := .number 1

/-- The tokens have to be looked for in the quoted names: here the text of the set of both states is taken
for an operator that lacks its argument. -/
theorem solve_escapedNames : escapedNames.Fits ∧ escapedNames.LabelsFit ∧ escapedNames.states.Nodup ∧
    (∀ q ∈ escapedNames.states, ∀ k ∈ kindsIn .ctl q, k ∈ inert) ∧
    ∃ t, ground escapedNames (.atom "p") = .ok (some t) ∧ solve escapedNames t = .error .member := by
  refine ⟨⟨by decide, by decide⟩, ⟨by decide, by decide⟩, by decide, by decide, _, rfl, ?_⟩
  have hsorted : Text.sorted ["\x0exist", "\x1always"] = ["\x0exist", "\x1always"] :=
    List.mergeSort_of_pairwise (by decide)
  have hprint : print ["\x0exist", "\x1always"] = "\x7b'\\x0exist', '\\x1always'\x7d" := by
    unfold print
    rw [hsorted]
    decide
  have hop : Unary.of? (print ["\x0exist", "\x1always"]) = some .someGlobally := by
    rw [hprint]
    decide
  change one escapedNames (print ["\x0exist", "\x1always"]) none = _
  simp only [one, hop]
  rfl

/-! ## Until over every path -/

/-- The loop for the `until` over every path starts with all states outside the second set and adds only
such states, so it adds none. -/
theorem yields_everyUntil (h : m.Fits) (s : Names) (htU : ∀ q ∈ t, q ∈ m.states) :
    Yields (everyUntil.apply m s t) t.toSet := by
  obtain ⟨es, hes, -⟩ := h.edges_spec
  -- the states outside `t` are closed already, whatever `s` is
  have hleast : IsLeast {X | (m.stateSet.diff t).toSet ∪
      ((m.stateSet.diff s).inter (m.stateSet.diff t)).toSet ∩ somePred m.Edge X ⊆ X} (m.stateSet.diff t).toSet := by
    refine ⟨Set.union_subset subset_rfl ?_, fun X hX => Set.subset_union_left.trans hX⟩
    rw [toSet_inter]
    exact Set.inter_subset_left.trans Set.inter_subset_right
  have hthrough := yields_through h hes (nodup_inter (b := m.stateSet.diff t)
    (nodup_diff (b := s) (nodup_stateSet m))) (within_stateSet.diff t)
  rw [(isLeast_someUntil _ _).unique hleast] at hthrough
  have hcompl := hthrough.compl (m := m) (Q := (· ∈ t)) fun q hq => by
    simp [Model.stateSet, hq]
  simp only [Binary.apply, hes]
  have hset : {q | q ∈ m.states ∧ q ∈ t} = t.toSet := Set.ext fun q => and_iff_right_of_imp (htU q)
  rwa [hset] at hcompl

theorem shows_two_everyUntil (h : m.Fits) (hl : l ∈ everyUntil.labels) (hφ : φ.Nodup)
    (hψ : Within m ψ) : Shows (two m l φ.print ψ.print) ψ.toSet := by
  have hv := yields_everyUntil h (Text.sorted φ) hψ.sorted.2
  rw [toSet_sorted] at hv
  simp only [two, of?_label l hl, read_print hφ, read_print hψ.1]
  exact hv.shows

theorem shows_everyUntil (h : m.Fits) (hp : ∀ q ∈ m.states, Plain .ctl q) (hl : l ∈ everyUntil.labels)
    (hφ : Within m φ) (hψ : Within m ψ) :
    Shows (solve m (.binary l (.leaf φ.print) (.leaf ψ.print))) ψ.toSet := by
  have hφleaf := one_print (m := m) fun q hq => hp q (hφ.2 q hq)
  have hψleaf := one_print (m := m) fun q hq => hp q (hψ.2 q hq)
  unfold solve
  rw [Tree.solve_binary_leaf hφleaf hψleaf]
  exact shows_two_everyUntil h hl hφ.1 hψ

/-- Where every state has a successor, the checker answers an `until` over every path with the states of
its second set. These are the states where it holds exactly if each state of the first set outside the
second has a successor outside the second. -/
theorem everyUntil_exact_iff (h : m.Fits) (hp : ∀ q ∈ m.states, Plain .ctl q)
    (htotal : ∀ q ∈ m.states, ∃ r, m.Edge q r) {l : String} (hl : l ∈ Binary.everyUntil.labels) {φ ψ : Names}
    (hφ : φ.Nodup) (hφU : ∀ q ∈ φ, q ∈ m.states) (hψ : ψ.Nodup) (hψU : ∀ q ∈ ψ, q ∈ m.states) :
    Shows (solve m (.binary l (.leaf φ.print) (.leaf ψ.print))) ψ.toSet ∧
      (Shows (solve m (.binary l (.leaf φ.print) (.leaf ψ.print)))
          {q | q ∈ m.states ∧ Binary.everyUntil.Holds m.Edge (· ∈ φ.toSet) (· ∈ ψ.toSet) q} ↔
        ∀ q ∈ φ, q ∉ ψ → ∃ r, m.Edge q r ∧ r ∉ ψ) := by
  have hshow := shows_everyUntil h hp hl ⟨hφ, hφU⟩ ⟨hψ, hψU⟩
  have hleast : IsLeast {X | ψ.toSet ∪ {q | q ∈ m.states} ∩ (φ.toSet ∩ everyPred m.Edge X) ⊆ X}
      {q | q ∈ m.states ∧ Binary.everyUntil.Holds m.Edge (· ∈ φ.toSet) (· ∈ ψ.toSet) q} :=
    isLeast_everyUntil (fun q _ r he => (h.edge_mem he).2) htotal hψU
  refine ⟨hshow, fun hexact q hqφ hqψ => ?_, fun hsucc => ?_⟩
  · -- the set of answers would be closed, and hold a state all of whose successors it holds
    rw [← hshow.set_unique hexact] at hleast
    by_contra hno
    refine hqψ (hleast.1 (.inr ⟨hφU q hqφ, hqφ, fun r he => ?_⟩))
    by_contra hr
    exact hno ⟨r, he, hr⟩
  · have hclosed : ψ.toSet ∪ {q | q ∈ m.states} ∩ (φ.toSet ∩ everyPred m.Edge ψ.toSet) ⊆ ψ.toSet := by
      refine Set.union_subset subset_rfl ?_
      rintro q ⟨-, hqφ, hq⟩
      by_contra hqψ
      obtain ⟨r, he, hr⟩ := hsucc q hqφ hqψ
      exact hr (hq r he)
    have hset := Set.Subset.antisymm (hleast.2 hclosed) (Set.subset_union_left.trans hleast.1)
    rw [hset]
    exact hshow

/-- A state whose one successor is another state with a loop. -/
def oneStep : Model where
  graph := [[.zero, .text "A"], [.zero, .text "A"]]
  states := ["s0", "s1"]
  agents := .number 1

theorem oneStep_edge {r : String} : oneStep.Edge q r ↔ (q, r) ∈ [("s0", "s1"), ("s1", "s1")] :=
  Model.edge_iff_mem rfl

theorem oneStep_total : ∀ q ∈ oneStep.states, ∃ r, oneStep.Edge q r := by
  have hall : ∀ q ∈ oneStep.states, (q, "s1") ∈ [("s0", "s1"), ("s1", "s1")] := by decide
  exact fun q hq => ⟨"s1", oneStep_edge.2 (hall q hq)⟩

theorem everyUntil_exact_iff_oneStep :
    Shows (solve oneStep (.binary "AU" (.leaf (print ["s0"])) (.leaf (print ["s1"]))))
        (toSet ["s1"]) ∧
      (Shows (solve oneStep (.binary "AU" (.leaf (print ["s0"])) (.leaf (print ["s1"]))))
          {q | q ∈ oneStep.states ∧
            Binary.everyUntil.Holds oneStep.Edge (· ∈ toSet ["s0"]) (· ∈ toSet ["s1"]) q} ↔
        ∀ q ∈ ["s0"], q ∉ ["s1"] → ∃ r, oneStep.Edge q r ∧ r ∉ ["s1"]) :=
  everyUntil_exact_iff ⟨by decide, by decide⟩ (by decide) oneStep_total (by decide) (by decide) (by decide)
    (by decide) (by decide)

/-- The state before the loop is missed: every path from it steps into the second set. -/
theorem everyUntil_misses_oneStep :
    Binary.everyUntil.Holds oneStep.Edge (· ∈ toSet ["s0"]) (· ∈ toSet ["s1"]) "s0" ∧
      ¬ Shows (solve oneStep (.binary "AU" (.leaf (print ["s0"])) (.leaf (print ["s1"]))))
        {q | q ∈ oneStep.states ∧
          Binary.everyUntil.Holds oneStep.Edge (· ∈ toSet ["s0"]) (· ∈ toSet ["s1"]) q} := by
  have hholds : Binary.everyUntil.Holds oneStep.Edge (· ∈ toSet ["s0"]) (· ∈ toSet ["s1"]) "s0" := by
    intro π hπ
    have hstep : π 1 = "s1" := by simpa using oneStep_edge.1 hπ.tail.1
    refine ⟨1, fun i hi => ?_, by simp [hstep]⟩
    obtain rfl : i = 0 := by omega
    simp [hπ.1]
  refine ⟨hholds, fun hshow => ?_⟩
  have hanswer := shows_everyUntil (m := oneStep) (φ := ["s0"]) (ψ := ["s1"]) ⟨by decide, by decide⟩ (by decide)
    (show "AU" ∈ _ by decide) ⟨by decide, by decide⟩ ⟨by decide, by decide⟩
  have hmem : "s0" ∈ toSet ["s1"] := (hanswer.set_unique hshow).ge ⟨by decide, hholds⟩
  simp at hmem

end Arena.Checker.Branching
