/-
Degrees that are 0 or 1 mark a set of states: the smaller of two marks the intersection, the larger the union, the
complement the states outside. The plans of a coalition group the columns of a row by its part of a joint action, so the
best degree that it can enforce marks the states from which it can force the next state into the set.
-/
import Arena.Proofs.Checker.Forcing
import Arena.Proofs.Fuzzy.GradeText

namespace Arena.Fuzzy.Alternating

open Checker.Alternating List Coalition Model

variable {coalition : String} {members : List Int} {f : Option Number → Option Number → Outcome (Option Number)}
  {v : Number} {q : String} {a : Int} {agents : List String}

/-! ## Degrees as truth values -/

/-- A degree is 1 where a proposition holds and 0 where it does not. -/
def Bit (P : Prop) (x : Option Number) : Prop :=
  ∃ v a, x = some v ∧ Number.IsBit a ∧ v.Denotes a ∧ (a = 1 ↔ P)

variable {P Q : Prop} {x y : Option Number}

theorem Bit.congr (h : Bit P x) (hPQ : P ↔ Q) : Bit Q x := by
  obtain ⟨v, a, hx, ha, hv, hP⟩ := h
  exact ⟨v, a, hx, ha, hv, hP.trans hPQ⟩

theorem bit_of_denotes (ha : Number.IsBit a) (hv : v.Denotes a) : Bit (a = 1) (some v) :=
  ⟨v, a, rfl, ha, hv, Iff.rfl⟩

theorem lessThan_bit (hx : Bit P x) (hy : Bit Q y) : ∃ b, lessThan x y = .ok b ∧ (b = true → ¬ P ∧ Q) ∧
    (b = false → Q → P) := by
  obtain ⟨v, a, rfl, ha, hv, hP⟩ := hx
  obtain ⟨w, b, rfl, hb, hw, hQ⟩ := hy
  refine ⟨decide (a < b), congrArg Except.ok (Number.less_of_denotes hv ha hw hb), ?_⟩
  rw [← hP, ← hQ]
  rcases ha with rfl | rfl <;> rcases hb with rfl | rfl <;> decide

theorem smaller_bit (hx : Bit P x) (hy : Bit Q y) : ∃ z, smaller x y = .ok z ∧ Bit (P ∧ Q) z := by
  obtain ⟨b, hb, hless, hleast⟩ := lessThan_bit hy hx
  refine ⟨if b then y else x, by simp only [smaller, hb]; rfl, ?_⟩
  cases b with
  | true =>
    obtain ⟨hQ, hP⟩ := hless rfl
    exact hy.congr ⟨fun q => absurd q hQ, fun h => h.2⟩
  | false => exact hx.congr ⟨fun p => ⟨p, hleast rfl p⟩, fun h => h.1⟩

theorem larger_bit (hx : Bit P x) (hy : Bit Q y) : ∃ z, larger x y = .ok z ∧ Bit (P ∨ Q) z := by
  obtain ⟨b, hb, hless, hleast⟩ := lessThan_bit hx hy
  refine ⟨if b then y else x, by simp only [larger, hb]; rfl, ?_⟩
  cases b with
  | true =>
    obtain ⟨hP, hQ⟩ := hless rfl
    exact hy.congr ⟨.inr, fun _ => hQ⟩
  | false => exact hx.congr ⟨.inl, fun h => h.elim id (hleast rfl)⟩

theorem difference_bit (hx : Bit True x) (hy : Bit Q y) : ∃ z, difference x y = .ok z ∧ Bit (¬ Q) z := by
  obtain ⟨v, a, rfl, -, hv, ha⟩ := hx
  obtain ⟨w, b, rfl, hb, hw, hQ⟩ := hy
  obtain rfl : a = 1 := ha.2 trivial
  refine ⟨_, rfl, _, 1 - b, rfl, ?_, Number.minus_of_denotes hv hw hb, ?_⟩
  · rcases hb with rfl | rfl
    · exact .inr rfl
    · exact .inl rfl
  · rw [← hQ]
    rcases hb with rfl | rfl <;> decide

section Lists

variable {ι : Type} {p : ι → Prop} {is : List ι} {xs : List (Option Number)}

theorem foldlM_bit {R : Prop → Prop → Prop}
    (together : Prop → List ι → Prop) (hnil : ∀ P, P ↔ together P [])
    (hcons : ∀ P i is, together (R P (p i)) is ↔ together P (i :: is))
    (hf : ∀ {P Q x y}, Bit P x → Bit Q y → ∃ z, f x y = .ok z ∧ Bit (R P Q) z)
    (h : Forall₂ (fun i x => Bit (p i) x) is xs) (hx : Bit P x) :
    ∃ z, xs.foldlM f x = .ok z ∧ Bit (together P is) z := by
  induction h generalizing P x with
  | nil => exact ⟨x, rfl, hx.congr (hnil P)⟩
  | cons hy _ ih =>
    obtain ⟨z, hz, hbit⟩ := hf hx hy
    obtain ⟨w, hw, hall⟩ := ih hbit
    exact ⟨w, by rw [foldlM_cons, hz]; exact hw, hall.congr (hcons ..)⟩

theorem smallest_bit (h : Forall₂ (fun i x => Bit (p i) x) is xs) (hne : is ≠ []) :
    ∃ z, smallest xs = .ok z ∧ Bit (∀ i ∈ is, p i) z := by
  cases h with
  | nil => exact absurd rfl hne
  | cons hx hrest =>
    obtain ⟨z, hz, hbit⟩ := foldlM_bit (fun P is => P ∧ ∀ i ∈ is, p i) (by simp) (by simp [and_assoc])
      smaller_bit hrest hx
    exact ⟨z, hz, hbit.congr forall_mem_cons.symm⟩

theorem largest_bit (h : Forall₂ (fun i x => Bit (p i) x) is xs) (hne : is ≠ []) :
    ∃ z, largest xs = .ok z ∧ Bit (∃ i ∈ is, p i) z := by
  cases h with
  | nil => exact absurd rfl hne
  | cons hx hrest =>
    obtain ⟨z, hz, hbit⟩ := foldlM_bit (fun P is => P ∨ ∃ i ∈ is, p i) (by simp) (by simp [or_assoc])
      larger_bit hrest hx
    exact ⟨z, hz, hbit.congr (exists_mem_cons_iff ..).symm⟩

end Lists

/-! ## Degrees that mark a set -/

/-- An entry of a state says whether the state is in a set. -/
def Marked (X : Set String) (q : String) (e : String × Option Number) : Prop := e.1 = q ∧ Bit (q ∈ X) e.2

/-- The degrees of all states, in order, mark a set. -/
def Marks (m : Model) (g : Grades Number) (X : Set String) : Prop := Forall₂ (Marked X) m.states g

variable {m : Model} {g h : Grades Number} {X Y Z : Set String} {qs : List String}

theorem Marks.congr (hg : Marks m g X) (hXY : ∀ q ∈ m.states, q ∈ X ↔ q ∈ Y) : Marks m g Y := by
  unfold Marks at hg ⊢
  rw [forall₂_iff_get] at hg ⊢
  refine ⟨hg.1, fun i h₁ h₂ => ?_⟩
  obtain ⟨hname, hbit⟩ := hg.2 i h₁ h₂
  exact ⟨hname, hbit.congr (hXY _ (get_mem ..))⟩

theorem combine_spec
    (hf : ∀ {q x y}, Bit (q ∈ X) x → Bit (q ∈ Y) y → ∃ z, f x y = .ok z ∧ Bit (q ∈ Z) z)
    (hg : Forall₂ (Marked X) qs g) (hh : Forall₂ (Marked Y) qs h) :
    ∃ k, combine f g h = .ok k ∧ Forall₂ (Marked Z) qs k := by
  induction hg generalizing h with
  | nil => exact ⟨[], by cases h <;> rfl, .nil⟩
  | @cons q e qs g he _ ih =>
    cases hh with
    | @cons _ d _ h hd hrest =>
      obtain ⟨z, hz, hbit⟩ := hf he.2 hd.2
      obtain ⟨k, hk, hmarks⟩ := ih hrest
      exact ⟨(e.1, z) :: k, by simp only [combine, hz, hk]; rfl, .cons ⟨he.1, hbit⟩ hmarks⟩

theorem combine_smaller (hg : Marks m g X) (hh : Marks m h Y) : ∃ k, combine smaller g h = .ok k ∧ Marks m k (X ∩ Y) :=
  combine_spec smaller_bit hg hh

theorem combine_larger (hg : Marks m g X) (hh : Marks m h Y) : ∃ k, combine larger g h = .ok k ∧ Marks m k (X ∪ Y) :=
  combine_spec larger_bit hg hh

theorem marks_constant (ha : Number.IsBit a) (hv : v.Denotes a) (hX : ∀ q ∈ m.states, q ∈ X ↔ a = 1) :
    Marks m (constant m v) X := by
  unfold Marks constant
  rw [forall₂_map_right_iff, forall₂_same]
  exact fun q hq => ⟨rfl, (bit_of_denotes ha hv).congr (hX q hq).symm⟩

theorem marks_one : Marks m (constant m (Number.whole 1)) {q | q ∈ m.states} :=
  marks_constant (.inr rfl) (.inl rfl) fun _ hq => iff_of_true hq rfl

theorem marks_zero : Marks m (constant m (Number.whole 0)) ∅ :=
  marks_constant (.inl rfl) (.inl rfl) fun _ _ => iff_of_false (fun hq => hq) (by decide)

theorem negate_spec (hg : Marks m g X) : ∃ k, negate m g = .ok k ∧ Marks m k Xᶜ := by
  have hall : Marks m (constant m (Number.whole 1)) Set.univ :=
    marks_constant (.inr rfl) (.inl rfl) fun _ _ => iff_of_true trivial rfl
  exact combine_spec difference_bit hall hg

theorem isBelow_spec (hg : Forall₂ (Marked X) qs g) (hh : Forall₂ (Marked Y) qs h) :
    ∃ b, isBelow g h = .ok b ∧ (b = true ↔ ∀ q ∈ qs, q ∈ X → q ∈ Y) := by
  induction hg generalizing h with
  | nil => exact ⟨true, by cases h <;> rfl, by simp⟩
  | @cons q e qs g he _ ih =>
    cases hh with
    | @cons _ d _ h hd hrest =>
      obtain ⟨b, hb, hless, hleast⟩ := lessThan_bit hd.2 he.2
      obtain ⟨c, hc, hall⟩ := ih hrest
      rw [forall_mem_cons, ← hall]
      cases b with
      | true =>
        obtain ⟨hY, hX⟩ := hless rfl
        refine ⟨false, by simp only [isBelow, hb]; rfl, ?_⟩
        exact iff_of_false Bool.false_ne_true fun h => hY (h.1 hX)
      | false => exact ⟨c, by simp only [isBelow, hb]; exact hc, (and_iff_right (hleast rfl)).symm⟩

theorem degreeOf_bit (hg : Forall₂ (Marked X) qs g) (hq : q ∈ qs) : Bit (q ∈ X) (degreeOf g q) := by
  unfold degreeOf
  induction hg with
  | nil => cases hq
  | @cons r e qs g he _ ih =>
    by_cases heq : e.1 = q
    · rw [find?_cons_of_pos (by simp [heq])]
      obtain rfl : r = q := he.1 ▸ heq
      exact he.2
    · rw [find?_cons_of_neg (by simp [heq])]
      refine ih ((mem_cons.1 hq).resolve_left ?_)
      rintro rfl
      exact heq he.1

theorem map_fst_of_marked (hg : Forall₂ (Marked X) qs g) : g.map (·.1) = qs := by
  induction hg with
  | nil => rfl
  | cons he _ ih => rw [map_cons, he.1, ih]

theorem literal_spec (hg : Marks m g X) : literal g = .ok g := by
  unfold literal
  rw [if_pos]
  rw [all_eq_true]
  intro e he
  obtain ⟨q, -, -, v, a, hx, ha, hv, -⟩ := exists_of_mem_forall₂ hg he
  simp only [hx]
  exact Number.hasLiteral_of_denotes hv ha

/-! ## Reading degrees back -/

section Texts

variable (hnames : ∀ q ∈ m.states, ∃ i : Nat, q = defaultName i) (hg : Marks m g X)

include hnames hg

theorem Marks.isBitGrade : ∀ e ∈ g, IsBitGrade e := by
  intro e he
  obtain ⟨q, hq, hname, v, a, hx, ha, hv, -⟩ := exists_of_mem_forall₂ hg he
  exact ⟨hname ▸ hnames q hq, v, a, hx, ha, hv⟩

theorem Marks.readGrades : readGrades (printGrades g) = .ok g := readGrades_printGrades (hg.isBitGrade hnames)

theorem Marks.splitGrades (hne : m.states ≠ []) : ∃ k, splitGrades (printGrades g) = .ok k ∧ Marks m k X := by
  have hgne : g ≠ [] := by
    rintro rfl
    exact hne (forall₂_nil_right_iff.1 hg)
  refine ⟨_, splitGrades_printGrades hgne (hg.isBitGrade hnames), ?_⟩
  unfold Marks
  rw [forall₂_map_right_iff]
  refine hg.imp ?_
  rintro q e ⟨hname, v, a, hx, ha, hv, hX⟩
  exact ⟨hname, .real v.toFloat, a, by rw [hx]; rfl, ha, hv.real, hX⟩

theorem Marks.unmarked : Checker.Unmarked (printGrades g) := unmarked_printGrades (hg.isBitGrade hnames)

end Texts

/-! ## Plans -/

/-- Plans group pairs of a part and a column by their parts, in the order in which the parts come. -/
def Grouped : List (Move × Nat) → List Plan → Prop
  | K, [] => K = []
  | K, o :: ps => ∃ p, o.part = [p] ∧ (∀ j, j ∈ o.outcomes.map (·.1) ↔ (p, j) ∈ K) ∧ o.outcomes ≠ [] ∧
      Grouped (K.filter (·.1 ≠ p)) ps

theorem same_singleton {p p' : Move} : Names.same [p] [p'] = true ↔ p = p' := by
  rw [Names.same_iff]
  constructor
  · intro h
    exact mem_singleton.1 ((h p).1 mem_cons_self)
  · rintro rfl _
    exact Iff.rfl

theorem grouped_addOutcome (p : Move) (j : Nat) (answers : List Move) : ∀ {ps : List Plan} {K : List (Move × Nat)},
    Grouped K ps → Grouped (K ++ [(p, j)]) (addOutcome [p] (j, answers) ps)
  | [], K, h => by
    obtain rfl : K = [] := h
    exact ⟨p, rfl, by simp [eq_comm], by simp, by simp [Grouped]⟩
  | o :: ps, K, ⟨p', hpart, hcols, hne, hrest⟩ => by
    unfold addOutcome
    by_cases hsame : p' = p
    · subst hsame
      rw [if_pos (by rw [hpart]; exact same_singleton.2 rfl)]
      refine ⟨p', hpart, fun k => ?_, by simp, ?_⟩
      · rw [map_append, mem_append, hcols]
        simp [eq_comm]
      · simpa using hrest
    · rw [if_neg (by rw [hpart]; exact fun h => hsame (same_singleton.1 h))]
      refine ⟨p', hpart, fun k => ?_, hne, ?_⟩
      · rw [hcols]
        simp [hsame]
      · have hkeep : [(p, j)].filter (·.1 ≠ p') = [(p, j)] := filter_cons_of_pos (by simp [Ne.symm hsame])
        rw [filter_append, hkeep]
        exact grouped_addOutcome p j answers hrest

theorem Grouped.spec : ∀ {ps : List Plan} {K : List (Move × Nat)}, Grouped K ps →
    (∀ o ∈ ps, o.outcomes ≠ [] ∧ ∃ p, o.part = [p] ∧ ∀ j, j ∈ o.outcomes.map (·.1) ↔ (p, j) ∈ K) ∧
      ∀ p j, (p, j) ∈ K → ∃ o ∈ ps, o.part = [p]
  | [], K, h => by
    obtain rfl : K = [] := h
    simp
  | o :: ps, K, ⟨p, hpart, hcols, hne, hrest⟩ => by
    obtain ⟨hplans, hparts⟩ := hrest.spec
    constructor
    · intro o' ho'
      rcases mem_cons.1 ho' with rfl | ho'
      · exact ⟨hne, p, hpart, hcols⟩
      · obtain ⟨hne', p', hpart', hcols'⟩ := hplans o' ho'
        -- a later plan has another part, because its columns are not those of this one
        have hother : p' ≠ p := by
          obtain ⟨⟨j, a⟩, hj⟩ := exists_mem_of_ne_nil _ hne'
          have hmem := (hcols' j).1 (mem_map.2 ⟨_, hj, rfl⟩)
          simpa using (mem_filter.1 hmem).2
        refine ⟨hne', p', hpart', fun j => ?_⟩
        rw [hcols']
        simp [hother]
    · intro p' j hj
      by_cases hsame : p' = p
      · exact ⟨o, mem_cons_self, hsame ▸ hpart⟩
      · obtain ⟨o', ho', hpart'⟩ := hparts p' j (mem_filter.2 ⟨hj, by simpa using hsame⟩)
        exact ⟨o', mem_cons_of_mem _ ho', hpart'⟩

section Rows

variable (hc : positions agents = .ok members) (hne : members ≠ [])

def parts (members : List Int) (ms : List (Move × Nat)) : List (Move × Nat) :=
  ms.map fun e => (e.1.ofCoalition members, e.2)

include hne in
theorem coalitionMoves_singleton (move : Move) : m.coalitionMoves [move] members = .ok [move.ofCoalition members] := by
  unfold coalitionMoves
  rw [if_neg (by simpa using hne)]
  simp only [coalitionParts, String.empty_append]
  rfl

include hc hne

theorem addMoves_spec (column : Nat) (cell : List Move) : ∀ (moves : List Move) {ps : List Plan}
    {K : List (Move × Nat)}, Grouped K ps → ∃ ps', addMoves m agents column cell moves ps = .ok ps' ∧
      Grouped (K ++ parts members (moves.map (·, column))) ps'
  | [], ps, K, h => ⟨ps, rfl, by simpa [parts] using h⟩
  | move :: moves, ps, K, h => by
    have hstep := grouped_addOutcome (move.ofCoalition members) column (opponentMoves cell members) h
    obtain ⟨ps', hps', hgroup⟩ := addMoves_spec column cell moves hstep
    refine ⟨ps', ?_, by simpa [parts] using hgroup⟩
    simp only [addMoves, hc, coalitionMoves_singleton hne, bind, Except.bind]
    exact hps'

theorem addCells_spec {k : Int} (hk : m.agentCount = .ok k) : ∀ (j : Nat) (row : List Cell) {ps : List Plan}
    {K : List (Move × Nat)}, Grouped K ps → ∃ ms ps', rowMoves m j row = .ok ms ∧
      addCells m agents j row ps = .ok ps' ∧ Grouped (K ++ parts members ms) ps'
  | j, [], ps, K, h => ⟨[], ps, rfl, rfl, by simpa [parts] using h⟩
  | j, c :: row, ps, K, h => by
    by_cases hz : c.isZero = true
    · obtain ⟨ms, ps', hms, hps', hgroup⟩ := addCells_spec hk (j + 1) row h
      refine ⟨ms, ps', ?_, ?_, hgroup⟩
      · simp only [rowMoves, hz, hms]
        rfl
      · simp only [addCells, hz]
        exact hps'
    · obtain ⟨moves, hmoves, -⟩ := exists_movesOf hk c.write
      obtain ⟨ps₁, hps₁, hgroup₁⟩ := addMoves_spec (m := m) hc hne j moves moves h
      obtain ⟨ms, ps', hms, hps', hgroup⟩ := addCells_spec hk (j + 1) row hgroup₁
      refine ⟨moves.map (·, j) ++ ms, ps', ?_, ?_, ?_⟩
      · simp only [rowMoves, hz, hmoves, hms]
        rfl
      · simp only [addCells, hz, hmoves, hps₁, bind, Except.bind]
        exact hps'
      · simpa [parts] using hgroup

end Rows

/-! ## Predecessors -/

def worst (m : Model) (g : Grades Number) (o : Plan) : Outcome (Option Number) := do
  smallest (← o.outcomes.mapM fun (j, _) => do return degreeOf g (← m.stateAt j))

theorem best_eq (m : Model) (agents : List String) (q : String) (g : Grades Number) :
    best m agents q g = (do largest (← (← plans m agents q).mapM (worst m g))) := rfl

theorem worst_bit (hg : Marks m g X) {o : Plan} (ho : o.outcomes ≠ []) (hcols : ∀ e ∈ o.outcomes, ∃ r, m.states[e.1]? = some r) :
    ∃ z, worst m g o = .ok z ∧ Bit (∀ e ∈ o.outcomes, ∃ r ∈ X, m.states[e.1]? = some r) z := by
  have hdegree : ∀ e ∈ o.outcomes, ∃ x, (do return degreeOf g (← m.stateAt e.1)) = .ok x ∧
      Bit (∃ r ∈ X, m.states[e.1]? = some r) x := by
    intro e he
    obtain ⟨r, hr⟩ := hcols e he
    have hat : m.stateAt e.1 = .ok r := nth_eq_ok.2 hr
    refine ⟨degreeOf g r, by simp only [hat]; rfl, (degreeOf_bit hg (mem_of_getElem? hr)).congr ?_⟩
    constructor
    · intro hX
      exact ⟨r, hX, hr⟩
    · rintro ⟨r', hX, hr'⟩
      cases hr.symm.trans hr'
      exact hX
  obtain ⟨xs, hxs, hbits⟩ := exists_mapM_forall₂ hdegree
  obtain ⟨z, hz, hbit⟩ := smallest_bit hbits ho
  refine ⟨z, ?_, hbit⟩
  unfold worst
  rw [hxs]
  exact hz

section Predecessors

variable (hl : m.Live) (hc : positions agents = .ok members) (hne : members ≠ []) (hg : Marks m g X)

include hl hc hne hg

/-- The best degree that a coalition can enforce from a state is 1 if it can force the next state into the
set. -/
theorem best_bit (hq : q ∈ m.states) : ∃ z, best m agents q g = .ok z ∧ Bit (q ∈ (m.partGame members).force X) z := by
  obtain ⟨k, hk⟩ := hl.agents
  obtain ⟨i, hi⟩ := mem_iff_getElem?.1 hq
  obtain ⟨row, hrow, -⟩ := hl.total (lt_of_getElem? hi)
  obtain ⟨ms, ps, hms, hps, hgroup⟩ := addCells_spec hc hne hk 0 row (show Grouped [] [] from rfl)
  obtain ⟨hplans, hparts⟩ := hgroup.spec
  have hmem : ∀ {p j}, (p, j) ∈ [] ++ parts members ms ↔ ∃ move, (move, j) ∈ ms ∧ move.ofCoalition members = p := by
    simp [parts]
  have hworst : ∀ o ∈ ps, ∃ z, worst m g o = .ok z ∧ Bit (∀ e ∈ o.outcomes, ∃ r ∈ X, m.states[e.1]? = some r) z := by
    intro o ho
    obtain ⟨hout, p, -, hcols⟩ := hplans o ho
    refine worst_bit hg hout fun e he => ?_
    obtain ⟨move, hmove, -⟩ := hmem.1 ((hcols e.1).1 (mem_map.2 ⟨e, he, rfl⟩))
    exact exists_target hl hrow hms hmove
  have hsome : ps ≠ [] := by
    obtain ⟨move, r, hlead⟩ := hl.exists_leads hq
    obtain ⟨j, hj, -⟩ := (leads_iff_mem hl hi hrow hms).1 hlead
    obtain ⟨o, ho, -⟩ := hparts _ j (hmem.2 ⟨move, hj, rfl⟩)
    exact ne_nil_of_mem ho
  obtain ⟨zs, hzs, hbits⟩ := exists_mapM_forall₂ hworst
  obtain ⟨z, hz, hbit⟩ := largest_bit hbits hsome
  refine ⟨z, ?_, hbit.congr ?_⟩
  · have hindex : m.stateIndex q = .ok i := stateIndex_eq_ok.2 ((idxOf?_eq_some hl.nodup).2 hi)
    have hnth : nth m.graph i = .ok row := nth_eq_ok.2 hrow
    have hvalue : plans m agents q = .ok ps := by
      simp only [plans, hindex, hnth, bind, Except.bind]
      exact hps
    rw [best_eq, hvalue]
    simp only [bind, Except.bind]
    rw [hzs]
    exact hz
  · rw [mem_force_iff hl hi hrow hms]
    constructor
    · rintro ⟨o, ho, hall⟩
      obtain ⟨hout, p, -, hcols⟩ := hplans o ho
      obtain ⟨e, he⟩ := exists_mem_of_ne_nil _ hout
      obtain ⟨move, hmove, hpart⟩ := hmem.1 ((hcols e.1).1 (mem_map.2 ⟨e, he, rfl⟩))
      refine ⟨move, e.1, hmove, fun other k hk hsame => ?_⟩
      obtain ⟨d, hd, rfl⟩ := mem_map.1 ((hcols k).2 (hmem.2 ⟨other, hk, hsame.trans hpart⟩))
      exact hall d hd
    · rintro ⟨move, j, hj, hall⟩
      obtain ⟨o, ho, hop⟩ := hparts _ j (hmem.2 ⟨move, hj, rfl⟩)
      refine ⟨o, ho, fun e he => ?_⟩
      obtain ⟨-, p, hop', hcols⟩ := hplans o ho
      obtain rfl := singleton_inj.1 (hop.symm.trans hop')
      obtain ⟨other, hother, hsame⟩ := hmem.1 ((hcols e.1).1 (mem_map.2 ⟨e, he, rfl⟩))
      exact hall other e.1 hother hsame

end Predecessors

section Coalition

variable (hl : m.Live) (hc : positions (names coalition) = .ok members) (hne : members ≠ [])

include hl hc hne

/-- The degrees that a coalition can enforce mark the states from which it can force the next state into the
set. -/
theorem pre_spec (hg : Marks m g X) : ∃ k, pre m coalition g = .ok k ∧ Marks m k ((m.partGame members).force X) := by
  refine exists_mapM_forall₂ fun q hq => ?_
  obtain ⟨z, hz, hbit⟩ := best_bit hl hc hne hg hq
  exact ⟨(q, z), by simp only [hz]; rfl, rfl, hbit⟩

theorem literal_pre_spec (hg : Marks m g X) :
    ∃ k, (do literal (← pre m coalition g)) = .ok k ∧ Marks m k ((m.partGame members).force X) := by
  obtain ⟨k, hk, hmarks⟩ := pre_spec hl hc hne hg
  exact ⟨k, by simp only [hk]; exact literal_spec hmarks, hmarks⟩

theorem inter_pre_spec (hh : Marks m h Y) (hg : Marks m g X) :
    ∃ k, (do combine smaller (← literal (← pre m coalition g)) h) = .ok k ∧
      Marks m k ((m.partGame members).force X ∩ Y) := by
  obtain ⟨k, hk, hmarks⟩ := pre_spec hl hc hne hg
  obtain ⟨z, hz, hinter⟩ := combine_smaller hmarks hh
  refine ⟨z, ?_, hinter⟩
  simp only [hk, bind, Except.bind, literal_spec hmarks]
  exact hz

end Coalition

end Arena.Fuzzy.Alternating
