/-
Over a labelling by 0 and 1 the graded checker for coalitions is the crisp one. All its degrees mark the sets of states
that the crisp checker computes: the loops run in step, and the texts of degrees are read back as degrees that mark the
same set.
-/
import Arena.Proofs.Checker.Alternating
import Arena.Proofs.Fuzzy.Marks

namespace Arena.Fuzzy.Alternating

open Names Checker Checker.Alternating Coalition Tree List WrittenDegree

open Checker (Tree)

variable {agents : List Nat} {s t : Names} {l : String}

variable {m : Model} {g h : Grades Number} {X : Set String} {k : Grades Number} {letter : String} {op : Unary}

/-! ## Sets and their degrees -/

/-- A set of states and degrees that mark it. -/
def Agree (m : Model) (T : Names) (g : Grades Number) : Prop := T.Nodup ∧ (∀ q ∈ T, q ∈ m.states) ∧ Marks m g T.toSet

theorem Agree.within (hs : Agree m s g) : Within m s := ⟨hs.1, hs.2.1⟩

theorem agree_of (hs : Within m s) (hg : Marks m g s.toSet) : Agree m s g := ⟨hs.1, hs.2, hg⟩

theorem agree_nil : Agree m [] (constant m (wholeZero : Number)) :=
  ⟨nodup_nil, by simp, by rw [toSet_nil]; exact marks_zero⟩

theorem Agree.compl (hk : Marks m h s.toSetᶜ) : Agree m (m.stateSet.diff s) h := by
  refine agree_of (within_stateSet.diff s) (hk.congr fun q hq => ?_)
  rw [toSet_diff, toSet_stateSet]
  exact (and_iff_right hq).symm

theorem Agree.union (hs : Agree m s g) (ht : Agree m t h) (hk : Marks m k (s.toSet ∪ t.toSet)) :
    Agree m (s.union t) k := agree_of (hs.within.union ht.within) (by rwa [toSet_union])

theorem Agree.inter (hs : Agree m s g) (hk : Marks m k (s.toSet ∩ t.toSet)) :
    Agree m (s.inter t) k := agree_of (hs.within.inter t) (by rwa [toSet_inter])

theorem Agree.sorted (hs : Agree m s g) : Agree m (Text.sorted s) g :=
  agree_of hs.within.sorted (by rw [toSet_sorted]; exact hs.2.2)

theorem Agree.isBelow (hs : Agree m s g) (ht : Agree m t h) : isBelow g h = .ok (s.subset t) := by
  obtain ⟨b, hb, hbelow⟩ := isBelow_spec hs.2.2 ht.2.2
  rw [hb, Except.ok.injEq, Bool.eq_iff_iff, hbelow, subset_iff]
  exact ⟨fun hall q hq => hall q (hs.2.1 q hq) hq, fun hall q _ hq => hall q hq⟩

/-- A set and degrees are computed that agree. -/
def AgreeValues (m : Model) (x : Outcome Names) (y : Outcome (Grades Number)) : Prop :=
  ∃ T k, x = .ok T ∧ y = .ok k ∧ Agree m T k

/-! ## Loops in step -/

section Loops

open Checker (Computes)

variable {step : Names → Outcome Names} {F : Set String → Set String} (hF : Computes m.stateSet step F)
  {graded : Grades Number → Outcome (Grades Number)}
  (hf : ∀ {g X}, Marks m g X → ∃ k, graded g = .ok k ∧ Marks m k (F X))

include hF hf

theorem agree_step (hs : Agree m s g) : AgreeValues m (step s) (graded g) := by
  obtain ⟨t, ht, hn, hset⟩ := hF.value s (by rw [toSet_stateSet]; exact hs.2.1)
  obtain ⟨k, hk, hmarks⟩ := hf hs.2.2
  have hin := hF.inside s.toSet
  rw [← hset, toSet_stateSet] at hin
  exact ⟨t, k, ht, hk, hn, fun _ hq => hin hq, hset ▸ hmarks⟩

theorem agree_grow : ∀ (n k : Nat) {s t r : Names} {g h : Grades Number}, n ≤ k → Checker.grow step n s t = .ok r →
    Agree m s g → Agree m t h → ∃ z, grow graded k g h = .ok z ∧ Agree m r z
  | 0, _, _, _, _, _, _, _, hr, _, _ => by cases hr
  | n + 1, 0, _, _, _, _, _, hk, _, _, _ => by omega
  | n + 1, k + 1, s, t, r, g, h, hk, hr, hs, ht => by
    unfold Checker.grow at hr
    simp only [grow, ht.isBelow hs, bind, Except.bind]
    split at hr
    · rename_i hstop
      cases hr
      exact ⟨g, by rw [if_pos hstop]; rfl, hs⟩
    · rename_i hstop
      obtain ⟨g', hg', hgm⟩ := combine_larger hs.2.2 ht.2.2
      obtain ⟨t', h', ht', hh', hnext⟩ := agree_step hF hf (hs.union ht hgm)
      simp only [ht'] at hr
      simp only [if_neg hstop, hg', hh']
      exact agree_grow n k (by omega) hr (hs.union ht hgm) hnext

theorem agree_shrink : ∀ (n k : Nat) {s t r : Names} {g h : Grades Number}, n ≤ k → Checker.shrink step n s t = .ok r →
    Agree m s g → Agree m t h → ∃ z, shrink graded k g h = .ok z ∧ Agree m r z
  | 0, _, _, _, _, _, _, _, hr, _, _ => by cases hr
  | n + 1, 0, _, _, _, _, _, hk, _, _, _ => by omega
  | n + 1, k + 1, s, t, r, g, h, hk, hr, hs, ht => by
    unfold Checker.shrink at hr
    simp only [shrink, hs.isBelow ht, bind, Except.bind]
    split at hr
    · rename_i hstop
      cases hr
      exact ⟨g, by rw [if_pos hstop]; rfl, hs⟩
    · rename_i hstop
      obtain ⟨t', h', ht', hh', hnext⟩ := agree_step hF hf ht
      simp only [ht'] at hr
      simp only [if_neg hstop, hh']
      exact agree_shrink n k (by omega) hr ht hnext

end Loops

/-! ## Operators -/

section Operators

open Checker.Alternating (Unary Binary coalitionOf computes_pre_part)

variable (hl : m.Live)

theorem Agree.length_le (hs : Agree m s g) : s.length ≤ g.length := by
  rw [← hs.2.2.length_eq]
  exact Names.length_le hs.1 hs.2.1

theorem rounds_le (hs : Agree m s g) : Checker.Alternating.rounds m s ≤ rounds m g := by
  have hlen := hs.length_le
  have heq := hs.2.2.length_eq
  have hmul := Nat.mul_le_mul_left (m.states.length + 2) (show 3 ≤ g.length + 3 by omega)
  unfold Checker.Alternating.rounds rounds
  omega

section Coalition

variable {members : List Int} {x : String} (hc : positions (names (coalitionOf l)) = .ok members) (hne : members ≠ [])

include hl hc hne

theorem agree_next (hs : Agree m s g) (hx : readGrades x = .ok g) :
    AgreeValues m (Unary.next.apply m l s) (temporal m .next l (some x)) := by
  obtain ⟨T, hT, hn, hset⟩ := yields_apply_next (computes_pre_part hl hc) hs.within
  obtain ⟨k, hk, hmarks⟩ := pre_spec hl hc hne hs.2.2
  rw [← hset] at hmarks
  exact ⟨T, k, hT, by rw [temporal, hx]; exact hk, hn, fun q hq => (hset.le hq).1, hmarks⟩

theorem agree_eventually (hs : Agree m s g) (hx : argument (some x) = .ok g) :
    AgreeValues m (Unary.eventually.apply m l s) (temporal m .eventually l (some x)) := by
  have hF := computes_pre_part hl hc
  have hX := (hl.proper members).isLeast_eventually hs.2.1
  obtain ⟨T, hT, -⟩ := yields_apply_eventually hF hs.within hX
  obtain ⟨k, hk, hTk⟩ := agree_grow hF (literal_pre_spec hl hc hne) _ _ (rounds_le hs) hT agree_nil hs
  exact ⟨T, k, hT, by rw [temporal, hx]; exact hk, hTk⟩

theorem agree_globally (hs : Agree m s g) (hx : argument (some x) = .ok g) :
    AgreeValues m (Unary.globally.apply m l s) (temporal m .globally l (some x)) := by
  have hp := hl.proper members
  have hF := computes_pre_part hl hc
  obtain ⟨T, hT, -⟩ := yields_apply_globally hp rfl hF hs.within (hp.isGreatest_globally hs.2.1)
  obtain ⟨k, hk, hTk⟩ := agree_shrink (hF.inter s) (inter_pre_spec hl hc hne hs.2.2) _ _ (rounds_le hs) hT
    (agree_of within_stateSet (by rw [toSet_stateSet]; exact marks_one)) hs
  exact ⟨T, k, hT, by rw [temporal, hx]; exact hk, hTk⟩

theorem agree_untl (hs : Agree m s g) (ht : Agree m t h) : AgreeValues m (Binary.untl.apply m l s t)
    (grow (fun p => do combine smaller (← literal (← pre m (coalitionOf l) p)) g) (rounds m g + rounds m h)
      (constant m (wholeZero : Number)) h) := by
  have hF := computes_pre_part hl hc
  have hX := (hl.proper members).isLeast_until (φ := s.toSet) ht.2.1
  obtain ⟨T, hT, -⟩ := yields_apply_untl hF ht.within hX
  obtain ⟨k, hk, hTk⟩ := agree_grow (hF.inter s) (inter_pre_spec hl hc hne hs.2.2) _ _
    (Nat.le_add_left_of_le (rounds_le ht)) hT agree_nil ht
  exact ⟨T, k, hT, hk, hTk⟩

end Coalition

end Operators

/-! ## Checking -/

def AgreeTexts (m : Model) (x y : Outcome String) : Prop :=
  ∃ T g, x = .ok T.print ∧ y = .ok (printGrades g) ∧ Agree m T g

section Checking

open Checker.Alternating (Unary Binary coalitionOf)

variable (hl : m.Live) (hne : m.states ≠ []) (hnames : ∀ q ∈ m.states, ∃ i : Nat, q = Model.defaultName i)

theorem temporalOf?_unmarked (h : Unmarked l) : temporalOf? l = none := by
  obtain ⟨-, hcoal⟩ := marks_atl.absent (l := .atl) h
  unfold temporalOf?
  simp only [hcoal, Bool.false_and, Bool.false_eq_true, if_false]

include hnames in
theorem one_printGrades (hg : Marks m g X) : one Number m (printGrades g) none = .ok (printGrades g) := by
  have hu := hg.unmarked hnames
  obtain ⟨hnot, -⟩ := marks_atl.absent (l := .atl) hu
  unfold one
  rw [hnot]
  simp only [Bool.false_eq_true, if_false, bind, Except.bind, pure, Except.pure, temporalOf?_unmarked hu]

include hne hnames in
theorem Agree.read (hs : Agree m s g) : ∃ g', splitGrades (printGrades g) = .ok g' ∧ Agree m (Text.sorted s) g' := by
  obtain ⟨g', hg', hmarks⟩ := hs.2.2.splitGrades hnames hne
  exact ⟨g', hg', (agree_of hs.within hmarks).sorted⟩

include hne hnames in
theorem agree_not (hs : Agree m s g) : AgreeTexts m (Checker.Alternating.one m "!" (some s.print))
    (one Number m "!" (some (printGrades g))) := by
  obtain ⟨g', hg', hs'⟩ := hs.read hne hnames
  obtain ⟨k, hk, hmarks⟩ := negate_spec hs'.2.2
  refine ⟨m.stateSet.diff (Text.sorted s), k, ?_, ?_, Agree.compl hmarks⟩
  · have hof : Unary.of? "!" = some .not := by decide
    simp only [Checker.Alternating.one, hof, Checker.argument, read_print hs.1]
    rfl
  · have hnot : (kindsIn .atl "!").contains .not = true := by decide
    have hu := hmarks.unmarked hnames
    unfold one
    rw [hnot]
    simp only [if_true, temporal, argument, hg', hk, bind, Except.bind, pure, Except.pure, temporalOf?_unmarked hu]

/-- The operators of one coalition on one set, with their letters. -/
def letters : List (Unary × String) := [(.next, "X"), (.eventually, "F"), (.globally, "G")]

theorem one_label (hagents : agents ≠ []) (hop : (op, letter) ∈ letters)
    (arg : Option String) :
    one Number m (label agents letter) arg =
      (do return printGrades (← (temporal m op (label agents letter) arg : Outcome (Grades Number)))) := by
  have hletters : ∀ e ∈ letters, (kindsIn .atl (label [0] e.2)).contains .not = false ∧
      temporalOf? (label [0] e.2) = some e.1 := by decide
  obtain ⟨hnot, hof⟩ := hletters _ hop
  have hsame : temporalOf? (label agents letter) = some op := by
    unfold temporalOf? at hof ⊢
    rwa [kindsIn_label_eq hagents]
  unfold one
  rw [kindsIn_label_eq hagents, hnot]
  simp only [Bool.false_eq_true, if_false, bind, Except.bind, pure, Except.pure, hsame]

include hl hne hnames in
theorem agree_temporal (hagents : agents ≠ []) (hlt : ∀ a ∈ agents, a < 10 ^ Text.maxDigits)
    (hop : (op, letter) ∈ letters) (hs : Agree m s g) :
    AgreeTexts m (Checker.Alternating.one m (label agents letter) (some s.print))
      (one Number m (label agents letter) (some (printGrades g))) := by
  have hlen : ∀ e ∈ letters, e.2.toList.length = 1 := by decide
  obtain ⟨members, hc, hmembers⟩ := positions_label hagents hlt (hlen _ hop)
  obtain ⟨g', hg', hs'⟩ := hs.read hne hnames
  -- the crisp and the graded operator, applied to what is read back from the texts
  have happly : AgreeValues m (op.apply m (label agents letter) (Text.sorted s))
      (temporal m op (label agents letter) (some (printGrades g))) := by
    fin_cases hop
    · exact agree_next hl hc hmembers hs.sorted (hs.2.2.readGrades hnames)
    · exact agree_eventually hl hc hmembers hs' hg'
    · exact agree_globally hl hc hmembers hs' hg'
  obtain ⟨T, k, hT, hk, hTk⟩ := happly
  refine ⟨T, k, ?_, ?_, hTk⟩
  · have hletters : ∀ e ∈ letters, Unary.of? (label [0] e.2) = some e.1 := by decide
    have hof := Unary.of?_label hagents (hletters _ hop)
    simp only [Checker.Alternating.one, hof, Checker.argument, read_print hs.1, bind, Except.bind, hT]
    rfl
  · rw [one_label hagents hop, hk]
    rfl

def connectives : List (Binary × List String) :=
  [(.or, ["||", "|", "or"]), (.and, ["&&", "&", "and"]), (.implies, ["->", ">", "implies"])]

include hne hnames in
theorem agree_connective {op : Binary} {ls : List String} (hop : (op, ls) ∈ connectives) (hl : l ∈ ls)
    (hs : Agree m s g) (ht : Agree m t h) : AgreeTexts m (Checker.Alternating.two m l s.print t.print)
      (two Number m l (printGrades g) (printGrades h)) := by
  have hlabels : ∀ e ∈ connectives, ∀ l ∈ e.2, Binary.of? l = some e.1 ∧ binaryOf? l = some e.1 := by decide
  obtain ⟨hof, hof'⟩ := hlabels _ hop l hl
  obtain ⟨g', hg', hs'⟩ := hs.read hne hnames
  obtain ⟨h', hh', ht'⟩ := ht.read hne hnames
  simp only [AgreeTexts, Checker.Alternating.two, two, hof, hof', read_print hs.1, read_print ht.1, hg', hh',
    bind, Except.bind]
  fin_cases hop
  · obtain ⟨k, hk, hmarks⟩ := combine_larger hs'.2.2 ht'.2.2
    exact ⟨_, k, rfl, by simp only [hk]; rfl, hs'.union ht' hmarks⟩
  · obtain ⟨k, hk, hmarks⟩ := combine_smaller hs'.2.2 ht'.2.2
    exact ⟨_, k, rfl, by simp only [hk]; rfl, hs'.inter hmarks⟩
  · obtain ⟨n, hn, hnot⟩ := negate_spec hs'.2.2
    have hcompl := Agree.compl hnot
    obtain ⟨k, hk, hmarks⟩ := combine_larger hcompl.2.2 ht'.2.2
    exact ⟨_, k, rfl, by simp only [hn, hk]; rfl, hcompl.union ht' hmarks⟩

include hl hne hnames in
theorem agree_until (hagents : agents ≠ []) (hlt : ∀ a ∈ agents, a < 10 ^ Text.maxDigits) (hs : Agree m s g)
    (ht : Agree m t h) :
    AgreeTexts m (Checker.Alternating.two m (label agents "U") s.print t.print)
      (two Number m (label agents "U") (printGrades g) (printGrades h)) := by
  obtain ⟨members, hc, hmembers⟩ := positions_label hagents hlt (show "U".toList.length = 1 from rfl)
  have hof := Checker.Alternating.of?_untl hagents
  have hof' : binaryOf? (label agents "U") = some .untl := by
    have hnobody : binaryOf? (label [0] "U") = some .untl := by decide
    unfold binaryOf? at hnobody ⊢
    rwa [kindsIn_label_eq hagents]
  obtain ⟨g', hg', hs'⟩ := hs.read hne hnames
  obtain ⟨h', hh', ht'⟩ := ht.read hne hnames
  obtain ⟨T, k, hT, hk, hTk⟩ := agree_untl hl hc hmembers hs' ht'
  simp only [bind, Except.bind] at hk
  simp only [AgreeTexts, Checker.Alternating.two, two, hof, hof', read_print hs.1, read_print ht.1, hg', hh',
    bind, Except.bind, hT]
  exact ⟨T, k, rfl, by rw [hk]; rfl, hTk⟩

end Checking

/-! ## Formulas -/

/-- A formula of coalitions over the propositions of a model. -/
inductive Coalitional (m : Model) : Formula → Prop
  | atom {p : String} (hp : p ∈ m.props) : Coalitional m (.atom p)
  | not {f : Formula} (hf : Coalitional m f) : Coalitional m (.unary "!" f)
  | connective {op : Binary} {ls : List String} {l : String} {f f' : Formula}
      (hop : (op, ls) ∈ connectives) (hl : l ∈ ls) (hf : Coalitional m f) (hf' : Coalitional m f') :
      Coalitional m (.binary l f f')
  | temporal {op : Unary} {letter : String} {agents : List Nat} {f : Formula}
      (hop : (op, letter) ∈ letters) (hne : agents ≠ []) (hlt : ∀ a ∈ agents, a < 10 ^ Text.maxDigits)
      (hf : Coalitional m f) : Coalitional m (.unary (label agents letter) f)
  | untl {agents : List Nat} {f f' : Formula} (hne : agents ≠ []) (hlt : ∀ a ∈ agents, a < 10 ^ Text.maxDigits)
      (hf : Coalitional m f) (hf' : Coalitional m f') : Coalitional m (.binary (label agents "U") f f')

/-- The labelling has a row for each state, with a cell for each proposition, and its cells are 0 or 1. -/
structure CrispLabels (m : Model) : Prop where
  rows : m.labels.length = m.states.length
  cells : ∀ row ∈ m.labels, m.props.length ≤ row.length
  bits : ∀ row ∈ m.labels, ∀ c ∈ row, c = .num 0 ∨ c = .num 1

theorem CrispLabels.labelsFit (h : CrispLabels m) : m.LabelsFit := ⟨h.rows.le, h.cells⟩

/-- The state of a row of the labelling with the degree of a column. -/
def cellGrade (m : Model) (k : Nat) : List Cell × Nat → Outcome (String × Option Number)
  | (row, i) => do
    let s ← m.stateAt i
    let x ← orFault .value (Degree.parse? (← nth row k).write)
    return (s, some x)

theorem cellGrade_spec {k i : Nat} {row : List Cell} {q : String} {c : Cell} (hq : m.states[i]? = some q)
    (hk : row[k]? = some c) (hc : c = .num 0 ∨ c = .num 1) :
    ∃ e, cellGrade m k (row, i) = .ok e ∧ e.1 = q ∧ Bit (c = .num 1) e.2 := by
  have hstate : m.stateAt i = .ok q := nth_eq_ok.2 hq
  have hcell : nth row k = .ok c := nth_eq_ok.2 hk
  simp only [cellGrade, hstate, hcell]
  rcases hc with rfl | rfl
  · exact ⟨_, rfl, rfl, _, 0, rfl, .inl rfl, .inr rfl, by decide⟩
  · exact ⟨_, rfl, rfl, _, 1, rfl, .inr rfl, .inr rfl, by decide⟩

theorem atomGrades_spec (hn : m.states.Nodup) (hb : CrispLabels m) {p : String} (hp : p ∈ m.props) :
    ∃ g, atomGrades m p = .ok (some g) ∧ Marks m g {q | m.Labelled p q} := by
  obtain ⟨k, hk⟩ := Option.isSome_iff_exists.1 (isSome_idxOf?.2 hp)
  obtain ⟨hlt, -⟩ := idxOf?_eq_some_iff.1 hk
  have hrow : ∀ e ∈ m.labels.zip (range m.labels.length), ∃ d, cellGrade m k e = .ok d ∧
      m.states[e.2]? = some d.1 ∧ Bit (d.1 ∈ {q | m.Labelled p q}) d.2 := by
    rintro ⟨row, i⟩ he
    rw [zip_range, mem_zipIdx_iff_getElem?] at he
    have hmem : row ∈ m.labels := mem_of_getElem? he
    have hi : i < m.states.length := hb.rows ▸ (lt_of_getElem? he)
    have hcol : k < row.length := Nat.lt_of_lt_of_le hlt (hb.cells row hmem)
    have hq : m.states[i]? = some m.states[i] := getElem?_eq_getElem hi
    have hc : row[k]? = some row[k] := getElem?_eq_getElem hcol
    obtain ⟨d, hd, hname, hbit⟩ := cellGrade_spec hq hc (hb.bits row hmem _ (getElem_mem hcol))
    refine ⟨d, hd, hname ▸ hq, hbit.congr ?_⟩
    show _ ↔ m.Labelled p d.1
    rw [hname, Model.labelled_iff hn hq]
    simp [Model.propIndex?, Model.cellAt?, hk, he, hc]
  obtain ⟨g, hg, hall⟩ := exists_mapM_forall₂ hrow
  refine ⟨g, ?_, ?_⟩
  · have hvalue : atomGrades m p = (do
        return some (← (m.labels.zip (range m.labels.length)).mapM (cellGrade m k))) := by
      simp only [atomGrades, Model.propIndex?, hk]
      rfl
    rw [hvalue, hg]
    rfl
  · unfold Marks
    rw [forall₂_iff_get] at hall ⊢
    obtain ⟨hlen, hat⟩ := hall
    have hzip : (m.labels.zip (range m.labels.length)).length = m.states.length := by simp [hb.rows]
    refine ⟨hzip.symm.trans hlen, fun i h₁ h₂ => ?_⟩
    obtain ⟨hstate, hbit⟩ := hat i (hzip ▸ h₁) h₂
    have hname : g[i].1 = m.states[i] := by
      simp only [get_eq_getElem, getElem_zip, getElem_range] at hstate
      rw [getElem?_eq_getElem h₁] at hstate
      exact (Option.some.inj hstate).symm
    refine ⟨hname, ?_⟩
    rw [get_eq_getElem, ← hname]
    exact hbit

theorem agree_solve (hl : m.Live) (hne : m.states ≠ []) (hnames : ∀ q ∈ m.states, ∃ i : Nat, q = Model.defaultName i)
    (hb : CrispLabels m) {f : Formula} (hf : Coalitional m f) :
    ∃ t u, Checker.Alternating.ground m f = .ok (some t) ∧ ground Number m f = .ok (some u) ∧
      AgreeTexts m (Checker.Alternating.solve m t) (solve Number m u) := by
  unfold Checker.Alternating.ground ground Checker.Alternating.solve solve
  induction hf with
  | @atom p hp =>
    obtain ⟨T, hT, hn, hset⟩ := atomText_spec hb.labelsFit hp
    obtain ⟨g, hg, hmarks⟩ := atomGrades_spec hl.nodup hb hp
    have hin : ∀ q ∈ T, q ∈ m.states := fun q hq => by
      obtain ⟨i, -, hi, -⟩ := hset.le hq
      exact mem_of_getElem? hi
    rw [← hset] at hmarks
    refine ⟨.leaf T.print, .leaf (printGrades g), by simp only [Tree.ground, hT]; rfl,
      by simp only [Tree.ground, hg]; rfl, T, g, ?_, ?_, hn, hin, hmarks⟩
    · refine one_print fun q hq => ?_
      obtain ⟨i, rfl⟩ := hnames q (hin q hq)
      exact unmarked_defaultName i
    · exact one_printGrades hnames hmarks
  | @not f _ ih =>
    obtain ⟨t, u, ht, hu, T, g, hT, hg, hagree⟩ := ih
    refine ⟨.unary "!" t, .unary "!" u, ground_unary ht, ground_unary hu, ?_⟩
    rw [solve_unary hT, solve_unary hg]
    exact agree_not hne hnames hagree
  | @connective op ls l f f' hop hlabel _ _ ih ih' =>
    obtain ⟨t, u, ht, hu, T, g, hT, hg, hagree⟩ := ih
    obtain ⟨t', u', ht', hu', T', g', hT', hg', hagree'⟩ := ih'
    refine ⟨.binary l t t', .binary l u u', ground_binary ht ht', ground_binary hu hu', ?_⟩
    rw [solve_binary hT hT', solve_binary hg hg']
    exact agree_connective hne hnames hop hlabel hagree hagree'
  | @temporal op letter agents f hop hagents hlt _ ih =>
    obtain ⟨t, u, ht, hu, T, g, hT, hg, hagree⟩ := ih
    refine ⟨.unary _ t, .unary _ u, ground_unary ht, ground_unary hu, ?_⟩
    rw [solve_unary hT, solve_unary hg]
    exact agree_temporal hl hne hnames hagents hlt hop hagree
  | @untl agents f f' hagents hlt _ _ ih ih' =>
    obtain ⟨t, u, ht, hu, T, g, hT, hg, hagree⟩ := ih
    obtain ⟨t', u', ht', hu', T', g', hT', hg', hagree'⟩ := ih'
    refine ⟨.binary _ t t', .binary _ u u', ground_binary ht ht', ground_binary hu hu', ?_⟩
    rw [solve_binary hT hT', solve_binary hg hg']
    exact agree_until hl hne hnames hagents hlt hagree hagree'

/-- Both checkers solve a formula, and the degrees are 0 or 1: 1 for exactly the states of the set. -/
def SolvesCrisp (m : Model) (f : Formula) : Prop :=
  ∃ t u T g, Checker.Alternating.ground m f = .ok (some t) ∧ Checker.Alternating.solve m t = .ok (Names.print T) ∧
    ground Number m f = .ok (some u) ∧ solve Number m u = .ok (printGrades g) ∧
    readGrades (printGrades g) = .ok g ∧ g.map (·.1) = m.states ∧
    ∀ q x, (q, x) ∈ g → ∃ d : Number, x = some d ∧ (d.Denotes 0 ∨ d.Denotes 1) ∧ (d.Denotes 1 ↔ q ∈ T)

/-- Over a labelling by 0 and 1 the graded checker gives each state the degree 0 or 1, and it gives the degree
1 to exactly the states in the set that the crisp checker computes for the same formula. -/
theorem solve_crisp (hl : m.Live) (hne : m.states ≠ [])
    (hnames : ∀ q ∈ m.states, ∃ i : Nat, q = Model.defaultName i) (hb : CrispLabels m) {f : Formula}
    (hf : Coalitional m f) : SolvesCrisp m f := by
  obtain ⟨t, u, ht, hu, T, g, hT, hg, -, -, hmarks⟩ := agree_solve hl hne hnames hb hf
  refine ⟨t, u, T, g, ht, hT, hu, hg, hmarks.readGrades hnames, ?_, fun q x hx => ?_⟩
  · exact map_fst_of_marked hmarks
  · obtain ⟨q', -, hname, d, a, hd, ha, hv, hset⟩ := exists_of_mem_forall₂ hmarks hx
    obtain rfl : q = q' := hname
    refine ⟨d, hd, ?_, ?_⟩
    · rcases ha with rfl | rfl
      · exact .inl hv
      · exact .inr hv
    · rw [← Names.mem_toSet, ← hset]
      constructor
      · exact fun h1 => hv.unique ha (.inr rfl) h1
      · rintro rfl
        exact hv

theorem solve_crisp_matching : SolvesCrisp matching (.binary (Coalition.label [1] "U") (.unary "!" (.atom "p"))
    (.unary (Coalition.label [2, 1] "X") (.atom "p"))) := by
  have hlt : ∀ a ∈ [2, 1], a < 10 ^ Text.maxDigits := fun a ha =>
    Text.lt_pow_maxDigits ((by decide : ∀ a ∈ [2, 1], a < 10) a ha)
  exact solve_crisp matching_playable.live (by decide) matching_names
    ⟨by decide, by decide, by decide⟩
    (.untl (by decide) (fun a ha => hlt a (mem_cons_of_mem _ ha)) (.not (.atom (by decide)))
      (.temporal (show (Checker.Alternating.Unary.next, "X") ∈ letters by decide) (by decide) hlt (.atom (by decide))))

end Arena.Fuzzy.Alternating
