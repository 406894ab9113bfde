/-
The verdict on the initial state. A checker looks for its name in the text of the set that it has found, where one
default name may begin another, as `s1` does `s10`. So the verdict says whether the set has a name that begins with the
initial one: that is, whether it has the initial state, if that is the first one or the model has too few states for a
longer numeral.
-/
import Arena.Checker.Method
import Arena.Proofs.Checker.BoundedRenaming

namespace Arena.Checker

open Formula Model Names Lexicon Alternating List

variable {S R : Names} {m : Model} {x source formula label y : String} {report : Report} {coalition : String}
  {method : Method} {reader : Logic} {T : Names}

/-! ## Numerals -/

theorem eq_or_le_of_begins {k i : Nat} (h : (defaultName k).toList <+: (defaultName i).toList) :
    i = k ∨ 10 * k ≤ i := by
  rw [toList_defaultName, toList_defaultName, prefix_cons_inj] at h
  obtain ⟨ds, hds⟩ := h
  have hi : i = 10 ^ ds.length * k + Nat.ofDigitChars 10 ds 0 := by
    have hvalue := congrArg (Nat.ofDigitChars 10 · 0) hds
    simp only [Nat.ofDigitChars_append, Nat.ofDigitChars_ten_toDigits] at hvalue
    rw [← hvalue, Nat.ofDigitChars_eq_ofDigitChars_zero]
  cases ds with
  | nil => exact .inl (by simpa [Nat.ofDigitChars_nil] using hi)
  | cons d ds =>
    have hpow : 10 * k ≤ 10 ^ (d :: ds).length * k := by
      rw [length_cons, Nat.pow_succ, Nat.mul_comm (10 ^ ds.length), Nat.mul_assoc]
      exact Nat.mul_le_mul_left 10 (Nat.le_mul_of_pos_left k (Nat.pow_pos (by decide)))
    omega

/-! ## Texts of sets of states -/

/-- A text that denotes a set of states of a model, if any set. -/
def Inside (m : Model) (x : String) : Prop := ∀ S, read x = .ok S → Within m S

theorem Within.inside (h : Within m S) : Inside m S.print := by
  intro T hT
  rw [read_print h.1] at hT
  cases hT
  exact h.sorted

def Illegible (x : String) : Prop := ∃ e, read x = .error e

theorem Illegible.inside (h : Illegible x) : Inside m x := by
  intro S hS
  obtain ⟨e, he⟩ := h
  rw [he] at hS
  cases hS

/-- A report that has no result, or one that denotes a set of states, if any set. -/
inductive Answers (m : Model) : Report → Prop
  | message (s : String) : Answers m (.message s)
  | solved {x : String} (h : Inside m x) : Answers m (.solved m x)

def initialLine (m : Model) (answer : String) : String := "Initial state " ++ m.initial ++ ": " ++ answer

/-- For a model with default names, the verdict on a set is whether one of its names begins with the initial one. -/
theorem Answers.verdict (h : Answers m report) (hsolved : report.initial? ≠ some "")
    (hnames : ∀ q ∈ m.states, ∃ i : Nat, q = defaultName i) {k : Nat} (hinitial : m.initial = defaultName k)
    (hT : T.Nodup) (hresult : report.result = "Result: " ++ T.print) :
    (∀ q ∈ T, q ∈ m.states) ∧ ∃ b : Bool, (b = true ↔ ∃ q ∈ T, m.initial.toList <+: q.toList) ∧
      report.initial? = some (initialLine m (Report.truth b)) := by
  cases h with
  | message s => exact absurd rfl hsolved
  | @solved x hx =>
    obtain rfl : x = T.print := by
      have := congrArg String.toList hresult
      rw [Report.solved, String.toList_append, String.toList_append] at this
      exact String.toList_injective (append_cancel_left this)
    have hin : ∀ q ∈ T, q ∈ m.states := by
      intro q hq
      exact (hx _ (read_print hT)).2 q (Text.mem_sorted.2 hq)
    refine ⟨hin, Report.verdict m T.print, ?_, rfl⟩
    rw [Report.verdict, hinitial]
    exact contains_print_begins (fun q hq => hnames q (hin q hq)) k

/-! ## Branching time -/

theorem Branching.answers (hload : load .plain source = .ok m)
    (hnames : ∀ q ∈ m.states, ∃ i : Nat, q = defaultName i)
    (h : check .ctl source formula = .ok report) : Answers m report := by
  have hquiet : Unary.of? (m.rename id).stateSet.print = none := by
    refine branching_of?_print fun q hq => ?_
    obtain ⟨i, rfl⟩ := hnames q (by simpa [stateSet, rename] using hq)
    exact plain_defaultName i
  unfold check at h
  split at h
  · cases h
    exact .message _
  · rw [hload] at h
    obtain ⟨-, -, ⟨s, rfl, -⟩ | ⟨S, hS, hin, rfl, -⟩⟩ :=
      checkModel_rename (f := id) (fun _ _ _ _ he => he) hquiet h
    · exact .message s
    · exact .solved (Within.inside ⟨hS, hin⟩)

/-! ## Coalitions -/

namespace Alternating

theorem writes_illegible (agents : AgentCount) (s : String) :
    (Logic.grammar agents .atl).Writes (· ∈ atl.tokens s) Illegible Illegible := by
  have hkinds : (atl.map (·.kind)).Nodup := by decide
  have hword : ∀ {t} (r : Formula.Rule) (ws : List String), t ∈ atl.tokens s → r ∈ atl →
      t.kind = r.kind → r.reads = oneOf ws → (∀ w ∈ ws, w ∈ Bounded.connectives) → Illegible t.text := by
    intro t r ws ht hr hk hreads hws
    exact Bounded.read_connective (hws _ (text_mem hkinds ht hr hk hreads))
  have hhead : ∀ (b : Bool) {t o : Token} {label : String}, t ∈ atl.tokens s →
      t.kind ∈ (Grammar.atl agents).heads → checkedHead agents b t.text o.text = .ok (some label) →
      Illegible label := by
    intro b t o label ht hk hrule
    have hk : t.kind = coalition.kind := mem_singleton.1 hk
    obtain ⟨_, lexeme, rest, hread, htext⟩ := exists_rule hkinds ht (by simp [atl]) hk
    obtain ⟨a, _, b, ha, -, rfl⟩ := sequence_cons_eq hread
    obtain ⟨-, -, hlabel⟩ := bind_eq_ok.1 hrule
    cases hlabel
    have hlabel : (t.text ++ o.text).toList = '<' :: (b ++ o.text.toList) := by
      rw [htext, (literal_eq_some ha).1]
      simp
    exact Bounded.read_bracket hlabel
  have hbinary : ∀ {t : Token}, t.kind ∈ (Grammar.atl agents).binaries →
      t.kind = .and ∨ t.kind = .or ∨ t.kind = .implies := by
    intro t hk
    simpa [Grammar.atl, Grammar.propositional] using hk
  refine ⟨fun ht hk => ?_, fun ht hk => ?_, fun ht _ hk _ hrule => hhead false ht hk hrule,
    fun ht _ hk _ hrule => hhead true ht hk hrule, rfl⟩
  · exact hword Lexicon.not _ ht (by simp [atl]) (mem_singleton.1 hk) rfl (by decide)
  · rcases hbinary hk with hk | hk | hk
    · exact hword Lexicon.and _ ht (by simp [atl]) hk rfl (by decide)
    · exact hword Lexicon.or _ ht (by simp [atl]) hk rfl (by decide)
    · exact hword implies _ ht (by simp [atl]) hk rfl (by decide)

theorem within_preRows {columns : List Nat} : ∀ {rows : Matrix} {i : Nat} {qs : Names},
    preRows m coalition columns i rows = .ok qs → ∀ q ∈ qs, q ∈ m.states
  | [], _, _, h => by
    cases h
    simp
  | row :: rows, i, qs, h => by
    have hrest : ∀ here : Names, (∀ q ∈ here, q ∈ m.states) →
        (do let others ← preRows m coalition columns (i + 1) rows; return here ++ others) = .ok qs →
        ∀ q ∈ qs, q ∈ m.states := by
      intro here hhere h q hq
      obtain ⟨others, hothers, h⟩ := bind_eq_ok.1 h
      cases h
      exact (mem_append.1 hq).elim (hhere q) (within_preRows hothers q)
    obtain ⟨moves, -, h⟩ := bind_eq_ok.1 h
    split at h
    · exact hrest [] (by simp) h
    · obtain ⟨members, -, h⟩ := bind_eq_ok.1 h
      split at h
      · obtain ⟨q, hq, h⟩ := bind_eq_ok.1 h
        exact hrest [q] (by simpa using mem_of_nth hq) h
      · exact hrest [] (by simp) h

theorem within_pre (h : pre m coalition S = .ok R) : Within m R := by
  obtain ⟨columns, -, h⟩ := bind_eq_ok.1 h
  obtain ⟨_, -, h⟩ := bind_eq_ok.1 h
  obtain ⟨qs, hqs, h⟩ := bind_eq_ok.1 h
  cases h
  exact ⟨nodup_ofList qs, fun q hq => within_preRows hqs q (mem_ofList.1 hq)⟩

theorem within_step (S : Names) {P : Names} (h : (do return (← pre m coalition P).inter S) = .ok R) : Within m R := by
  obtain ⟨T, hT, h⟩ := bind_eq_ok.1 h
  cases h
  exact (within_pre hT).inter S

theorem Unary.within {op : Unary} (hS : Within m S) (h : op.apply m label S = .ok R) : Within m R := by
  cases op with
  | not =>
    cases h
    exact within_stateSet.diff S
  | globally => exact shrink_keeps (fun _ _ => within_step S) _ within_stateSet hS h
  | next => exact within_pre h
  | eventually =>
    exact grow_keeps (fun _ _ => Within.union) (fun _ _ => within_pre) _ ⟨nodup_nil, by simp⟩ hS h

theorem Binary.within {op : Binary} (hS : Within m S) (hT : Within m T) (h : op.apply m label S T = .ok R) :
    Within m R := by
  cases op with
  | or =>
    cases h
    exact hS.union hT
  | untl =>
    exact grow_keeps (fun _ _ => Within.union) (fun _ _ => within_step S) _ ⟨nodup_nil, by simp⟩ hT h
  | and =>
    cases h
    exact hS.inter T
  | implies =>
    cases h
    exact (within_stateSet.diff S).union hT

theorem inside_one {arg : Option String} (hlabel : Inside m label) (harg : ∀ y ∈ arg, Inside m y)
    (h : one m label arg = .ok x) : Inside m x := by
  unfold one at h
  split at h
  · cases h
    exact hlabel
  · obtain ⟨S, hS, h⟩ := bind_eq_ok.1 h
    obtain ⟨R, hR, h⟩ := bind_eq_ok.1 h
    cases h
    cases arg with
    | none => cases hS
    | some y => exact (Unary.within (harg y rfl S hS) hR).inside

theorem inside_two {z : String} (hlabel : Inside m label) (hx : Inside m x) (hy : Inside m y)
    (h : two m label x y = .ok z) : Inside m z := by
  unfold two at h
  split at h
  · cases h
    exact hlabel
  · obtain ⟨S, hS, h⟩ := bind_eq_ok.1 h
    obtain ⟨T, hT, h⟩ := bind_eq_ok.1 h
    obtain ⟨R, hR, h⟩ := bind_eq_ok.1 h
    cases h
    exact (Binary.within (hx S hS) (hy T hT) hR).inside

theorem inside_solve {f : Formula} (hf : Labelled Illegible Illegible f) :
    ∀ {t : Tree} {x : String}, ground m f = .ok (some t) → solve m t = .ok x → Inside m x := by
  have hleaf : ∀ {name : String} {t : Tree} {x : String},
      (do return (← atomText m name).map Tree.leaf) = .ok (some t) → solve m t = .ok x → Inside m x := by
    intro name t x h hx
    obtain ⟨y?, hy, ht⟩ := bind_eq_ok.1 h
    cases y? with
    | none => cases ht
    | some y =>
      cases ht
      obtain ⟨S, rfl, hS, hin⟩ := atomText_states hy
      exact inside_one (Within.inside ⟨hS, hin⟩) (by simp) hx
  induction f with
  | atom name =>
    intro t x ht
    exact hleaf ht
  | hole =>
    intro t x ht
    exact hleaf ht
  | unary l f ih =>
    intro t x ht hx
    obtain ⟨u, rfl, hu⟩ := Tree.exists_of_ground_unary ht
    obtain ⟨y, hy, hx⟩ := bind_eq_ok.1 hx
    exact inside_one hf.1.inside (by rintro _ ⟨⟩; exact ih hf.2 hu hy) hx
  | binary l f g ihf ihg =>
    intro t x ht hx
    obtain ⟨u, v, rfl, hu, hv⟩ := Tree.exists_of_ground_binary ht
    obtain ⟨y, hy, hx⟩ := bind_eq_ok.1 hx
    obtain ⟨z, hz, hx⟩ := bind_eq_ok.1 hx
    exact inside_two hf.1.inside (ihf hf.2.1 hu hy) (ihg hf.2.2 hv hz) hx
  | starred f ih =>
    intro t x ht
    exact ih hf ht

theorem answers (hload : load .plain source = .ok m) (h : check .atl source formula = .ok report) :
    Answers m report := by
  unfold check at h
  split at h
  · cases h
    exact .message _
  obtain ⟨_, hm, h⟩ := bind_eq_ok.1 h
  cases hload.symm.trans hm
  obtain ⟨agents, -, h⟩ := bind_eq_ok.1 h
  obtain ⟨f?, hparse, h⟩ := bind_eq_ok.1 h
  cases f? with
  | none =>
    cases h
    exact .message _
  | some f =>
    obtain ⟨t?, ht, h⟩ := bind_eq_ok.1 h
    cases t? with
    | none =>
      cases h
      exact .message _
    | some t =>
      obtain ⟨x, hx, h⟩ := bind_eq_ok.1 h
      cases h
      have hparse : (Logic.grammar agents .atl).parse (atl.tokens formula) = .ok (some f) := by
        unfold parse at hparse
        dsimp only at hparse
        split at hparse
        · cases hparse
        · cases hparse
        · cases hparse
        · exact hparse
      have hlabels := Grammar.parse_labelled (writes_illegible agents formula) (fun _ ht => ht) hparse
      exact .solved (inside_solve hlabels ht hx)

end Alternating

/-! ## Coalitions with bounds -/

namespace Bounded

theorem calm_defaultName (p : Pricing) (i : Nat) : Calm p (defaultName i) := by
  intro k hk
  obtain ⟨t, ht, rfl⟩ := mem_map.1 hk
  obtain ⟨c, rest, lexeme, hc, hf, -⟩ := exists_front_of_mem _ _ ht
  have hchar : c = '\'' ∨ c = 's' ∨ c ∈ Text.decimals := by
    rw [Text.quote, String.toList_ofList, quoteList_defaultName] at hc
    rcases mem_cons.1 hc with rfl | hc
    · exact .inl rfl
    rcases mem_append.1 hc with hc | hc
    · exact .inr (mem_cons.1 (mem_defaultName hc))
    · exact .inl (mem_singleton.1 hc)
  have hfront : ∀ r ∈ p.logic.lexicon.front? (c :: rest), r.1 = .prop := by
    rcases hchar with rfl | rfl | hd
    · cases p <;> rintro _ ⟨⟩
    · cases p <;> rintro _ ⟨⟩ <;> rfl
    · fin_cases hd <;> cases p <;> rintro _ ⟨⟩ <;> rfl
  have hprop : t.kind = .prop := hfront _ hf
  rw [hprop]
  decide

theorem Image.answers {f : String → String} {m' : Model} {report' : Report} (h : Image f m m' report report') :
    Answers m report := by
  cases h with
  | message s => exact .message s
  | set hS hin => exact .solved (Within.inside ⟨hS, hin⟩)
  | label hl => exact .solved (Illegible.inside hl.read)

theorem answers {p : Pricing} (hload : load .cost source = .ok m)
    (hnames : ∀ q ∈ m.states, ∃ i : Nat, q = defaultName i) (h : check p p.logic source formula = .ok report) :
    Answers m report := by
  have hcalm : ∀ q ∈ m.states, Calm p q := by
    intro q hq
    obtain ⟨i, rfl⟩ := hnames q hq
    exact calm_defaultName p i
  have himage := ((quiet_refl hcalm).tandem_check hload hload formula).agree
  rw [← check_eq_direct hload hcalm, h] at himage
  cases himage with
  | ok hr => exact hr.answers

end Bounded

/-! ## The four checkers -/

/-- The checkers that answer with a set, each with its lexicon and the kind of its models. -/
def setMethods : List (Method × Logic × Kind) :=
  [(.branching, .ctl, .plain), (.alternating, .atl, .plain), (.jointPrices, .rbatl, .cost),
    (.pricesPerAgent, .rabatl, .cost)]

/-- What a method answers if it has checked nothing before. -/
def Method.first (method : Method) (reader : Logic) (source formula : String) : Outcome Report :=
  ((method.check reader (.ok source) formula).run.run []).1

/-- A blank formula is answered whatever the text is, so the text may be read in any case. -/
theorem Method.first_eq {f : String → Check Report}
    (hcheck : method.check reader (.ok source) formula = do
      let text ← if isBlankFormula formula && method ≠ .obstruction then pure "" else check.liftExcept (.ok source)
      f text) (hblank : isBlankFormula formula = true → ∀ text, f text = f source) :
    method.first reader source formula = ((f source).run.run []).1 := by
  rw [first, hcheck]
  split
  · rename_i hb
    exact congrArg (fun x : Check Report => (x.run.run []).1) (hblank (Bool.and_eq_true_iff.1 hb).1 "")
  · rfl

theorem Method.first_branching (source formula : String) :
    branching.first .ctl source formula = Branching.check .ctl source formula :=
  first_eq (f := fun text => check.liftExcept (Branching.check .ctl text formula)) rfl fun hb text => by
    simp only [Branching.check, hb, if_true]

theorem Method.first_alternating (source formula : String) :
    alternating.first .atl source formula = Alternating.check .atl source formula :=
  first_eq (f := fun text => check.liftExcept (Alternating.check .atl text formula)) rfl fun hb text => by
    simp only [Alternating.check, hb, if_true]

theorem Method.first_jointPrices (source formula : String) :
    jointPrices.first .rbatl source formula = Bounded.check .joint .rbatl source formula :=
  first_eq (f := fun text => Bounded.checkWith .joint .rbatl text formula) rfl fun hb text => by
    simp only [Bounded.checkWith, hb, if_true]

theorem Method.first_pricesPerAgent (source formula : String) :
    pricesPerAgent.first .rabatl source formula = Bounded.check .perAgent .rabatl source formula := by
  refine (first_eq (f := fun text => check.liftExcept (Bounded.check .perAgent .rabatl text formula)) (by unfold check; rfl)
    fun hb text => ?_).trans ?_
  · simp only [Bounded.check, Bounded.checkWith, hb, if_true]
  · generalize Bounded.check .perAgent .rabatl source formula = x
    rfl

theorem Method.answers_first {kind : Kind}
    (hmethod : (method, reader, kind) ∈ setMethods) (hload : load kind source = .ok m)
    (hnames : ∀ q ∈ m.states, ∃ i : Nat, q = defaultName i)
    (h : method.first reader source formula = .ok report) : Answers m report := by
  simp only [setMethods, mem_cons, Prod.mk.injEq, not_mem_nil, or_false] at hmethod
  rcases hmethod with ⟨rfl, rfl, rfl⟩ | ⟨rfl, rfl, rfl⟩ | ⟨rfl, rfl, rfl⟩ | ⟨rfl, rfl, rfl⟩
  · exact Branching.answers hload hnames (first_branching source formula ▸ h)
  · exact answers hload (first_alternating source formula ▸ h)
  · exact Bounded.answers (p := .joint) hload hnames (first_jointPrices source formula ▸ h)
  · exact Bounded.answers (p := .perAgent) hload hnames (first_pricesPerAgent source formula ▸ h)

theorem initialLine_inj : initialLine m x = initialLine m y ↔ x = y := by
  exact String.append_right_inj _

/-- For a model with the states `s0`, `s1`, … a checker that answers with a set says of the initial state whether a name
of the set begins with its name. So it says whether the set has the initial state, if that is `s0` or if the model has
no state whose number has a digit more. -/
theorem line_iff_begins {method : Method} {reader : Logic} {kind : Model.Kind}
    (hmethod : (method, reader, kind) ∈ setMethods) {source formula : String} {m : Model}
    (hload : Model.load kind source = .ok m) {n k : Nat}
    (hstates : m.states = (List.range n).map fun i : Nat => Model.defaultName i)
    (hinitial : m.initial = Model.defaultName k) {report : Report} (h : method.first reader source formula = .ok report)
    (hsolved : report.initial? ≠ some "") {T : Names} (hT : T.Nodup) (hresult : report.result = "Result: " ++ T.print) :
    (∀ q ∈ T, q ∈ m.states) ∧
      (report.initial? = some (initialLine m "True") ↔ ∃ q ∈ T, m.initial.toList <+: q.toList) ∧
      (report.initial? = some (initialLine m "False") ↔ ∀ q ∈ T, ¬ m.initial.toList <+: q.toList) ∧
      (k = 0 ∨ n ≤ 10 * k → (report.initial? = some (initialLine m "True") ↔ m.initial ∈ T)) := by
  have hnames : ∀ q ∈ m.states, ∃ i : Nat, q = Model.defaultName i := by
    intro q hq
    rw [hstates] at hq
    obtain ⟨i, -, rfl⟩ := mem_map.1 hq
    exact ⟨i, rfl⟩
  obtain ⟨hin, b, hb, hline⟩ := (Method.answers_first hmethod hload hnames h).verdict hsolved hnames hinitial hT hresult
  have htrue : report.initial? = some (initialLine m "True") ↔ ∃ q ∈ T, m.initial.toList <+: q.toList := by
    have htruth : ∀ b, Report.truth b = "True" ↔ b = true := by decide
    rw [hline, Option.some_inj, initialLine_inj, htruth, hb]
  have hfalse : report.initial? = some (initialLine m "False") ↔ ∀ q ∈ T, ¬ m.initial.toList <+: q.toList := by
    have htruth : ∀ b, Report.truth b = "False" ↔ ¬ b = true := by decide
    rw [hline, Option.some_inj, initialLine_inj, htruth, hb]
    push Not
    rfl
  refine ⟨hin, htrue, hfalse, fun hsmall => htrue.trans ⟨?_, fun hq => ⟨_, hq, prefix_rfl⟩⟩⟩
  rintro ⟨q, hq, hbegins⟩
  have hmem := hin q hq
  rw [hstates] at hmem
  obtain ⟨i, hi, rfl⟩ := mem_map.1 hmem
  rw [hinitial] at hbegins ⊢
  obtain rfl : i = k := by
    rcases hsmall with rfl | hle
    · exact eq_zero_of_begins hbegins
    · have hlt := mem_range.1 hi
      rcases eq_or_le_of_begins hbegins with rfl | hge
      · rfl
      · omega
  exact hq

/-! ## Eleven states -/

def perState (word : Nat → String) : String := " ".intercalate ((range 11).map word)

/-- The lines of a model whose eleven states stay where they are, with `p` in the last one and the second one as the
initial state. -/
def elevenLines : List String :=
  "Transition" :: (range 11).map (fun i => perState fun j => if i = j then "A" else "0") ++
    ["Unkown_Transition_by", "Name_State", perState fun i => defaultName i, "Initial_State", "s1",
      "Atomic_propositions", "p", "Labelling"] ++ replicate 10 "0" ++ ["1", "Number_of_agents", "1"]

def eleven (agents : Count) : Model where
  graph := (range 11).map fun i => (range 11).map fun j => if i = j then .text "A" else .zero
  states := (range 11).map fun i : Nat => defaultName i
  props := ["p"]
  labels := replicate 10 [.num 0] ++ [[.num 1]]
  initial := "s1"
  agents := agents

theorem load_eleven : load .plain (Bounded.textOf elevenLines) = .ok (eleven (.number 1)) ∧
    load .cost (Bounded.textOf elevenLines) = .ok (eleven (.text "1")) := ⟨load_join (by decide) (by decide), load_join (by decide) (by decide)⟩

def elevenReport : Report where
  result := "Result: \x7b's10'\x7d"
  initial? := some "Initial state s1: True"

theorem branching_eleven : Branching.check .ctl (Bounded.textOf elevenLines) "p" = .ok elevenReport := by
  have hcheck : Branching.checkModel .ctl (eleven (.number 1)) "p" = .ok elevenReport :=
    by decide +kernel
  rw [Branching.check, load_eleven.1]
  exact hcheck

theorem alternating_eleven : check .atl (Bounded.textOf elevenLines) "p" = .ok elevenReport := by
  rw [check, load_eleven.1]
  decide +kernel

theorem bounded_eleven (p : Bounded.Pricing) :
    Bounded.check p p.logic (Bounded.textOf elevenLines) "p" = .ok elevenReport := by
  rw [Bounded.check_of_load load_eleven.2 (by decide)]
  cases p <;> decide +kernel

theorem line_iff_begins_eleven :
    Method.first .jointPrices .rbatl (Bounded.textOf elevenLines) "p" = .ok elevenReport ∧
      (elevenReport.initial? = some (initialLine (eleven (.text "1")) "True") ↔
        ∃ q ∈ ["s10"], (eleven (.text "1")).initial.toList <+: q.toList) := by
  have hfirst := (Method.first_jointPrices (Bounded.textOf elevenLines) "p").trans (bounded_eleven .joint)
  have hresult : elevenReport.result = "Result: " ++ Names.print ["s10"] := by decide +kernel
  exact ⟨hfirst, (line_iff_begins (k := 1) (by decide) load_eleven.2 rfl (by decide) hfirst (by decide) (by decide)
    hresult).2.1⟩

/-- With eleven states the second one is reported to satisfy a formula that holds in the last one only. -/
theorem line_true_outside_set :
    (∀ e ∈ setMethods, e.1.first e.2.1 (Bounded.textOf elevenLines) "p" = .ok elevenReport) ∧
      elevenReport.result = "Result: " ++ Names.print ["s10"] ∧
      elevenReport.initial? = some "Initial state s1: True" ∧ "s1" ∉ ["s10"] := by
  refine ⟨?_, by decide +kernel, rfl, by decide⟩
  simp only [setMethods, forall_mem_cons, not_mem_nil, false_implies, implies_true, and_true]
  exact ⟨(Method.first_branching _ _).trans branching_eleven, (Method.first_alternating _ _).trans alternating_eleven,
    (Method.first_jointPrices _ _).trans (bounded_eleven .joint),
    (Method.first_pricesPerAgent _ _).trans (bounded_eleven .perAgent)⟩

end Arena.Checker
