/-
The states that an exploration finds, as sets of facts. All states found so far, each with the attacks that have been
tried in it, keep one invariant: they are numbered in their order, their sets are different and can be reached, and the
row of a state shows where the attacks tried in it lead. An attack keeps it, whether it leads to an old state or to a
new one; so when no state is left, the sets found are those that can be reached.
-/
import Arena.Attack.Exploration
import Arena.Proofs.Data.Names
import Mathlib.Data.Finset.Interval
import Mathlib.Logic.Relation

namespace Arena.Attack

open List

variable (switches : List String) {attacks tried : List Exploit} {a : Exploit} {x : Exploration} {s s' : State}
  {S T start : Finset Fact} {sets : List (Finset Fact)} {k found : Nat} {ks : List Nat} {mark : Int}

def State.facts (s : State) : Finset Fact := s.known.toFinset

/-- An attack leads from a set with all that it needs and without its gain to the set with its gain. -/
def Exploit.Leads (a : Exploit) (S T : Finset Fact) : Prop := a.gain ∉ S ∧ (∀ f ∈ a.needs, f ∈ S) ∧ T = insert a.gain S

def Step (attacks : List Exploit) (S T : Finset Fact) : Prop := ∃ a ∈ attacks, a.Leads S T

/-- The sets to which attacks lead, one after the other. -/
def Reachable (attacks : List Exploit) (start : Finset Fact) : Finset Fact → Prop :=
  Relation.ReflTransGen (Step attacks) start

theorem step_concat : Step (tried ++ [a]) S T ↔ Step tried S T ∨ a.Leads S T := by
  simp [Step, or_and_right, exists_or]

theorem leads_iff : a.Leads s.facts T ↔ a.canLaunch s.known = true ∧ T = insert a.gain s.facts := by
  simp [Exploit.canLaunch, Exploit.Leads, isWithin, State.facts, and_assoc]

theorem sameFacts_gain {t : State} :
    sameFacts (s.known ++ [a.gain]) t.known = true ↔ t.facts = insert a.gain s.facts := by
  simp only [sameFacts, isWithin, State.facts, Finset.ext_iff, Bool.and_eq_true, all_eq_true, contains_iff_mem,
    mem_append, mem_singleton, mem_toFinset, Finset.mem_insert]
  grind

/-! ## Rows -/

def State.entry (s : State) (j : Nat) : Int := s.links.getD j 0

theorem entry_link (s : State) {length : Nat} (h : k < length) (j : Nat) :
    (s.link k length mark).entry j = if j = k then mark else s.entry j := by
  simp only [State.entry, State.link, padded, getD_eq_getElem?_getD, getElem?_set, getElem?_append, getElem?_replicate,
    length_append, length_replicate]
  grind

/-- A state that differs from another in its row only, which has some more entries. -/
structure Linked (ks : List Nat) (s s' : State) : Prop where
  number : s'.number = s.number
  facts : s'.facts = s.facts
  entry : ∀ j, s'.entry j ≠ 0 ↔ j ∈ ks ∨ s.entry j ≠ 0

theorem linked_link (s : State) {length : Nat} (h : k < length) (hmark : mark ≠ 0) :
    Linked [k] s (s.link k length mark) := by
  refine ⟨rfl, rfl, fun j => ?_⟩
  rw [entry_link s h, mem_singleton]
  split
  · simp [*]
  · simp [*]

theorem linked_foldl (hmark : mark ≠ 0) : ∀ (olds : List State) (s : State),
    Linked (olds.map (·.number)) s (olds.foldl (fun s t => s.link t.number (t.number + 1) mark) s)
  | [], s => ⟨rfl, rfl, by simp⟩
  | t :: olds, s => by
    have hfirst := linked_link s (Nat.lt_succ_self t.number) hmark
    have hrest := linked_foldl hmark olds (s.link t.number (t.number + 1) mark)
    refine ⟨hrest.number.trans hfirst.number, hrest.facts.trans hfirst.facts, fun j => ?_⟩
    rw [foldl_cons, hrest.entry, hfirst.entry, mem_singleton, map_cons, mem_cons, or_left_comm, or_assoc]

/-- The entries in the row of a state are the places of the sets to which the attacks tried in it lead. -/
structure Charted (tried : List Exploit) (sets : List (Finset Fact)) (s : State) : Prop where
  sound : ∀ j, s.entry j ≠ 0 → ∃ T, sets[j]? = some T ∧ Step tried s.facts T
  complete : ∀ T, Step tried s.facts T → ∃ j, sets[j]? = some T ∧ s.entry j ≠ 0

theorem Charted.append (h : Charted tried sets s) (more : List (Finset Fact)) : Charted tried (sets ++ more) s := by
  have hplace : ∀ {j T}, sets[j]? = some T → (sets ++ more)[j]? = some T := fun hj => by
    rwa [getElem?_append_left (lt_of_getElem? hj)]
  exact ⟨fun j hj => (h.sound j hj).imp fun _ => .imp_left hplace,
    fun T hT => (h.complete T hT).imp fun _ => .imp_left hplace⟩

/-- Trying an attack in a state links it to places of the set to which the attack leads, if it leads somewhere. -/
theorem Charted.link (h : Charted tried sets s) (hl : Linked ks s s')
    (hks : ∀ k ∈ ks, sets[k]? = some (insert a.gain s.facts)) (hne : a.canLaunch s.known = true ↔ ks ≠ []) :
    Charted (tried ++ [a]) sets s' := by
  constructor
  · intro j hj
    simp only [hl.facts, step_concat, leads_iff]
    rcases (hl.entry j).1 hj with hj | hj
    · exact ⟨_, hks j hj, .inr ⟨hne.2 (ne_nil_of_mem hj), rfl⟩⟩
    · exact (h.sound j hj).imp fun _ => .imp_right .inl
  · intro U hU
    simp only [hl.facts, step_concat, leads_iff, hl.entry] at hU ⊢
    rcases hU with hU | ⟨ha, rfl⟩
    · exact (h.complete U hU).imp fun _ => .imp_right .inr
    · obtain ⟨k, hk⟩ := exists_mem_of_ne_nil ks (hne.1 ha)
      exact ⟨k, hks k hk, .inl hk⟩

theorem charted_nil (h : ∀ j, s.entry j = 0) : Charted [] sets s := by
  constructor <;> simp [Step, h]

/-! ## The invariant -/

/-- A state with the attacks that have been tried in it. -/
abbrev Visit := State × List Exploit

def setsOf (vs : List Visit) : List (Finset Fact) := vs.map (·.1.facts)

structure Sound (attacks : List Exploit) (start : Finset Fact) (found : Nat) (vs : List Visit) : Prop where
  count : vs.length = found + 1
  numbered : vs.map (·.1.number) = range vs.length
  distinct : (setsOf vs).Nodup
  started : start ∈ setsOf vs
  reached : ∀ S ∈ setsOf vs, Reachable attacks start S
  charted : ∀ v ∈ vs, Charted v.2 (setsOf vs) v.1

section Sound

variable {vs before after : List Visit} (h : Sound attacks start found vs)

include h

theorem Sound.getElem?_number {v : Visit} (hv : v ∈ vs) : (setsOf vs)[v.1.number]? = some v.1.facts := by
  obtain ⟨i, hi⟩ := mem_iff_getElem?.1 hv
  have hnumber := congrArg (·[i]?) h.numbered
  simp only [getElem?_map, hi, Option.map_some, getElem?_range (lt_of_getElem? hi), Option.some.injEq] at hnumber
  rw [setsOf, hnumber, getElem?_map, hi, Option.map_some]

/-- There are at most as many states as choices of the attacks. -/
theorem Sound.length_le : vs.length ≤ Nat.pow 2 attacks.length := by
  let gains := (attacks.map (·.gain)).toFinset
  have hreached : ∀ S, Reachable attacks start S → S ∈ Finset.Icc start (start ∪ gains) := by
    intro S hS
    rw [Finset.mem_Icc]
    induction hS with
    | refl => exact ⟨le_rfl, Finset.subset_union_left⟩
    | tail _ hstep ih =>
      obtain ⟨a, ha, -, -, rfl⟩ := hstep
      have hgain : a.gain ∈ start ∪ gains := Finset.mem_union_right _ (mem_toFinset.2 (mem_map_of_mem ha))
      exact ⟨ih.1.trans (Finset.subset_insert _ _), Finset.insert_subset hgain ih.2⟩
  have hsub : (setsOf vs).toFinset ⊆ Finset.Icc start (start ∪ gains) := fun S hS =>
    hreached S (h.reached S (mem_toFinset.1 hS))
  have hgains : gains.card ≤ attacks.length := (toFinset_card_le _).trans_eq (length_map _)
  have hunion := Finset.card_union_le start gains
  calc vs.length = (setsOf vs).toFinset.card := by rw [toFinset_card_of_nodup h.distinct, setsOf, length_map]
    _ ≤ 2 ^ ((start ∪ gains).card - start.card) :=
      (Finset.card_le_card hsub).trans_eq (Finset.card_Icc_finset Finset.subset_union_left)
    _ ≤ Nat.pow 2 attacks.length := Nat.pow_le_pow_right (by decide) (by omega)

/-- A state that is found for the first time comes last. -/
theorem Sound.append (hnumber : s.number = found + 1) (hblank : ∀ j, s.entry j = 0) (hnew : s.facts ∉ setsOf vs)
    (hreached : Reachable attacks start s.facts) : Sound attacks start (found + 1) (vs ++ [(s, [])]) := by
  have hsets : setsOf (vs ++ [(s, [])]) = setsOf vs ++ [s.facts] := map_append
  refine ⟨by simp [h.count], by simp [h.numbered, h.count, hnumber, range_succ], ?_, ?_, ?_, ?_⟩ <;> rw [hsets]
  · exact nodup_append_comm.1 (nodup_cons.2 ⟨hnew, h.distinct⟩)
  · exact mem_append_left _ h.started
  · exact forall_mem_append.2 ⟨h.reached, by simpa using hreached⟩
  · exact forall_mem_append.2 ⟨fun v hv => (h.charted v hv).append _, by simpa using charted_nil hblank⟩

omit h in
theorem Sound.link (h : Sound attacks start found (before ++ (s, tried) :: after)) (hl : Linked ks s s')
    (hks : ∀ k ∈ ks, (setsOf (before ++ (s, tried) :: after))[k]? = some (insert a.gain s.facts))
    (hne : a.canLaunch s.known = true ↔ ks ≠ []) :
    Sound attacks start found (before ++ (s', tried ++ [a]) :: after) := by
  have hsets : setsOf (before ++ (s', tried ++ [a]) :: after) = setsOf (before ++ (s, tried) :: after) := by
    simp [setsOf, hl.facts]
  have hold := h.charted
  refine ⟨by simpa using h.count, by simpa [hl.number] using h.numbered, ?_, ?_, ?_, ?_⟩ <;> rw [hsets]
  · exact h.distinct
  · exact h.started
  · exact h.reached
  · simp only [forall_mem_append, forall_mem_cons] at hold ⊢
    exact ⟨hold.1, hold.2.1.link hl hks hne, hold.2.2⟩

end Sound

/-! ## Exploring -/

/-- The states found, while some attacks have been tried in one of them. -/
def visits (attacks tried : List Exploit) (x : Exploration) (s : State) : List Visit :=
  x.done.map (·, attacks) ++ (s, tried) :: x.left.map (·, [])

theorem mem_setsOf_visits : S ∈ setsOf (visits attacks tried x s) ↔
    S = s.facts ∨ ∃ t ∈ x.done ++ x.left, t.facts = S := by
  simp [setsOf, visits, or_and_right, exists_or, or_left_comm, eq_comm]

/-- The states among which the target of an attack is looked for: those done, and if none of them is it, those left. -/
theorem olds_spec {p : State → Bool} {olds : List State}
    (h : (if (x.done.filter p).isEmpty then x.left.filter p else x.done.filter p) = olds) :
    (∀ t ∈ olds, t ∈ x.done ++ x.left ∧ p t = true) ∧ (olds = [] → ∀ t ∈ x.done ++ x.left, ¬ p t = true) := by
  subst h
  grind [filter_eq_nil_iff]

/-- Launching an attack with a name keeps the invariant. -/
theorem Sound.launch (h : Sound attacks start x.found (visits attacks tried x s)) (hname : a.action ≠ none)
    (ha : a ∈ attacks) : ∃ x' s', launch switches a x s = .ok (x', s') ∧ x'.done = x.done ∧
      Sound attacks start x'.found (visits attacks (tried ++ [a]) x' s') := by
  by_cases hlaunch : a.canLaunch s.known = true
  · obtain ⟨name, hname⟩ := Option.ne_none_iff_exists'.1 hname
    have hlabel : a.label = .ok (Text.replace " " "_" name) := by simp [Exploit.label, hname, orFault]
    have hmark : (if a.canBlock switches then 1 else -1 : Int) ≠ 0 := by split <;> decide
    unfold Attack.launch
    simp only [hlaunch, hlabel, Bool.not_true, Bool.false_eq_true, if_false]
    generalize holds : (if (x.done.filter _).isEmpty then _ else _) = olds
    obtain ⟨hmem, hnil⟩ := olds_spec holds
    simp only [sameFacts_gain] at hmem hnil
    cases olds with
    | nil =>
      -- the new state is found before it is linked
      let u : State := ⟨x.found + 1, s.known ++ [a.gain], replicate (x.found + 1) 0⟩
      have hfacts : u.facts = insert a.gain s.facts := Finset.ext fun f => by simp [u, State.facts]
      have hleads : a.Leads s.facts u.facts := leads_iff.2 ⟨hlaunch, hfacts⟩
      have hnew : u.facts ∉ setsOf (visits attacks tried x s) := by
        rw [mem_setsOf_visits, hfacts]
        rintro (heq | ⟨t, ht, heq⟩)
        · exact hleads.1 (heq ▸ Finset.mem_insert_self _ _)
        · exact hnil rfl t ht heq
      have hsound : Sound attacks start (x.found + 1) (visits attacks tried { x with left := x.left ++ [u] } s) := by
        simpa [visits] using h.append rfl (fun j => by grind [State.entry]) hnew
          (.tail (h.reached _ (mem_setsOf_visits.2 (.inl rfl))) ⟨a, ha, hleads⟩)
      refine ⟨_, _, rfl, rfl,
        hsound.link (linked_link s (by simp) hmark) (forall_mem_singleton.2 ?_) (by simp [hlaunch])⟩
      exact (hsound.getElem?_number (v := (u, [])) (by simp [visits])).trans (congrArg some hfacts)
    | cons t olds =>
      refine ⟨_, _, rfl, rfl,
        h.link (linked_foldl hmark (t :: olds) s) (forall_mem_map.2 fun u hu => ?_) (by simp [hlaunch])⟩
      obtain ⟨hu, hfacts⟩ := hmem u hu
      obtain ⟨tried', hv⟩ : ∃ tried', (u, tried') ∈ visits attacks tried x s := by
        rcases mem_append.1 hu with hu | hu
        · exact ⟨attacks, by simp [visits, hu]⟩
        · exact ⟨[], by simp [visits, hu]⟩
      exact (h.getElem?_number hv).trans (congrArg some hfacts)
  · have hl : Linked [] s s := ⟨rfl, rfl, by simp⟩
    exact ⟨x, s, by simp [Attack.launch, hlaunch]; rfl, rfl, h.link hl (by simp) (by simp [hlaunch])⟩

theorem Sound.launchAll : ∀ {rest tried : List Exploit} {x : Exploration} {s : State},
    Sound attacks start x.found (visits attacks tried x s) → (∀ a ∈ rest, a ∈ attacks ∧ a.action ≠ none) →
    ∃ x' s', launchAll switches rest x s = .ok (x', s') ∧ x'.done = x.done ∧
      Sound attacks start x'.found (visits attacks (tried ++ rest) x' s')
  | [], tried, x, s, h, _ => ⟨x, s, rfl, rfl, by rwa [append_nil]⟩
  | a :: rest, tried, x, s, h, hrest => by
    obtain ⟨ha, hrest⟩ := forall_mem_cons.1 hrest
    obtain ⟨x₁, s₁, hrun, hdone, h₁⟩ := h.launch switches ha.2 ha.1
    obtain ⟨x', s', hrun', hdone', h'⟩ := h₁.launchAll hrest
    refine ⟨x', s', ?_, hdone'.trans hdone, by simpa using h'⟩
    simp only [Attack.launchAll, hrun]
    exact hrun'

theorem Sound.exploreFrom (hnames : ∀ a ∈ attacks, a.action ≠ none) : ∀ {fuel : Nat} {x : Exploration},
    Sound attacks start x.found (x.done.map (·, attacks) ++ x.left.map (·, [])) →
    Nat.pow 2 attacks.length < x.done.length + fuel →
    ∃ x', exploreFrom switches attacks fuel x = .ok x' ∧ x'.left = [] ∧
      Sound attacks start x'.found (x'.done.map (·, attacks))
  | 0, x, h, hfuel => by
    have := h.length_le
    simp only [length_append, length_map] at this
    omega
  | fuel + 1, x, h, hfuel => by
    unfold Attack.exploreFrom
    split
    · rename_i hleft
      exact ⟨x, rfl, hleft, by simpa [hleft] using h⟩
    · rename_i s rest hleft
      rw [hleft] at h
      obtain ⟨x₁, s₁, hrun, hdone, h₁⟩ := Sound.launchAll switches (x := { x with left := rest }) h
        fun a ha => ⟨ha, hnames a ha⟩
      rw [hrun]
      refine Sound.exploreFrom hnames (by simpa [visits] using h₁) ?_
      simp only [hdone, length_append, length_singleton]
      omega

/-- The states found are numbered in their order, their sets are different and are those that can be reached, and the
row of a state shows where one attack leads. -/
structure IsStateSpace (attacks : List Exploit) (start : Finset Fact) (states : List State) : Prop where
  numbered : states.map (·.number) = range states.length
  distinct : (states.map State.facts).Nodup
  sets : ∀ S, S ∈ states.map State.facts ↔ Reachable attacks start S
  rows : ∀ s ∈ states, ∀ j, s.links.getD j 0 ≠ 0 ↔ ∃ t, states[j]? = some t ∧ Step attacks s.facts t.facts

/-- For attacks with names, an exploration ends with the states that can be reached. -/
theorem explore_exact (switches : List String) (hnames : ∀ a ∈ attacks, a.action ≠ none) (initial : List Fact) :
    ∃ x, explore switches attacks initial = .ok x ∧ x.left = [] ∧ IsStateSpace attacks initial.toFinset x.done := by
  have hfirst : Sound attacks initial.toFinset 0 [(⟨0, initial, [0]⟩, [])] :=
    ⟨rfl, rfl, by simp [setsOf], by simp [setsOf, State.facts], by simpa [setsOf, State.facts] using .refl,
      forall_mem_singleton.2 (charted_nil fun j => by cases j <;> rfl)⟩
  obtain ⟨x, hrun, hleft, hsound⟩ := Sound.exploreFrom switches hnames (x := { left := [⟨0, initial, [0]⟩] }) hfirst
    (Nat.lt_succ_self _ |>.trans_eq (Nat.zero_add _).symm)
  have hsets : setsOf (x.done.map (·, attacks)) = x.done.map State.facts := by simp [setsOf, Function.comp_def]
  have hcharted := forall_mem_map.1 hsound.charted
  simp only [hsets] at hcharted
  refine ⟨x, hrun, hleft, by simpa [Function.comp_def] using hsound.numbered, hsets ▸ hsound.distinct, fun S => ?_,
    fun s hs j => ⟨fun hj => ?_, ?_⟩⟩
  · refine ⟨hsets ▸ hsound.reached S, fun hS => ?_⟩
    induction hS with
    | refl => exact hsets ▸ hsound.started
    | tail _ hstep ih =>
      obtain ⟨s, hs, rfl⟩ := mem_map.1 ih
      obtain ⟨j, hj, -⟩ := (hcharted s hs).complete _ hstep
      exact mem_of_getElem? hj
  · simpa [getElem?_map] using (hcharted s hs).sound j hj
  · -- a set has one place only
    rintro ⟨t, ht, hstep⟩
    obtain ⟨i, hi, hentry⟩ := (hcharted s hs).complete _ hstep
    have hplace : (x.done.map State.facts)[j]? = some t.facts := by rw [getElem?_map, ht, Option.map_some]
    rwa [index_inj (hsets ▸ hsound.distinct) hplace hi]

/-- Two ways into a hall. -/
def burglary : List Exploit :=
  [⟨2, some "enter", [some "door"], some "hall"⟩, ⟨3, some "climb", [some "window"], some "hall"⟩]

theorem explore_exact_burglary : ∃ x, explore ["door"] burglary [some "door", some "window"] = .ok x ∧ x.left = [] ∧
    IsStateSpace burglary [some "door", some "window"].toFinset x.done := explore_exact _ (by decide) _

/-- An attack without a name that leads somewhere has no label, so no states are found. -/
theorem explore_nameless : Reachable [⟨2, none, [some "door"], some "hall"⟩] {some "door"} {some "hall", some "door"} ∧
    explore [] [⟨2, none, [some "door"], some "hall"⟩] [some "door"] = .error .shape :=
  ⟨.single ⟨_, mem_singleton_self _, by decide, by decide, rfl⟩, rfl⟩

end Arena.Attack
