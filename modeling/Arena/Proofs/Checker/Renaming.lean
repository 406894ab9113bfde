/-
Models whose states have other names. A one-to-one renaming takes the states where a formula of branching time holds to
those of the renamed model, with two provisos: the new names must not be taken for operators, and the initial name must
not occur by accident in the text of the result, where the verdict looks for it.
-/
import Arena.Proofs.Checker.Boolean
import Arena.Proofs.Formula.Labels
import Arena.Proofs.Model.Renaming

namespace Arena

open Names List Model Text

variable {S : Names} {formula : String} {m' : Model}

namespace Checker.Branching

open Formula Lexicon Unary Report

variable {f : String → String} {S' T T' : Names} {m : Model} {s q : String}

/-! ## Renamed sets -/

/-- The second set has the new names of the states of the first. -/
structure Renames (f : String → String) (U : List String) (S S' : Names) : Prop where
  nodup : S.Nodup
  nodup' : S'.Nodup
  inside : ∀ q ∈ S, q ∈ U
  mem : ∀ x, x ∈ S' ↔ ∃ q ∈ S, f q = x

section Renames

variable {U : List String} (hf : ∀ q ∈ U, ∀ r ∈ U, f q = f r → q = r) (h : Renames f U S S') (hT : Renames f U T T')

theorem renames_nil : Renames f U [] [] := ⟨nodup_nil, nodup_nil, by simp, by simp⟩

theorem renames_ofList {xs : List String} (h : ∀ q ∈ xs, q ∈ U) : Renames f U (ofList xs) (ofList (xs.map f)) where
  nodup := nodup_ofList xs
  nodup' := nodup_ofList _
  inside q hq := h q (mem_ofList.1 hq)
  mem x := by simp

include h

theorem Renames.inside' : ∀ x ∈ S', x ∈ U.map f := by
  intro x hx
  obtain ⟨q, hq, rfl⟩ := (h.mem x).1 hx
  exact mem_map_of_mem (h.inside q hq)

theorem Renames.sorted : Renames f U (sorted S) (sorted S') where
  nodup := nodup_sorted h.nodup
  nodup' := nodup_sorted h.nodup'
  inside q hq := h.inside q (mem_sorted.1 hq)
  mem x := by simp [h.mem]

include hT in
theorem Renames.union : Renames f U (S.union T) (S'.union T') where
  nodup := nodup_union h.nodup hT.nodup
  nodup' := nodup_union h.nodup' hT.nodup'
  inside q hq := (mem_union.1 hq).elim (h.inside q) (hT.inside q)
  mem x := by simp only [mem_union, h.mem, hT.mem, or_and_right, exists_or]

theorem Renames.filter {keep keep' : String → Bool} (hk : ∀ q ∈ S, keep' (f q) = keep q) :
    Renames f U (S.filter keep) (S'.filter keep') where
  nodup := h.nodup.filter _
  nodup' := h.nodup'.filter _
  inside q hq := h.inside q (mem_of_mem_filter hq)
  mem x := by
    simp only [mem_filter, h.mem]
    constructor
    · rintro ⟨⟨q, hq, rfl⟩, hx⟩
      exact ⟨q, ⟨hq, hk q hq ▸ hx⟩, rfl⟩
    · rintro ⟨q, ⟨hq, hx⟩, rfl⟩
      exact ⟨⟨q, hq, rfl⟩, (hk q hq).trans hx⟩

include hf

theorem Renames.mem_iff (hq : q ∈ U) : f q ∈ S' ↔ q ∈ S := by
  rw [h.mem]
  constructor
  · rintro ⟨r, hr, he⟩
    rwa [← hf r (h.inside r hr) q hq he]
  · exact fun hq => ⟨q, hq, rfl⟩

theorem Renames.contains (hq : q ∈ U) : S'.contains (f q) = S.contains q := by
  rw [Bool.eq_iff_iff, contains_iff_mem, contains_iff_mem, h.mem_iff hf hq]

theorem Renames.perm : S'.Perm (S.map f) := by
  have hmap : (S.map f).Nodup := h.nodup.map_on fun q hq r hr he => hf q (h.inside q hq) r (h.inside r hr) he
  refine (perm_ext_iff_of_nodup h.nodup' hmap).2 fun x => ?_
  rw [h.mem, mem_map]

theorem Renames.length : S'.length = S.length :=
  (h.perm hf).length_eq.trans (length_map ..)

include hT

theorem Renames.inter : Renames f U (S.inter T) (S'.inter T') :=
  h.filter fun q hq => hT.contains hf (h.inside q hq)

theorem Renames.diff : Renames f U (S.diff T) (S'.diff T') :=
  h.filter fun q hq => by rw [hT.contains hf (h.inside q hq)]

theorem Renames.subset : S'.subset T' = S.subset T := by
  rw [Bool.eq_iff_iff, subset_iff, subset_iff]
  constructor
  · exact fun hsub q hq => (hT.mem_iff hf (h.inside q hq)).1 (hsub _ ((h.mem _).2 ⟨q, hq, rfl⟩))
  · intro hsub x hx
    obtain ⟨q, hq, rfl⟩ := (h.mem x).1 hx
    exact (hT.mem_iff hf (h.inside q hq)).2 (hsub q hq)

theorem Renames.same : S'.same T' = S.same T := by
  unfold Names.same
  rw [h.subset hf hT, hT.subset hf h]

omit h hT in
/-- Loops whose steps rename each other go the same number of rounds. -/
theorem Renames.stable {step step' : Names → Names} (hstep : ∀ {T T'}, Renames f U T T' → Renames f U (step T) (step' T')) :
    ∀ (n : Nat) {S S' : Names}, Renames f U S S' → Renames f U (Checker.stable step n S) (Checker.stable step' n S')
  | 0, _, _, h => h
  | n + 1, S, S', h => by
    simp only [Checker.stable, (hstep h).same hf h]
    split
    · exact h
    · exact Renames.stable hstep n (hstep h)

end Renames

/-! ## Operators -/

section Operators

variable (hf : ∀ q ∈ m.states, ∀ r ∈ m.states, f q = f r → q = r) {es : Edges}
  (hes : ∀ e ∈ es, e.1 ∈ m.states ∧ e.2 ∈ m.states) (hS : Renames f m.states S S') (hT : Renames f m.states T T')

theorem renames_stateSet : Renames f m.states m.stateSet (m.rename f).stateSet := renames_ofList fun _ h => h

/-- A set that is computed from the transitions is renamed if it is renamed for every list of transitions. -/
theorem agree_of_edges {g g' : Edges → Names} (hg : ∀ es : Edges, (∀ e ∈ es, e.1 ∈ m.states ∧ e.2 ∈ m.states) →
    Renames f m.states (g es) (g' (es.map (Prod.map f f)))) :
    Agree (Renames f m.states) (do return g (← m.edges)) (do return g' (← (m.rename f).edges)) := by
  rw [edges_rename]
  cases hes : m.edges with
  | error e => exact .error e
  | ok es => exact .ok (hg es (mem_of_edgesFrom 0 m.graph hes))

include hf hes hS

theorem renames_somePre : Renames f m.states (somePre es S) (somePre (es.map (Prod.map f f)) S') := by
  have heq : ((es.map (Prod.map f f)).filter fun e => S'.contains e.2).map (·.1) =
      ((es.filter fun e => S.contains e.2).map (·.1)).map f := by
    rw [filter_map, map_map, map_map]
    refine congrArg (map _) (filter_congr fun e he => ?_)
    exact hS.contains hf (hes e he).2
  unfold somePre
  rw [heq]
  refine renames_ofList fun q hq => ?_
  obtain ⟨e, he, rfl⟩ := mem_map.1 hq
  exact (hes e (mem_of_mem_filter he)).1

theorem renames_allPre :
    Renames f m.states (allPre es m.states S) (allPre (es.map (Prod.map f f)) (m.states.map f) S') := by
  have heq : ((m.states.map f).filter fun q => (es.map (Prod.map f f)).all fun e => e.1 ≠ q || S'.contains e.2) =
      (m.states.filter fun q => es.all fun e => e.1 ≠ q || S.contains e.2).map f := by
    rw [filter_map]
    refine congrArg (map f) (filter_congr fun q hq => ?_)
    rw [Function.comp_apply, all_map, Bool.eq_iff_iff, all_eq_true, all_eq_true]
    refine forall₂_congr fun e he => ?_
    have hsource : f e.1 = f q ↔ e.1 = q := ⟨hf _ (hes e he).1 q hq, congrArg f⟩
    simp only [Function.comp_apply, Prod.map_fst, Prod.map_snd, ne_eq, hsource, hS.contains hf (hes e he).2]
  unfold allPre
  rw [heq]
  exact renames_ofList fun q hq => mem_of_mem_filter hq

theorem renames_reaching :
    Renames f m.states (reaching m.states es S) (reaching (m.states.map f) (es.map (Prod.map f f)) S') := by
  unfold reaching
  rw [length_map, hS.length hf]
  exact Renames.stable hf (fun h => h.union (renames_somePre hf hes h)) _ hS

theorem renames_staying :
    Renames f m.states (staying m.states es S) (staying (m.states.map f) (es.map (Prod.map f f)) S') := by
  unfold staying
  rw [length_map, hS.length hf]
  exact Renames.stable hf (fun h => hS.inter hf (renames_somePre hf hes h)) _ renames_stateSet

include hT in
theorem renames_through :
    Renames f m.states (through m.states es S T) (through (m.states.map f) (es.map (Prod.map f f)) S' T') := by
  unfold through
  rw [length_map, hT.length hf]
  exact Renames.stable hf (fun h => h.union (hS.inter hf (renames_somePre hf hes h))) _ hT

omit hes

theorem Unary.agree_apply (op : Unary) : Agree (Renames f m.states) (op.apply m S) (op.apply (m.rename f) S') := by
  have hall : Renames f m.states m.stateSet (m.rename f).stateSet := renames_stateSet
  cases op with
  | not => exact .ok (hall.diff hf hS)
  | someNext => exact agree_of_edges fun _ hes => renames_somePre hf hes hS
  | everyNext => exact agree_of_edges fun _ hes => renames_allPre hf hes hS
  | someEventually => exact agree_of_edges fun _ hes => renames_reaching hf hes hS
  | everyEventually =>
    exact agree_of_edges fun _ hes => hall.diff hf (renames_staying hf hes (hall.diff hf hS))
  | someGlobally => exact agree_of_edges fun _ hes => renames_staying hf hes hS
  | everyGlobally =>
    exact agree_of_edges fun _ hes => hall.diff hf (renames_reaching hf hes (hall.diff hf hS))

include hT

theorem Binary.agree_apply (op : Binary) :
    Agree (Renames f m.states) (op.apply m S T) (op.apply (m.rename f) S' T') := by
  have hall : Renames f m.states m.stateSet (m.rename f).stateSet := renames_stateSet
  have hno := hall.diff hf hS
  have hnoT := hall.diff hf hT
  cases op with
  | or => exact .ok (hS.union hT)
  | and => exact .ok (hS.inter hf hT)
  | implies => exact .ok (hno.union hT)
  | someUntil => exact agree_of_edges fun _ hes => renames_through hf hes hS hT
  | everyUntil =>
    exact agree_of_edges fun _ hes => hall.diff hf (renames_through hf hes (hno.inter hf hnoT) hnoT)

end Operators

/-! ## Labels -/

section Labels

variable {t : Token} (ht : t ∈ ctl.tokens s)

include ht

theorem text_mem_of_kind (r : Formula.Rule) {ws : List String} (hr : r ∈ ctl) (hk : t.kind = r.kind)
    (hws : r.reads = oneOf ws) : t.text ∈ ws :=
  text_mem (by decide) ht hr hk hws

/-- A word of small letters is read as a proposition before it can be read as one of these operators. -/
theorem text_ne_word (hk : t.kind ∈ [.next, .not]) : t.text ≠ "next" ∧ t.text ≠ "not" := by
  have hrules := (separates_ctl (c := '"') (by decide)).rules
  have hbefore : ∀ x ∈ ctl.take 8 ++ [prop], x.kind ≠ t.kind := by
    generalize t.kind = k at hk
    revert k
    decide
  constructor <;> exact text_ne (ctl.take 8) (ctl.drop 9) prop hrules (fun rest => by simp [prop, run]) ht hbefore

theorem text_next (hk : t.kind = .next) : t.text = "X" := by
  rcases mem_pair.1 (text_mem_of_kind ht next (by simp [ctl]) hk rfl) with h | h
  · exact h
  · exact absurd h (text_ne_word ht (by simp [hk])).1

theorem text_not (hk : t.kind = .not) : t.text = "!" := by
  rcases mem_pair.1 (text_mem_of_kind ht not (by simp [ctl]) hk rfl) with h | h
  · exact h
  · exact absurd h (text_ne_word ht (by simp [hk])).2

theorem text_head (hk : t.kind ∈ Grammar.ctl.heads) : t.text ∈ ["A", "forall"] ++ ["E", "exist"] := by
  simp only [Grammar.ctl, mem_cons, not_mem_nil, or_false] at hk
  rcases hk with hk | hk
  · exact mem_append_left _ (text_mem_of_kind ht everyPath (by simp [ctl]) hk rfl)
  · exact mem_append_right _ (text_mem_of_kind ht somePath (by simp [ctl]) hk rfl)

theorem text_headUnary (hk : t.kind ∈ Grammar.ctl.headUnaries) :
    t.text ∈ ["G", "globally", "always"] ++ (["X"] ++ ["F", "eventually"]) := by
  simp only [Grammar.ctl, mem_cons, not_mem_nil, or_false] at hk
  rcases hk with hk | hk | hk
  · exact mem_append_left _ (text_mem_of_kind ht globally (by simp [ctl]) hk rfl)
  · exact mem_append_right _ (mem_append_left _ (mem_singleton.2 (text_next ht hk)))
  · exact mem_append_right _
      (mem_append_right _ (text_mem_of_kind ht eventually (by simp [ctl]) hk rfl))

theorem text_binary (hk : t.kind ∈ Grammar.ctl.binaries) :
    t.text ∈ ["&&", "&", "and"] ++ (["||", "|", "or"] ++ ["->", ">", "implies"]) := by
  simp only [Grammar.ctl, Grammar.propositional, mem_cons, not_mem_nil, or_false] at hk
  rcases hk with hk | hk | hk
  · exact mem_append_left _ (text_mem_of_kind ht and (by simp [ctl]) hk rfl)
  · exact mem_append_right _
      (mem_append_left _ (text_mem_of_kind ht or (by simp [ctl]) hk rfl))
  · exact mem_append_right _
      (mem_append_right _ (text_mem_of_kind ht implies (by simp [ctl]) hk rfl))

end Labels

theorem writes_ctl (s : String) : Grammar.ctl.Writes (· ∈ ctl.tokens s) (fun l => (of? l).isSome)
    (fun l => (Binary.of? l).isSome) where
  unary ht hk := by
    rw [text_not ht (mem_singleton.1 hk)]
    decide
  binary ht hk := by
    have hlabels : ∀ w ∈ ["&&", "&", "and"] ++ (["||", "|", "or"] ++ ["->", ">", "implies"]),
        (Binary.of? w).isSome = true := by decide
    exact hlabels _ (text_binary ht hk)
  headUnary ht ho hhead hop hlabel := by
    cases hlabel
    have hlabels : ∀ h ∈ ["A", "forall"] ++ ["E", "exist"],
        ∀ w ∈ ["G", "globally", "always"] ++ (["X"] ++ ["F", "eventually"]), (of? (h ++ w)).isSome = true := by
      decide
    exact hlabels _ (text_head ht hhead) _ (text_headUnary ho hop)
  headBinary ht ho hhead hop hlabel := by
    cases hlabel
    have hlabels : ∀ h ∈ ["A", "forall"] ++ ["E", "exist"], ∀ w ∈ ["U", "until"],
        (Binary.of? (h ++ w)).isSome = true := by decide
    exact hlabels _ (text_head ht hhead) _
      (text_mem_of_kind ho untl (by simp [ctl]) (mem_singleton.1 hop) rfl)
  capacities := rfl

/-! ## Solving -/

theorem Unary.of?_eq_none_iff : of? s = none ↔ .not ∉ kindsIn .ctl s ∧
    ∀ head ∈ [TokenKind.somePath, .everyPath], ∀ operator ∈ [TokenKind.next, .eventually, .globally],
      ¬ (head ∈ kindsIn .ctl s ∧ operator ∈ kindsIn .ctl s) := by
  unfold of?
  simp only [contains_eq_mem, forall_mem_cons, Bool.and_eq_true, decide_eq_true_eq]
  split_ifs <;> simp_all

theorem of?_print_of_subset (h : ∀ q ∈ S, q ∈ T) (hT : of? T.print = none) : of? S.print = none := by
  have hkinds : ∀ k, k ∉ inert → k ∈ kindsIn .ctl S.print → k ∈ kindsIn .ctl T.print := by
    intro k hk hmem
    obtain hi | ⟨n, hn, hkn⟩ := kindsIn_print (frames (by decide)) hmem
    · exact absurd hi hk
    · exact (mem_kindsIn_print (frames (by decide)) (ne_nil_of_mem (h n hn))).2 ⟨n, h n hn, hkn⟩
  obtain ⟨hnot, hboth⟩ := of?_eq_none_iff.1 hT
  refine of?_eq_none_iff.2 ⟨fun hk => hnot (hkinds _ (by decide) hk), fun a ha b hb hk => ?_⟩
  have hactive : (∀ a ∈ [TokenKind.somePath, .everyPath], a ∉ inert) ∧
      ∀ b ∈ [TokenKind.next, .eventually, .globally], b ∉ inert := by decide
  exact hboth a ha b hb ⟨hkinds a (hactive.1 a ha) hk.1, hkinds b (hactive.2 b hb) hk.2⟩

/-- The trees of a formula in a model and in the renamed one. -/
inductive Alike (f : String → String) (U : List String) : Tree → Tree → Prop
  | leaf {S S' : Names} (hS : Renames f U S S') : Alike f U (.leaf S.print) (.leaf S'.print)
  | unary {l : String} {t t' : Tree} (hl : (of? l).isSome) (ht : Alike f U t t') :
      Alike f U (.unary l t) (.unary l t')
  | binary {l : String} {t t' u u' : Tree} (hl : (Binary.of? l).isSome) (ht : Alike f U t t') (hu : Alike f U u u') :
      Alike f U (.binary l t u) (.binary l t' u')

/-- The texts of a set and of the set of new names. -/
def Prints (f : String → String) (U : List String) (s s' : String) : Prop :=
  ∃ S S', Renames f U S S' ∧ s = S.print ∧ s' = S'.print

/-- Reports with the same message, or with sets of which the second has the new names of the first. -/
def SameReport (f : String → String) (m : Model) (report report' : Report) : Prop :=
  (∃ s, report = .message s ∧ report' = .message s) ∨
    ∃ S S', Renames f m.states S S' ∧ report = .solved m S.print ∧ report' = .solved (m.rename f) S'.print

section Solve

variable (hstate : ∀ i, m'.stateAt i = (m.stateAt i).map f) (hpositions : m'.positionsOf = m.positionsOf)

include hstate hpositions

theorem agree_atomText (name : String) :
    Agree (Option.Rel (Prints f m.states)) (atomText m name) (atomText m' name) := by
  refine Agree.bind (R := Option.Rel (Renames f m.states)) ?_ fun S? S?' hS => ?_
  · unfold statesOf
    rw [hpositions]
    refine (agree_refl _).bind ?_
    rintro is? _ ⟨rfl, -⟩
    cases is? with
    | none => exact .ok .none
    | some is =>
      refine Agree.bind (R := fun qs qs' => qs' = qs.map f ∧ ∀ q ∈ qs, q ∈ m.states) ?_ ?_
      · rw [mapM_map_outcome fun i : Nat => hstate i]
        cases hqs : is.mapM fun (i : Nat) => m.stateAt i with
        | error e => exact .error e
        | ok qs =>
          refine .ok ⟨rfl, fun q hq => ?_⟩
          obtain ⟨i, -, hi⟩ := exists_of_mem_mapM hqs hq
          exact mem_of_nth hi
      · rintro qs _ ⟨rfl, hin⟩
        exact .ok (.some (renames_ofList hin))
  · cases hS with
    | none => exact .ok .none
    | some hS => exact .ok (.some ⟨_, _, hS, rfl, rfl⟩)

/-- The trees of a formula in two models are related if their leaves are and the labels keep the relation. -/
theorem agree_ground {R : Tree → Tree → Prop} {P Q : String → Prop}
    (hleaf : ∀ {S S'}, Renames f m.states S S' → R (.leaf S.print) (.leaf S'.print))
    (hunary : ∀ {l t t'}, P l → R t t' → R (.unary l t) (.unary l t'))
    (hbinary : ∀ {l t t' u u'}, Q l → R t t' → R u u' → R (.binary l t u) (.binary l t' u')) {g : Formula}
    (hg : Labelled P Q g) :
    Agree (Option.Rel R) (Tree.ground (atomText m) g) (Tree.ground (atomText m') g) := by
  have hatom : ∀ name, Agree (Option.Rel R) (do return (← atomText m name).map Tree.leaf)
      (do return (← atomText m' name).map Tree.leaf) := by
    intro name
    refine (agree_atomText hstate hpositions name).bind fun s? s?' hs => ?_
    cases hs with
    | none => exact .ok .none
    | some hs =>
      obtain ⟨S, S', hS, rfl, rfl⟩ := hs
      exact .ok (.some (hleaf hS))
  induction g with
  | atom name => exact hatom name
  | hole => exact hatom "None"
  | starred a ih => exact ih hg
  | unary l a ih =>
    refine (ih hg.2).bind fun t? t?' ht => ?_
    cases ht with
    | none => exact .ok .none
    | some ht => exact .ok (.some (hunary hg.1 ht))
  | binary l a b iha ihb =>
    refine (iha hg.2.1).bind fun t? t?' ht => ?_
    cases ht with
    | none => exact .ok .none
    | some ht =>
      refine (ihb hg.2.2).bind fun u? u?' hu => ?_
      cases hu with
      | none => exact .ok .none
      | some hu => exact .ok (.some (hbinary hg.1 ht hu))

omit hstate hpositions

variable (hf : ∀ q ∈ m.states, ∀ r ∈ m.states, f q = f r → q = r)
  (hquiet : of? (m.rename f).stateSet.print = none)

include hf hquiet

/-- The sets of the new names are found, unless an old name is taken for an operator. -/
theorem Alike.solve {t t' : Tree} (h : Alike f m.states t t') : AgreeUnless (of? m.stateSet.print ≠ none)
    (Prints f m.states) (Branching.solve m t) (Branching.solve (m.rename f) t') := by
  induction h with
  | @leaf S S' hS =>
    have hsub : ∀ x ∈ S', x ∈ (m.rename f).stateSet := fun x hx => mem_ofList.2 (hS.inside' x hx)
    simp only [Branching.solve, Tree.solve, one, of?_print_of_subset hsub hquiet]
    cases hop : of? S.print with
    | none => exact .inl (.ok ⟨S, S', hS, rfl, rfl⟩)
    | some op =>
      -- a leaf has no argument that an operator could take
      refine .inr ⟨fun hold => ?_, fun s hs => by cases hs⟩
      rw [of?_print_of_subset (fun q hq => mem_ofList.2 (hS.inside q hq)) hold] at hop
      cases hop
  | unary hl _ ih =>
    obtain ⟨op, hop⟩ := Option.isSome_iff_exists.1 hl
    refine ih.bind ?_
    rintro _ _ ⟨S, S', hS, rfl, rfl⟩
    simp only [one, hop, argument, read_print hS.nodup, read_print hS.nodup']
    exact .inl ((op.agree_apply hf hS.sorted).bind fun R R' hR => .ok ⟨R, R', hR, rfl, rfl⟩)
  | binary hl _ _ iht ihu =>
    obtain ⟨op, hop⟩ := Option.isSome_iff_exists.1 hl
    refine iht.bind ?_
    rintro _ _ ⟨S, S', hS, rfl, rfl⟩
    refine ihu.bind ?_
    rintro _ _ ⟨T, T', hT, rfl, rfl⟩
    simp only [two, hop, read_print hS.nodup, read_print hT.nodup, read_print hS.nodup', read_print hT.nodup']
    exact .inl ((op.agree_apply hf hS.sorted hT.sorted).bind fun R R' hR => .ok ⟨R, R', hR, rfl, rfl⟩)

theorem agree_checkModel (formula : String) : AgreeUnless (of? m.stateSet.print ≠ none) (SameReport f m)
    (checkModel .ctl m formula) (checkModel .ctl (m.rename f) formula) := by
  refine AgreeUnless.bind (.inl (agree_refl _)) ?_
  rintro g? _ ⟨rfl, hparse⟩
  cases g? with
  | none => exact .inl (.ok (.inl ⟨_, rfl, rfl⟩))
  | some g =>
    have hlabels := Grammar.parse_labelled (writes_ctl formula) (fun _ ht => ht) hparse
    refine AgreeUnless.bind (.inl (agree_ground (stateAt_rename f m) rfl Alike.leaf .unary .binary hlabels)) ?_
    intro t? t?' ht
    cases ht with
    | none => exact .inl (.ok (.inl ⟨_, rfl, rfl⟩))
    | some halike =>
      refine (halike.solve hf hquiet).bind ?_
      rintro _ _ ⟨S, S', hS, rfl, rfl⟩
      exact .inl (.ok (.inr ⟨S, S', hS, rfl, rfl⟩))

/-- A check that answers gives the same message for the renamed model, or the set of the new names. -/
theorem checkModel_rename {report : Report} (h : checkModel .ctl m formula = .ok report) :
    ∃ report', checkModel .ctl (m.rename f) formula = .ok report' ∧
      ((∃ s, report = .message s ∧ report' = .message s) ∨ ∃ S : Names, S.Nodup ∧ (∀ q ∈ S, q ∈ m.states) ∧
        report = .solved m S.print ∧ report' = .solved (m.rename f) (print (S.map f))) := by
  rcases agree_checkModel hf hquiet formula with hagree | ⟨-, hno⟩
  · obtain ⟨report', h', hsame⟩ := hagree.exists_ok h
    refine ⟨report', h', hsame.imp id ?_⟩
    rintro ⟨S, S', hS, rfl, rfl⟩
    have hperm := hS.perm hf
    exact ⟨S, hS.nodup, hS.inside, rfl, by rw [print_congr hS.nodup' (hperm.nodup_iff.1 hS.nodup') fun x => hperm.mem_iff]⟩
  · exact absurd h (hno report)

end Solve

/-! ## Verdicts -/

/-- A model whose initial state has a name that is found in the text of a set of states only where the set has it:
the name has no quotes, and it does not occur in another quoted name or in what is written around them. -/
structure Legible (m : Model) : Prop where
  quotes : ∀ c ∈ m.initial.toList, ¬ Expression.IsQuote c
  frame : ∀ s ∈ setFrame, contains s m.initial = false
  names : ∀ q ∈ m.states, contains (quote q) m.initial = true ↔ q = m.initial

theorem Legible.verdict_iff (h : Legible m) (hS : ∀ q ∈ S, q ∈ m.states) :
    verdict m S.print = true ↔ m.initial ∈ S := by
  unfold verdict
  rw [contains_print_iff h.quotes h.frame]
  constructor
  · rintro ⟨q, hq, hc⟩
    exact (h.names q (hS q hq)).1 hc ▸ hq
  · intro hmem
    exact ⟨m.initial, hmem, (h.names _ (hS _ hmem)).2 rfl⟩

/-! ## Checking -/

section Check

variable (hf : Set.InjOn f {q | q ∈ m.initial :: m.states})

include hf

theorem inj_states : ∀ q ∈ m.states, ∀ r ∈ m.states, f q = f r → q = r := fun _ hq _ hr he =>
  hf (mem_cons_of_mem _ hq) (mem_cons_of_mem _ hr) he

/-- Where the names of the initial states are legible, the verdict on a set is that on the set of new names. -/
theorem verdict_rename (hm : Legible m) (hm' : Legible (m.rename f)) (hS : ∀ q ∈ S, q ∈ m.states) :
    verdict (m.rename f) (print (S.map f)) = verdict m S.print := by
  have hnew : ∀ x ∈ S.map f, x ∈ (m.rename f).states := map_subset f hS
  have hinitial : (m.rename f).initial = f m.initial := by
    refine if_neg fun hempty => ne_nil_of_frame hm.frame ?_
    rw [hempty]
    rfl
  rw [Bool.eq_iff_iff, hm'.verdict_iff hnew, hm.verdict_iff hS, hinitial, mem_map]
  constructor
  · rintro ⟨q, hq, he⟩
    rwa [← hf (mem_cons_of_mem _ (hS q hq)) mem_cons_self he]
  · exact fun h => ⟨m.initial, h, rfl⟩

end Check

/-- The report on a renamed text beside the one on the text itself: the same message, or the set of the new names of
the states with the same verdict. -/
def ReportsRenamed (f : String → String) (source : String) (report report' : Report) : Prop :=
  (∃ s, report = .message s ∧ report' = .message s) ∨
    ∃ m, ∃ S : Names, load .plain source = .ok m ∧ S.Nodup ∧ (∀ q ∈ S, q ∈ m.states) ∧
      report = .solved m S.print ∧ report' = .solved (m.rename f) (Names.print (S.map f)) ∧
      (Legible m → Legible (m.rename f) → verdict (m.rename f) (Names.print (S.map f)) = verdict m S.print)

/-- When the names of the states in a text are replaced by other names, one to one and such that the new names are
words, no headings and together no operators, a check that answers gives the same message, or the set of the new names
of the states that it gave; and the same verdict, if both names of the initial state are legible. -/
theorem check_renameText {f : String → String} {source formula : String} {report : Report}
    (hnames : ∀ q ∈ namesIn source, Model.Nameable (f q))
    (hf : ∀ m, load .plain source = .ok m →
      Set.InjOn f {q | q ∈ m.initial :: m.states} ∧ of? (m.rename f).stateSet.print = none)
    (h : check .ctl source formula = .ok report) :
    ∃ report', check .ctl (renameText f source) formula = .ok report' ∧ ReportsRenamed f source report report' := by
  unfold check at h ⊢
  by_cases hblank : isBlankFormula formula = true
  · rw [if_pos hblank] at h ⊢
    cases h
    exact ⟨_, rfl, .inl ⟨_, rfl, rfl⟩⟩
  · rw [if_neg hblank] at h ⊢
    obtain ⟨m, hm, h⟩ := bind_eq_ok.1 h
    obtain ⟨hinj, hquiet⟩ := hf m hm
    obtain ⟨report', hcheck, hreports⟩ := checkModel_rename (inj_states hinj) hquiet h
    refine ⟨report', ?_, hreports.imp id ?_⟩
    · rw [load_renameText hnames hm]
      exact hcheck
    · rintro ⟨S, hS, hin, hold, hnew⟩
      exact ⟨m, S, hm, hS, hin, hold, hnew, fun hl hl' => verdict_rename hinj hl hl' hin⟩

/-- Two states that lead to each other, with `p` in the second one. -/
def pair : Model where
  graph := [[.zero, .text "A"], [.text "A", .zero]]
  states := ["s0", "s1"]
  props := ["p"]
  labels := [[.num 0], [.num 1]]
  initial := "s0"
  agents := .number 1

def pairLines : List String :=
  ["Transition", "0 A", "A 0", "Unkown_Transition_by", "Name_State", "s0 s1", "Initial_State", "s0",
    "Atomic_propositions", "p", "Labelling", "0", "1", "Number_of_agents", "1"]

def pairText : String := String.join (pairLines.map (· ++ "\n"))

def named (first second q : String) : String := if q = "s0" then first else if q = "s1" then second else q

theorem trimmedLines_pair : trimmedLines pairText = pairLines := trimmedLines_join (by decide)

theorem load_pair : load .plain pairText = .ok pair :=
  load_of_lines trimmedLines_pair (by decide) (by decide) (by decide)

instance decidableInjOn (f : String → String) (l : List String) : Decidable (Set.InjOn f {q | q ∈ l}) :=
  decidable_of_iff (∀ q ∈ l, ∀ r ∈ l, f q = f r → q = r) ⟨fun h q hq r hr => h q hq r hr, fun h _ hq _ hr => h hq hr⟩

theorem check_renameText_pair : Legible pair ∧ Legible (pair.rename (named "left" "right")) ∧
    ∃ report', check .ctl (renameText (named "left" "right") pairText) "EXp" = .ok report' ∧
      ReportsRenamed (named "left" "right") pairText (.solved pair "\x7b's0'\x7d") report' := by
  refine ⟨⟨by decide, by decide, by decide⟩, ⟨by decide, by decide, by decide⟩, ?_⟩
  refine check_renameText (by decide +kernel) ?_ ?_
  · intro m hm
    obtain rfl : pair = m := Except.ok.inj (load_pair.symm.trans hm)
    exact ⟨by decide, branching_of?_print (by decide)⟩
  · unfold check
    decide +kernel

/-- A state named `EXIT` makes the check of an atom fail, and one whose name begins with that of the initial state makes
the verdict true. -/
theorem check_pair_misread :
    check .ctl pairText "p" = .ok (.solved pair "\x7b's1'\x7d") ∧
      verdict pair "\x7b's1'\x7d" = false ∧
      (∀ q ∈ namesIn pairText, Model.Nameable (named "s0" "EXIT" q)) ∧
      check .ctl (renameText (named "s0" "EXIT") pairText) "p" = .error .member ∧
      (∀ q ∈ namesIn pairText, Model.Nameable (named "s1" "s10" q)) ∧
      check .ctl (renameText (named "s1" "s10") pairText) "p" =
        .ok (.solved (pair.rename (named "s1" "s10")) "\x7b's10'\x7d") ∧
      verdict (pair.rename (named "s1" "s10")) "\x7b's10'\x7d" = true := by
  refine ⟨?_, by decide, by decide +kernel, ?_, by decide +kernel, ?_, by decide⟩
  · unfold check
    decide +kernel
  · decide +kernel
  · decide +kernel

end Checker.Branching

end Arena
