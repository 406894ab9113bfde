/-
The labels of a parsed formula. Every label is written with the texts of tokens that the parser has read, so what holds
of these texts holds of all labels.
-/
import Arena.Proofs.Formula.Reading
import Arena.Proofs.Formula.Tokens

namespace Arena.Formula

open Reading List

variable {α : Type} {T : Token → Prop} {ts : List Token} {P Q : String → Prop}

/-- The labels of a formula have a property over one subformula and a property over two. -/
def Labelled (P Q : String → Prop) : Formula → Prop
  | atom _ => True
  | hole => True
  | unary l a => P l ∧ Labelled P Q a
  | binary l a b => Q l ∧ Labelled P Q a ∧ Labelled P Q b
  | starred a => Labelled P Q a

theorem Labelled.mono {P' Q' : String → Prop} (hP : ∀ l, P l → P' l) (hQ : ∀ l, Q l → Q' l) :
    ∀ {f : Formula}, Labelled P Q f → Labelled P' Q' f
  | atom _, _ => trivial
  | hole, _ => trivial
  | unary _ _, h => ⟨hP _ h.1, h.2.mono hP hQ⟩
  | binary _ _ _, h => ⟨hQ _ h.1, h.2.1.mono hP hQ, h.2.2.mono hP hQ⟩
  | starred a, h => mono (f := a) hP hQ h

/-- What is found has a property, and so have the tokens that are left. -/
def Reading.Gives {α : Type} (T : Token → Prop) (Q : α → Prop) : Reading α → Prop
  | found a r => Q a ∧ ∀ t ∈ r, T t
  | stuck r => ∀ t ∈ r, T t
  | failed _ => True

theorem Reading.Gives.andThen {β : Type} {Q : α → Prop} {R : β → Prop} {x : Reading α} {k : α → List Token → Reading β}
    (h : x.Gives T Q) (hk : ∀ a r, Q a → (∀ t ∈ r, T t) → (k a r).Gives T R) : (x.andThen k).Gives T R := by
  cases x with
  | found a r => exact hk a r h.1 h.2
  | stuck r => exact h
  | failed c => trivial

theorem Reading.gives_expect {Q : α → Prop} {kind : TokenKind} {a : α} (ha : Q a) (hts : ∀ t ∈ ts, T t) :
    (expect kind a ts).Gives T Q := by
  cases ts with
  | nil => exact hts
  | cons t ts =>
    rw [expect]
    split
    · exact ⟨ha, fun u hu => hts u (mem_cons_of_mem _ hu)⟩
    · exact hts

namespace Grammar

variable {r : List Token} {f : Formula}

/-- The labels that a grammar writes with some tokens have the properties. -/
structure Writes (g : Grammar) (T : Token → Prop) (P Q : String → Prop) : Prop where
  unary : ∀ {t}, T t → t.kind ∈ g.unaries → P t.text
  binary : ∀ {t}, T t → t.kind ∈ g.binaries → Q (g.binaryLabel t)
  headUnary : ∀ {t o label}, T t → T o → t.kind ∈ g.heads → o.kind ∈ g.headUnaries →
    g.headRule false t.text o.text = .ok (some label) → P label
  headBinary : ∀ {t o label}, T t → T o → t.kind ∈ g.heads → o.kind ∈ g.headBinaries →
    g.headRule true t.text o.text = .ok (some label) → Q label
  capacities : g.capacities = false

variable {g : Grammar}

theorem gives_withHead {between : Bool} {head operator : String} {build : String → Formula} (hr : ∀ t ∈ r, T t)
    (hbuild : ∀ label, g.headRule between head operator = .ok (some label) → Labelled P Q (build label)) :
    (g.withHead between head operator build r).Gives T (Labelled P Q) := by
  unfold withHead
  split
  · rename_i label hl
    exact ⟨hbuild label hl, hr⟩
  · exact ⟨trivial, hr⟩
  · trivial

theorem readStars_labelled : ∀ {r : List Token} {f : Formula}, Labelled P Q f → (∀ t ∈ r, T t) →
    Labelled P Q (g.readStars f r).1 ∧ ∀ t ∈ (g.readStars f r).2, T t
  | [], _, hf, hr => ⟨hf, hr⟩
  | t :: r, f, hf, hr => by
    unfold readStars
    split
    · exact readStars_labelled (f := .starred f) hf fun u hu => hr u (mem_cons_of_mem _ hu)
    · exact ⟨hf, hr⟩

section Step

variable (hg : g.Writes T P Q) {fuel : Nat}
  (ih : ∀ {ts : List Token}, (∀ t ∈ ts, T t) → (g.readFormula fuel ts).Gives T (Labelled P Q))

include hg ih

theorem gives_readOperand {t : Token} {rest : List Token} (ht : T t) (hrest : ∀ u ∈ rest, T u) :
    (g.readOperand fuel (g.readFormula fuel) t rest).Gives T (Labelled P Q) := by
  unfold readOperand
  split
  · exact ⟨trivial, hrest⟩
  split
  · exact (ih hrest).andThen fun f r hf hr => gives_expect hf hr
  split
  · rename_i hk
    exact (ih hrest).andThen fun f r hf hr => ⟨⟨hg.unary ht hk, hf⟩, hr⟩
  split
  · rename_i hhead
    cases rest with
    | nil => exact hrest
    | cons o rest =>
      obtain ⟨ho, hrest'⟩ := forall_mem_cons.1 hrest
      simp only
      split
      · rename_i hop
        exact (ih hrest').andThen fun f r hf hr =>
          gives_withHead hr fun label hl => ⟨hg.headUnary ht ho hhead hop hl, hf⟩
      · refine (ih hrest).andThen fun f r hf hr => ?_
        cases r with
        | nil => exact hr
        | cons o' r =>
          obtain ⟨ho', hr'⟩ := forall_mem_cons.1 hr
          simp only
          split
          · rename_i hop
            exact (ih hr').andThen fun f' r' hf' hr'' =>
              gives_withHead hr'' fun label hl => ⟨hg.headBinary ht ho' hhead hop hl, hf, hf'⟩
          · exact hr
  split
  · rename_i hcap
    rw [hg.capacities] at hcap
    cases hcap
  · exact forall_mem_cons.2 ⟨ht, hrest⟩

theorem gives_readRest (hf : Labelled P Q f) (hr : ∀ t ∈ r, T t) : (g.readRest (g.readFormula fuel) f r).Gives T (Labelled P Q) := by
  obtain ⟨hf, hr⟩ := readStars_labelled (g := g) hf hr
  unfold readRest
  generalize g.readStars f r = stars at hf hr
  obtain ⟨a, s⟩ := stars
  cases s with
  | nil => exact ⟨hf, hr⟩
  | cons o s =>
    obtain ⟨ho, hs⟩ := forall_mem_cons.1 hr
    simp only
    split
    · rename_i hk
      exact (ih hs).andThen fun b r' hb hr' => ⟨⟨hg.binary ho hk, hf, hb⟩, hr'⟩
    split
    · exact ⟨hf, hr⟩
    · exact hr

end Step

theorem gives_readFormula (hg : g.Writes T P Q) : ∀ (fuel : Nat) {ts : List Token}, (∀ t ∈ ts, T t) →
    (g.readFormula fuel ts).Gives T (Labelled P Q)
  | 0, _, hts => hts
  | _ + 1, [], hts => hts
  | fuel + 1, t :: ts, hts => by
    obtain ⟨ht, hts⟩ := forall_mem_cons.1 hts
    exact (gives_readOperand hg (gives_readFormula hg fuel) ht hts).andThen fun f r hf hr =>
      gives_readRest hg (gives_readFormula hg fuel) hf hr

theorem parse_labelled (hg : g.Writes T P Q) (hts : ∀ t ∈ ts, T t) (h : g.parse ts = .ok (some f)) :
    Labelled P Q f := by
  have hfrom : ∀ (fuel : Nat) (ts : List Token), (∀ t ∈ ts, T t) → g.parseFrom fuel ts = .ok (some f) →
      Labelled P Q f := by
    intro fuel
    induction fuel with
    | zero => intro ts _ h; cases h
    | succ fuel ih =>
      intro ts hts h
      have hread := gives_readFormula hg (ts.length + 1) hts
      unfold parseFrom at h
      generalize g.readFormula (ts.length + 1) ts = reading at h hread
      cases reading with
      | failed cause => cases h
      | found f' rest =>
        cases rest with
        | nil =>
          simp only at h
          split at h
          · cases h
          · cases h
            exact hread.1
        | cons u rest => exact ih rest (fun t ht => hread.2 t (mem_cons_of_mem _ ht)) h
      | stuck rest =>
        cases rest with
        | nil => cases h
        | cons u rest => exact ih rest (fun t ht => hread t (mem_cons_of_mem _ ht)) h
  exact hfrom _ ts hts h

end Grammar

end Arena.Formula
