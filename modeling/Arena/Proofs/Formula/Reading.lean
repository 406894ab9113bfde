/-
Propositional formulas inside larger ones. A reading of the propositional grammar is also one of a grammar that adds
heads with temporal operators; so a head before a propositional text, or between two, is read as its operator applied to
what the texts are read as alone.
-/
import Arena.Formula.Parse

namespace Arena.Formula

open Reading List

variable {r ts : List Token} {fuel : Nat} {f : Formula}

namespace Grammar

variable {t o : Token} {h : Formula}

/-! ## One step of the parser -/

theorem readFormula_succ (g : Grammar) (fuel : Nat) (t : Token) (rest : List Token) :
    g.readFormula (fuel + 1) (t :: rest) = (g.readOperand fuel (g.readFormula fuel) t rest).andThen (g.readRest (g.readFormula fuel)) := by
  rfl

theorem andThen_eq_found {α β : Type} {x : Reading α} {k : α → List Token → Reading β} {b : β}
    (h : x.andThen k = found b r) : ∃ a s, x = found a s ∧ k a s = found b r := by
  cases x with
  | found a s => exact ⟨a, s, rfl, h⟩
  | stuck s => cases h
  | failed c => cases h

theorem expect_eq_found {α : Type} {kind : TokenKind} {a b : α} (h : expect kind a ts = found b r) :
    ∃ t, t.kind = kind ∧ ts = t :: r ∧ a = b := by
  cases ts with
  | nil => cases h
  | cons t ts =>
    rw [expect] at h
    split at h
    · rename_i hk
      cases h
      exact ⟨t, hk, rfl, rfl⟩
    · cases h

/-! ## Propositional readings -/

def connectives : List TokenKind := [.and, .or, .implies]

theorem propositional_operand {rest : List Token} (h : propositional.readOperand fuel (propositional.readFormula fuel) t rest = found f r) :
    (t.kind = .prop ∧ f = .atom t.text ∧ r = rest) ∨
      (t.kind = .lparen ∧ ∃ u, u.kind = .rparen ∧ propositional.readFormula fuel rest = found f (u :: r)) ∨
      (t.kind = .not ∧ ∃ a, f = .unary t.text a ∧ propositional.readFormula fuel rest = found a r) := by
  unfold readOperand at h
  split at h
  · rename_i hk
    cases h
    exact .inl ⟨mem_singleton.1 hk, rfl, rfl⟩
  split at h
  · rename_i hk
    obtain ⟨a, s, ha, hs⟩ := andThen_eq_found h
    obtain ⟨u, hu, rfl, rfl⟩ := expect_eq_found hs
    exact .inr (.inl ⟨hk, u, hu, ha⟩)
  split at h
  · rename_i hk
    obtain ⟨a, s, ha, hs⟩ := andThen_eq_found h
    cases hs
    exact .inr (.inr ⟨mem_singleton.1 hk, a, rfl, ha⟩)
  split at h
  · rename_i hk
    cases hk
  split at h
  · rename_i hk
    cases hk
  · cases h

theorem propositional_rest {f' : Formula} {r' : List Token} (h : propositional.readRest (propositional.readFormula fuel) f r = found f' r') :
    (f' = f ∧ r' = r ∧ ∀ o ∈ r.head?, o.kind = .rparen) ∨
      ∃ o s b, r = o :: s ∧ o.kind ∈ connectives ∧ f' = .binary o.text f b ∧
        propositional.readFormula fuel s = found b r' := by
  cases r with
  | nil =>
    cases h
    exact .inl ⟨rfl, rfl, by simp⟩
  | cons o s =>
    have hstars : propositional.readStars f (o :: s) = (f, o :: s) := rfl
    rw [readRest, hstars] at h
    simp only at h
    split at h
    · rename_i hk
      obtain ⟨b, s', hb, hs⟩ := andThen_eq_found h
      cases hs
      exact .inr ⟨o, s, b, rfl, hk, rfl, hb⟩
    · split at h
      · rename_i hk
        cases h
        exact .inl ⟨rfl, rfl, by simpa using mem_singleton.1 hk⟩
      · cases h

/-! ## Larger grammars -/

/-- A grammar that reads propositional formulas as the propositional grammar does. -/
structure ReadsPropositional (g : Grammar) : Prop where
  atoms : g.atoms = [.prop]
  binaries : g.binaries = connectives
  unaries : g.unaries = [.not]
  stars : g.stars = false
  label : g.binaryLabel = Token.text

/-- Tokens before which a formula ends. -/
def Ends (g : Grammar) (ts : List Token) : Prop := ∀ o ∈ ts.head?, o.kind ∉ g.binaries ∧ o.kind ∈ g.closing

variable {g : Grammar} (hg : g.ReadsPropositional)

include hg

theorem readRest_of_ends (h : g.Ends ts) : g.readRest (g.readFormula fuel) f ts = found f ts := by
  cases ts with
  | nil => rfl
  | cons o ts =>
    obtain ⟨hb, hc⟩ := h o rfl
    have hstars : g.readStars f (o :: ts) = (f, o :: ts) := by simp [readStars, hg.stars]
    rw [readRest, hstars]
    simp only
    rw [if_neg hb, if_pos hc]

theorem readRest_connective (ho : o.kind ∈ connectives) (hr : g.readFormula fuel ts = found h r) :
    g.readRest (g.readFormula fuel) f (o :: ts) = found (.binary o.text f h) r := by
  have hstars : g.readStars f (o :: ts) = (f, o :: ts) := by simp [readStars, hg.stars]
  rw [readRest, hstars]
  simp only
  rw [hg.binaries, if_pos ho, hr, hg.label]
  rfl

/-- What the propositional grammar reads, a larger grammar reads as well, with more fuel and before other tokens. -/
theorem readFormula_of_propositional : ∀ {ts r : List Token} {f : Formula},
    propositional.readFormula fuel ts = found f r → ∀ more : List Token, (r = [] → g.Ends more) →
      ∀ fuel' : Nat, fuel ≤ fuel' → g.readFormula fuel' (ts ++ more) = found f (r ++ more) := by
  induction fuel with
  | zero =>
    intro ts r f h
    cases h
  | succ fuel ih =>
    intro ts r f h more hmore fuel' hfuel
    cases ts with
    | nil => cases h
    | cons t rest =>
      obtain ⟨fuel', rfl⟩ : ∃ k, fuel' = k + 1 := ⟨fuel' - 1, by omega⟩
      have hfuel' : fuel ≤ fuel' := by omega
      obtain ⟨a, s, ha, hs⟩ := andThen_eq_found h
      -- the operand ends the formula only if nothing of it is behind
      have hend : s = [] → g.Ends more := by
        rintro rfl
        cases hs
        exact hmore rfl
      have hoperand : g.readOperand fuel' (g.readFormula fuel') t (rest ++ more) = found a (s ++ more) := by
        unfold readOperand
        rw [hg.atoms, hg.unaries]
        rcases propositional_operand ha with ⟨hk, rfl, rfl⟩ | ⟨hk, u, hu, hread⟩ | ⟨hk, b, rfl, hread⟩
        · simp [hk]
        · have hin := ih hread more (by simp) fuel' hfuel'
          simp only [hk, hin, andThen, cons_append, expect, hu]
          rfl
        · have hin := ih hread more hend fuel' hfuel'
          simp only [hk, hin]
          rfl
      rw [cons_append, readFormula_succ, hoperand]
      rcases propositional_rest hs with ⟨rfl, rfl, hclose⟩ | ⟨o, s', b, rfl, ho, rfl, hread⟩
      · refine readRest_of_ends hg fun o ho => ?_
        cases r with
        | nil => exact hmore rfl o ho
        | cons u r =>
          have hu : o.kind = .rparen := hclose o ho
          rw [hu, hg.binaries]
          exact ⟨by decide, mem_cons_self⟩
      · exact readRest_connective hg ho (ih hread more hmore fuel' hfuel')

omit hg in
theorem exists_first (h : propositional.readFormula fuel ts = found f r) :
    ∃ t rest, ts = t :: rest ∧ t.kind ∈ [.prop, .lparen, .not] := by
  cases fuel with
  | zero => cases h
  | succ fuel =>
    cases ts with
    | nil => cases h
    | cons t rest =>
      obtain ⟨a, s, ha, -⟩ := andThen_eq_found h
      rcases propositional_operand ha with ⟨hk, -⟩ | ⟨hk, -⟩ | ⟨hk, -⟩ <;> simp [hk]

/-! ## Heads -/

/-- A token that is a head and nothing else. -/
structure IsHead (g : Grammar) (t : Token) : Prop where
  head : t.kind ∈ g.heads
  other : t.kind ∉ [.prop, .lparen, .not]

variable {ts us : List Token} {label : String}

omit hg in
theorem parse_of_found (hf : f ≠ .hole) (h : g.readFormula (ts.length + 1) ts = found f []) :
    g.parse ts = .ok (some f) := by
  rw [parse, parseFrom, h]
  simp only
  rw [if_neg hf]

theorem readOperand_head (ht : g.IsHead t) (fuel : Nat) (o : Token) (ts : List Token) :
    g.readOperand fuel (g.readFormula fuel) t (o :: ts) =
      if o.kind ∈ g.headUnaries then
        (g.readFormula fuel ts).andThen fun f r' => g.withHead false t.text o.text (fun label => .unary label f) r'
      else
        (g.readFormula fuel (o :: ts)).andThen fun f r =>
          match r with
          | [] => stuck []
          | o :: r' =>
            if o.kind ∈ g.headBinaries then
              (g.readFormula fuel r').andThen fun h r'' =>
                g.withHead true t.text o.text (fun label => .binary label f h) r''
            else stuck r := by
  obtain ⟨hhead, hother⟩ := ht
  simp only [mem_cons, not_mem_nil, not_or] at hother
  unfold readOperand
  rw [hg.atoms, hg.unaries]
  exact (if_neg (by simp [hother.1])).trans ((if_neg hother.2.1).trans ((if_neg (by simp [hother.2.2])).trans
    (if_pos hhead)))

theorem parse_head_unary (ht : g.IsHead t) (ho : o.kind ∈ g.headUnaries)
    (hl : g.headRule false t.text o.text = .ok (some label))
    (hf : propositional.readFormula (ts.length + 1) ts = found f []) :
    g.parse (t :: o :: ts) = .ok (some (.unary label f)) := by
  have hread := readFormula_of_propositional hg hf [] (by simp [Ends]) (ts.length + 2) (by omega)
  rw [append_nil] at hread
  refine parse_of_found (by simp) ?_
  simp only [length_cons]
  rw [readFormula_succ, readOperand_head hg ht, if_pos ho, hread]
  simp only [andThen, withHead, hl]
  exact readRest_of_ends hg (by simp [Ends])

theorem parse_head_binary (ht : g.IsHead t) (hunary : ∀ k ∈ g.headUnaries, k ∉ [.prop, .lparen, .not])
    (ho : o.kind ∈ g.headBinaries) (hbinary : o.kind ∉ g.binaries)
    (hl : g.headRule true t.text o.text = .ok (some label))
    (hf : propositional.readFormula (ts.length + 1) ts = found f [])
    (hh : propositional.readFormula (us.length + 1) us = found h []) :
    g.parse (t :: (ts ++ o :: us)) = .ok (some (.binary label f h)) := by
  have hends : g.Ends (o :: us) := by
    intro o' ho'
    cases ho'
    exact ⟨hbinary, mem_cons_of_mem _ ho⟩
  have hlen : (t :: (ts ++ o :: us)).length = ts.length + us.length + 2 := by
    simp only [length_cons, length_append]
    omega
  have hfirst := readFormula_of_propositional hg hf (o :: us) (fun _ => hends) (ts.length + us.length + 2) (by omega)
  have hsecond := readFormula_of_propositional hg hh [] (by simp [Ends]) (ts.length + us.length + 2) (by omega)
  rw [append_nil] at hsecond
  rw [nil_append] at hfirst
  obtain ⟨first, rest, rfl, hkind⟩ := exists_first hf
  have hnot : first.kind ∉ g.headUnaries := fun hm => hunary _ hm hkind
  refine parse_of_found (by simp) ?_
  rw [hlen, readFormula_succ, cons_append, readOperand_head hg ht, if_neg hnot, ← cons_append, hfirst]
  simp only [andThen, if_pos ho, hsecond, withHead, hl]
  exact readRest_of_ends hg (by simp [Ends])

end Grammar

end Arena.Formula
