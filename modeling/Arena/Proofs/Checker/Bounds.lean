/-
Vectors of resources below a bound and the labels that carry them. Counting up from zero meets every vector below the
bound once: its rank, the value as a numeral with the bound's entries as largest digits, grows by one with each step. A
label keeps its coalition when it is given another bound, which is read back from it.
-/
import Arena.Checker.Bounded
import Arena.Proofs.Model.Transitions
import Arena.Proofs.Text.Lines
import Mathlib.Algebra.BigOperators.Group.List.Basic
import Mathlib.Data.List.Chain
import Mathlib.Tactic.Ring

namespace Arena.Checker.Bounded

open Text List

variable {bound spent a : Bound} {A B : List Char} {coalition l : String} {b : Bound}

/-! ## Vectors below a bound -/

abbrev Below (spent bound : Bound) : Prop := Forall₂ (fun s b : Int => 0 ≤ s ∧ s ≤ b) spent bound

theorem below_self (h : ∀ b ∈ bound, 0 ≤ b) : Below bound bound :=
  forall₂_same.2 fun b hb => ⟨h b hb, le_rfl⟩

theorem below_zeros : ∀ {bound : Bound}, (∀ b ∈ bound, 0 ≤ b) → Below (zeros bound) bound
  | [], _ => .nil
  | b :: bound, h => by
    obtain ⟨hb, hbound⟩ := forall_mem_cons.1 h
    exact .cons ⟨le_rfl, hb⟩ (below_zeros hbound)

theorem Below.trans {a b c : Bound} (h : Below a b) (h' : Below b c) : Below a c :=
  forall₂_trans h h' fun _ _ _ hab hbc => ⟨hab.1, hab.2.trans hbc.2⟩

theorem Below.nonneg (h : Below spent bound) : ∀ s ∈ spent, 0 ≤ s := by
  intro s hs
  obtain ⟨b, -, h⟩ := exists_of_mem_forall₂ h.flip hs
  exact h.1

theorem Below.lt (h : Below spent bound) {k : Int} (hk : ∀ b ∈ bound, b < k) : ∀ s ∈ spent, s < k := by
  intro s hs
  obtain ⟨b, hb, h⟩ := exists_of_mem_forall₂ h.flip hs
  exact h.2.trans_lt (hk b hb)

theorem Below.antisymm (h : Below a b) (h' : Below b a) : a = b := by
  induction h with
  | nil => rfl
  | cons hab _ ih =>
    cases h' with
    | cons hba htail => rw [le_antisymm hab.2 hba.2, ih htail]

theorem zeros_ne (h : isZero bound = false) : zeros bound ≠ bound := by
  intro he
  rw [isZero, all_eq_false] at h
  obtain ⟨b, hb, hne⟩ := h
  rw [← he] at hb
  obtain ⟨_, -, rfl⟩ := mem_map.1 hb
  exact hne rfl

def total (bound : Bound) : Nat := (bound.map Int.toNat).foldl (· + ·) 0

theorem total_cons (b : Int) (bound : Bound) : total (b :: bound) = b.toNat + total bound := by
  simp only [total, ← sum_eq_foldl_nat, map_cons, sum_cons]

theorem Below.total_le (h : Below spent bound) : total spent ≤ total bound := by
  induction h with
  | nil => exact le_rfl
  | cons hs _ ih =>
    rw [total_cons, total_cons]
    omega

theorem Below.total_lt (h : Below spent bound) (hne : spent ≠ bound) : total spent < total bound := by
  induction h with
  | nil => exact absurd rfl hne
  | @cons s b spent bound hs htail ih =>
    rw [total_cons, total_cons]
    have hle := total_le htail
    by_cases hsb : s = b
    · have := ih fun e => hne (by rw [hsb, e])
      omega
    · omega

/-! ## Counting -/

/-- The place of a vector in the enumeration of those within a bound. -/
def rank : Bound → Bound → Nat
  | s :: spent, b :: bound => s.toNat + (b.toNat + 1) * rank spent bound
  | _, _ => 0

theorem rank_zeros : ∀ bound : Bound, rank (zeros bound) bound = 0
  | [] => rfl
  | b :: bound => by
    rw [zeros, map_cons, rank, ← zeros, rank_zeros bound]
    rfl

theorem vectors_eq : ∀ bound : Bound, vectors bound = rank bound bound + 1
  | [] => rfl
  | b :: bound => by
    have ih := vectors_eq bound
    simp only [vectors, ← prod_eq_foldl_nat, map_cons, prod_cons] at ih ⊢
    rw [ih, rank]
    ring

theorem rank_inj (ha : Below a bound) (hb : Below b bound) (h : rank a bound = rank b bound) : a = b := by
  induction ha generalizing b with
  | nil => cases hb; rfl
  | @cons x c a bound hx _ ih =>
    cases hb with
    | @cons y _ b _ hy hb =>
      simp only [rank] at h
      -- the first entries are the remainders of the ranks, the others their quotients
      have hmod := congrArg (· % (c.toNat + 1)) h
      have hdiv := congrArg (· / (c.toNat + 1)) h
      simp only [Nat.add_mul_mod_self_left, Nat.add_mul_div_left _ _ (Nat.succ_pos c.toNat)] at hmod hdiv
      rw [Nat.mod_eq_of_lt (by omega), Nat.mod_eq_of_lt (by omega)] at hmod
      rw [Nat.div_eq_of_lt (by omega), Nat.div_eq_of_lt (by omega)] at hdiv
      rw [ih hb (by omega), show x = y by omega]

theorem Below.rank_le (h : Below a bound) : rank a bound ≤ rank bound bound := by
  induction h with
  | nil => exact le_rfl
  | @cons x b _ _ hx _ ih =>
    simp only [rank]
    have := Nat.mul_le_mul_left (b.toNat + 1) ih
    omega

theorem increment_spec (h : Below spent bound) (hne : spent ≠ bound) :
    ∃ next, increment spent bound = .ok next ∧ Below next bound ∧ rank next bound = rank spent bound + 1 := by
  induction h with
  | nil => exact absurd rfl hne
  | @cons s b spent bound hs htail ih =>
    have hdigit : (if b = 0 then 0 else (s + 1) % (b + 1)) = if s = b then 0 else s + 1 := by
      by_cases hsb : s = b
      · rw [if_pos hsb, hsb, Int.emod_self, ite_self]
      · rw [if_neg (by omega), if_neg hsb, Int.emod_eq_of_lt (by omega) (by omega)]
    by_cases hsb : s = b
    · subst hsb
      obtain ⟨next, hnext, hbelow, hrank⟩ := ih fun e => hne (by rw [e])
      refine ⟨0 :: next, ?_, .cons ⟨le_rfl, hs.1⟩ hbelow, ?_⟩
      · simp only [increment, hdigit, hnext]
        rfl
      · simp only [rank, hrank]
        rw [Int.toNat_zero]
        ring
    · refine ⟨(s + 1) :: spent, ?_, .cons ⟨by omega, by omega⟩ htail, ?_⟩
      · simp only [increment, hdigit, if_neg hsb]
        rw [if_pos (by omega)]
        rfl
      · simp only [rank]
        omega

theorem lift_ok {α : Type} (a : α) : lift (.ok a) = pure a := rfl

/-- What is done for one of the lower bounds. -/
def solveLower (step : Names → Bound → Outcome Names) (extend : Names → Names → Outcome Names)
    (again : Tree → Solving Tree) (label letter : String) (bound : Bound) (state : Names × Tree) (spent : Bound) :
    Solving (Names × Tree) := do
  let lower ← lift (relabel label spent letter)
  let node ← again (state.2.withText lower)
  let target ← lift (Names.read node.text)
  let first ← lift (do step target (← difference bound spent))
  return (← lift (extend state.1 first), node)

/-- Counting up from a vector ends with the bound. It meets each vector below the bound whose rank is no lower, and
solving bound by bound does for each of them but the bound what is done for one. So it carries an invariant along. -/
theorem exists_count (hpos : ∀ b ∈ bound, 0 ≤ b) (h : Below spent bound) : ∃ before : List Bound,
    (before ++ [bound]).head? = some spent ∧ (before ++ [bound]).IsChain (fun v w => increment v bound = .ok w) ∧
    (before ++ [bound]).Nodup ∧
    (∀ v, v ∈ before ++ [bound] ↔ Below v bound ∧ rank spent bound ≤ rank v bound) ∧
    (∀ {step extend again label letter} (n : Nat) (state : Names × Tree), rank bound bound < n + rank spent bound →
      (if spent = bound then pure state else eachBound step extend again label letter bound n spent state.1 state.2) =
        before.foldlM (solveLower step extend again label letter bound) state) ∧
    ∀ {f : Names × Tree → Bound → Solving (Names × Tree)} {I : Nat → Names × Tree → Prop},
      (∀ v, Below v bound → v ≠ bound → ∀ s, I (rank v bound) s → ∃ s', f s v = pure s' ∧ I (rank v bound + 1) s') →
      ∀ s, I (rank spent bound) s → ∃ s', before.foldlM f s = pure s' ∧ I (rank bound bound) s' := by
  induction hk : rank bound bound - rank spent bound generalizing spent with
  | zero =>
    obtain rfl : spent = bound := rank_inj h (below_self hpos) (by have := h.rank_le; omega)
    refine ⟨[], rfl, .singleton _, nodup_singleton _, fun v => ?_, fun n state _ => by simp, fun _ s hs => ⟨s, rfl, hs⟩⟩
    rw [nil_append, mem_singleton]
    constructor
    · rintro rfl
      exact ⟨h, le_rfl⟩
    · exact fun hv => rank_inj hv.1 h (hv.1.rank_le.antisymm hv.2)
  | succ k ih =>
    have hne : spent ≠ bound := by
      rintro rfl
      omega
    obtain ⟨next, hnext, hbelow, hrank⟩ := increment_spec h hne
    obtain ⟨before, hhead, hchain, hnodup, hmem, hfold, hrun⟩ := ih hbelow (by omega)
    refine ⟨spent :: before, rfl, ?_, ?_, fun v => ?_, fun n state hn => ?_, fun hstep s hs => ?_⟩
    · refine hchain.cons fun y hy => ?_
      rw [hhead] at hy
      cases hy
      exact hnext
    · refine nodup_cons.2 ⟨fun hin => ?_, hnodup⟩
      have := ((hmem spent).1 hin).2
      omega
    · rw [cons_append, mem_cons, hmem, hrank]
      constructor
      · rintro (rfl | ⟨hv, hle⟩)
        · exact ⟨h, le_rfl⟩
        · exact ⟨hv, by omega⟩
      · rintro ⟨hv, hle⟩
        rcases Nat.eq_or_lt_of_le hle with heq | hlt
        · exact .inl (rank_inj hv h heq.symm)
        · exact .inr ⟨hv, hlt⟩
    · obtain ⟨n, rfl⟩ := Nat.exists_eq_succ_of_ne_zero (by omega : n ≠ 0)
      rw [if_neg hne, foldlM_cons, eachBound]
      simp only [solveLower, bind_assoc, pure_bind, hnext, lift_ok, ← hfold n _ (by omega)]
    · obtain ⟨s', hs', hI⟩ := hstep spent h hne s hs
      rw [foldlM_cons, hs']
      exact hrun hstep s' (hrank ▸ hI)

theorem eachBound_fold (hpos : ∀ b ∈ bound, 0 ≤ b) (hz : isZero bound = false) : ∃ before : List Bound,
    (∀ v ∈ before, Below v bound ∧ v ≠ bound) ∧
    (∀ {step extend again label letter} (node : Tree),
      eachBound step extend again label letter bound (vectors bound) (zeros bound) [] node =
        before.foldlM (solveLower step extend again label letter bound) ([], node)) ∧
    ∀ {f : Names × Tree → Bound → Solving (Names × Tree)} {I : Nat → Names × Tree → Prop},
      (∀ v, Below v bound → v ≠ bound → ∀ s, I (rank v bound) s → ∃ s', f s v = pure s' ∧ I (rank v bound + 1) s') →
      ∀ s, I 0 s → ∃ s', before.foldlM f s = pure s' ∧ I (rank bound bound) s' := by
  obtain ⟨before, -, -, hnodup, hmem, hfold, hrun⟩ := exists_count hpos (below_zeros hpos)
  rw [rank_zeros] at hrun
  refine ⟨before, fun v hv => ⟨((hmem v).1 (mem_append_left _ hv)).1, ?_⟩, fun node => ?_, hrun⟩
  · rintro rfl
    exact (nodup_append.1 hnodup).2.2 v hv v (mem_singleton_self v) rfl
  · rw [← hfold (vectors bound) ([], node) (by rw [vectors_eq]; omega), if_neg (zeros_ne hz)]

theorem difference_eq (h : Below spent bound) : difference bound spent = .ok (zipWith (· - ·) bound spent) := by
  induction h with
  | nil => rfl
  | cons _ _ ih =>
    simp only [difference, ih]
    rfl

/-! ## Labels -/

def Numeric (cs : List Char) : Prop := ∀ c ∈ cs, c = ',' ∨ isDigit c = true

/-- The label that begins with a coalition and a bound in angle brackets. -/
def headed (coalition bound operator : List Char) : String :=
  String.ofList ('<' :: (coalition ++ '>' :: '<' :: (bound ++ '>' :: operator)))

theorem Numeric.not_mem {cs : List Char} (h : Numeric cs) {c : Char} (hc : c ≠ ',' ∧ isDigit c = false) : c ∉ cs := by
  intro hm
  rcases h c hm with rfl | hd
  · exact hc.1 rfl
  · rw [hc.2] at hd
    cases hd

theorem split_bracket {part : List Char} (h : '>' ∉ part) (rest : List Char) :
    split ">" (String.ofList (part ++ '>' :: rest)) =
      String.ofList part :: split ">" (String.ofList rest) := by
  have hpart := splitFrom_part_sep '>' [] rest h []
  unfold split
  simp only [String.toList_ofList]
  exact congrArg (map String.ofList) hpart

theorem readLabel_headed (hA : Numeric A) (hB : Numeric B) (O : List Char) :
    readLabel (headed A B O) =
      ((split "," (String.ofList B)).mapM fun n => orFault .value (readInt? n)).map (String.ofList A, ·) := by
  have hbound : '>' ∉ '<' :: B := by
    rw [mem_cons, not_or]
    exact ⟨by decide, hB.not_mem (by decide)⟩
  have hsplit : split ">" (String.ofList ((headed A B O).toList.drop 1)) =
      String.ofList A :: String.ofList ('<' :: B) :: split ">" (String.ofList O) := by
    rw [headed, String.toList_ofList, drop_one, tail_cons, split_bracket (hA.not_mem (by decide)),
      ← cons_append, split_bracket hbound]
  unfold readLabel
  rw [hsplit]
  simp only [String.toList_ofList, drop_one, tail_cons]
  cases (split "," (String.ofList B)).mapM fun n => orFault .value (readInt? n) <;> rfl

theorem readInt?_nonneg {s : String} {i : Int} (hs : '-' ∉ s.toList) (h : readInt? s = some i) : 0 ≤ i := by
  unfold readInt? at h
  split at h
  · rename_i rest heq
    exact absurd (mem_stripOf (heq ▸ mem_cons_self : '-' ∈ (trim s).toList)) hs
  all_goals
    obtain ⟨z, hz, rfl⟩ := Option.map_eq_some_iff.1 h
    obtain ⟨n, hn, hz⟩ := Option.bind_eq_some_iff.1 hz
    cases hz
    exact Int.natCast_nonneg _

theorem nonneg_of_readLabel {O : List Char} (hA : Numeric A) (hB : Numeric B)
    (h : readLabel (headed A B O) = .ok (coalition, bound)) : ∀ b ∈ bound, 0 ≤ b ∧ b < 10 ^ maxDigits := by
  rw [readLabel_headed hA hB] at h
  cases hread : (split "," (String.ofList B)).mapM fun n => orFault Fault.value (readInt? n) with
  | error e => rw [hread] at h; cases h
  | ok bs =>
    rw [hread] at h
    cases h
    intro b hb
    obtain ⟨n, hn, hval⟩ := exists_of_mem_mapM hread hb
    have hminus : '-' ∉ n.toList := fun hm => hB.not_mem (by decide)
      (String.toList_ofList ▸ (mem_split_comma hn).2 _ hm)
    cases hi : readInt? n with
    | none => rw [hi] at hval; cases hval
    | some i =>
      rw [hi] at hval
      cases hval
      exact ⟨readInt?_nonneg hminus hi, readInt?_lt hi⟩

def numeralsOf (bound : Bound) : List Char := (join "," (bound.map toString)).toList

theorem toString_ofNonneg {b : Int} (h : 0 ≤ b) : toString b = toString b.toNat := by
  obtain ⟨n, rfl⟩ := Int.eq_ofNat_of_zero_le h
  rfl

theorem numeric_numeralsOf (h : ∀ b ∈ bound, 0 ≤ b) : Numeric (numeralsOf bound) := by
  intro c hc
  rcases mem_join hc with hc | ⟨part, hpart, hc⟩
  · exact .inl (by simpa using hc)
  · obtain ⟨b, hb, rfl⟩ := mem_map.1 hpart
    rw [toString_ofNonneg (h b hb), toList_natRepr] at hc
    exact .inr (isDigit_toDigits c hc)

theorem readLabel_numeralsOf (hA : Numeric A) (hne : bound ≠ []) (h : ∀ b ∈ bound, 0 ≤ b ∧ b < 10 ^ maxDigits)
    (O : List Char) : readLabel (headed A (numeralsOf bound) O) = .ok (String.ofList A, bound) := by
  have hsplit : split "," (String.ofList (numeralsOf bound)) = bound.map toString := by
    rw [numeralsOf, String.ofList_toList]
    refine split_join (show ",".toList = [','] from rfl) (by simpa using hne) ?_
    intro part hpart
    obtain ⟨b, hb, rfl⟩ := mem_map.1 hpart
    rw [toString_ofNonneg (h b hb).1, toList_natRepr]
    exact fun hm => absurd (mem_toDigits hm) (by decide)
  have hread : (bound.map toString).mapM (fun n => orFault Fault.value (readInt? n)) = .ok bound := by
    refine mapM_map_eq fun b hb => ?_
    obtain ⟨hb, hlt⟩ := h b hb
    obtain ⟨n, rfl⟩ := Int.eq_ofNat_of_zero_le hb
    have hn : n < 10 ^ maxDigits := by exact_mod_cast hlt
    rw [toString_ofNonneg hb, Int.toNat_natCast, readInt?_toString hn]
    rfl
  rw [readLabel_headed hA (numeric_numeralsOf fun b hb => (h b hb).1), hsplit, hread]
  rfl

theorem relabel_headed (hA : Numeric A) (B O : List Char) (spent : Bound) (letter : String) :
    relabel (headed A B O) spent letter = .ok (headed A (numeralsOf spent) letter.toList) := by
  have hnot : ∀ c ∈ A ++ ['>'], (decide (c ≠ '<')) = true := by
    intro c hc
    rw [decide_eq_true_eq]
    rintro rfl
    rcases mem_append.1 hc with hc | hc
    · exact hA.not_mem (by decide) hc
    · exact absurd (mem_singleton.1 hc) (by decide)
  have hfront : (A ++ '>' :: '<' :: (B ++ '>' :: O)).takeWhile (· ≠ '<') = A ++ ['>'] := by
    rw [show A ++ '>' :: '<' :: (B ++ '>' :: O) = (A ++ ['>']) ++ '<' :: (B ++ '>' :: O) by simp,
      takeWhile_append_of_pos hnot, takeWhile_cons_of_neg (by simp), append_nil]
  unfold relabel headed
  rw [String.toList_ofList]
  simp only [hfront]
  rw [if_neg (by simp)]
  refine congrArg Except.ok (String.toList_injective ?_)
  simp [numeralsOf]

theorem labelWeight_headed (hA : Numeric A) (h : ∀ b ∈ bound, 0 ≤ b ∧ b < 10 ^ maxDigits) (O : List Char) :
    labelWeight (headed A (numeralsOf bound) O) = total bound := by
  by_cases hne : bound = []
  · subst hne
    have hempty : readLabel (headed A (numeralsOf []) O) = .error .value := by
      rw [readLabel_headed hA (numeric_numeralsOf (by simp))]
      rfl
    simp only [labelWeight, hempty]
    rfl
  · simp only [labelWeight, readLabel_numeralsOf hA hne h]
    rfl

def connectives : List String := ["!", "not", "&&", "&", "and", "||", "|", "or", "->", ">", "implies"]

/-- The labels that formulas with bounds have. -/
inductive Known : String → Prop where
  | connective {l : String} (h : l ∈ connectives) : Known l
  | headed {A B : List Char} (hA : Numeric A) (hB : Numeric B) (O : List Char) : Known (headed A B O)

theorem read_connective (h : l ∈ connectives) : ∃ e, Names.read l = .error e := by
  have hread : ∀ l ∈ connectives, (Names.read l).toOption = none := by decide +kernel
  have := hread l h
  cases hr : Names.read l with
  | error e => exact ⟨e, rfl⟩
  | ok S => rw [hr] at this; cases this

theorem read_bracket {rest : List Char} (h : l.toList = '<' :: rest) : ∃ e, Names.read l = .error e := by
  have hstrip : ∃ rest, (stripOf (fun c => c == '\x7b' || c == '\x7d') l).toList = '<' :: rest := by
    rw [toList_stripOf, h, dropWhile_cons_of_neg (by decide), reverse_cons, dropWhile_append]
    split
    · exact ⟨[], by simp⟩
    · exact ⟨_, by rw [reverse_append]; rfl⟩
  obtain ⟨rest, hrest⟩ := hstrip
  have hne : l ≠ "set()" := by
    rintro rfl
    cases h
  refine ⟨.expression, ?_⟩
  unfold Names.read Names.readDatum
  rw [if_neg hne]
  unfold Expression.read
  simp only [String.toList_append, hrest]
  rfl

theorem Known.read (h : Known l) : ∃ e, Names.read l = .error e := by
  cases h with
  | connective h => exact read_connective h
  | headed hA hB O => exact read_bracket (by rw [Bounded.headed, String.toList_ofList])

theorem labelWeight_eq (hread : readLabel l = .ok (coalition, bound)) : labelWeight l = total bound := by
  simp only [labelWeight, hread]
  rfl

section Bounded

variable (h : Known l) (hread : readLabel l = .ok (coalition, bound))

include h hread

theorem Known.exists_headed : ∃ A B O, Numeric A ∧ Numeric B ∧ l = Bounded.headed A B O := by
  cases h with
  | connective h =>
    have herr : ∀ l ∈ connectives, (readLabel l).toOption = none := by decide
    have := herr l h
    rw [hread] at this
    cases this
  | headed hA hB O => exact ⟨_, _, O, hA, hB, rfl⟩

theorem Known.range : ∀ b ∈ bound, 0 ≤ b ∧ b < 10 ^ maxDigits := by
  obtain ⟨A, B, O, hA, hB, rfl⟩ := h.exists_headed hread
  exact nonneg_of_readLabel hA hB hread

theorem Known.nonneg : ∀ b ∈ bound, 0 ≤ b := fun b hb => (h.range hread b hb).1

theorem Known.relabel (hspent : Below spent bound) (letter : String) :
    ∃ lower, Bounded.relabel l spent letter = .ok lower ∧ Known lower ∧ labelWeight lower = total spent := by
  have hrange : ∀ s ∈ spent, 0 ≤ s ∧ s < 10 ^ maxDigits := fun s hs =>
    ⟨hspent.nonneg s hs, hspent.lt (fun b hb => (h.range hread b hb).2) s hs⟩
  obtain ⟨A, B, O, hA, hB, rfl⟩ := h.exists_headed hread
  exact ⟨_, relabel_headed hA B O spent letter, .headed hA (numeric_numeralsOf hspent.nonneg) _,
    labelWeight_headed hA hrange _⟩

end Bounded

end Arena.Checker.Bounded
