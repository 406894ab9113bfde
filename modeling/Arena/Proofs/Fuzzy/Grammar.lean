/-
Writing and reading graded formulas. A formula is written with parentheses only where a connective stands at a place for
tighter ones; the text is split into its lexemes again, and they are read as the formula.
-/
import Arena.Fuzzy.Branching
import Mathlib.Tactic.FinCases

namespace Arena.Fuzzy.Branching

open List

/-! ## Lexemes -/

def inName (c : Char) : Bool := c.isLower || c.isDigit || c == '_'

/-- Names of atoms: lower-case letters, digits and underscores, with no digit at the front. -/
def isName (a : String) : Bool := a.toList.head?.any startsIdentifier && a.toList.all inName

def Lexeme (t : String) : Prop := t ∈ vocabulary ∨ isName t = true

variable {t : String} {s : List Char}

theorem lexeme?_name (ht : isName t = true) (hs : s.head?.all (· == ' ') = true) :
    lexeme? (t.toList ++ s) = some t.toList := by
  obtain ⟨hfirst, hall⟩ := Bool.and_eq_true_iff.1 ht
  rw [all_eq_true] at hall
  obtain ⟨c, hc, hstart⟩ := (Option.any_eq_true ..).1 hfirst
  obtain ⟨cs, hcs⟩ : ∃ cs, t.toList = c :: cs := head?_eq_some_iff.1 hc
  have hnone : (vocabulary.map String.toList).find? (·.isPrefixOf (t.toList ++ s)) = none := by
    have hwords : ∀ v ∈ vocabulary.map String.toList, v.head?.any (!inName ·) = true := by decide
    refine find?_eq_none.2 fun v hv hpre => ?_
    obtain ⟨d, hd, hname⟩ := (Option.any_eq_true ..).1 (hwords v hv)
    obtain ⟨ds, rfl⟩ := head?_eq_some_iff.1 hd
    rw [hcs, cons_append, isPrefixOf_iff_prefix, cons_prefix_cons] at hpre
    simp [hpre.1, hall c (hcs ▸ mem_cons_self)] at hname
  have hword : ∀ d ∈ t.toList, continuesIdentifier d = true := fun d hd => by
    have h : (d.isLower || d.isDigit || d == '_') = true := hall d hd
    change (d.isUpper || d.isLower || d.isDigit || d == '_') = true
    simp only [Bool.or_eq_true] at h ⊢
    tauto
  have htake : (t.toList ++ s).takeWhile continuesIdentifier = t.toList := by
    rw [takeWhile_append_of_pos hword]
    cases s with
    | nil => exact append_nil _
    | cons d s =>
      obtain rfl : d = ' ' := by simpa using hs
      exact append_nil _
  unfold lexeme?
  rw [hnone]
  simp only [hcs, cons_append] at htake ⊢
  rw [if_pos hstart, htake]

theorem lexemesFrom_lexeme (ht : Lexeme t) (hs : s.head?.all (· == ' ') = true) (n : Nat) :
    lexemesFrom (n + 1) (t.toList ++ s) = t :: lexemesFrom n s := by
  have hread : lexeme? (t.toList ++ s) = some t.toList := by
    refine ht.elim (fun hword => ?_) fun h => lexeme?_name h hs
    fin_cases hword <;> rfl
  cases hcs : t.toList ++ s with
  | nil => rw [hcs] at hread; cases hread
  | cons c cs =>
    rw [lexemesFrom, ← hcs, hread]
    simp only [String.ofList_toList, drop_left']

theorem lexemesFrom_nil (n : Nat) : lexemesFrom n [] = [] := by
  cases n <;> rfl

theorem Lexeme.length_pos (ht : Lexeme t) : 0 < t.toList.length := by
  have hwords : ∀ w ∈ vocabulary, 0 < w.toList.length := by decide
  refine ht.elim (hwords t) fun h => length_pos_iff.2 fun hnil => ?_
  rw [isName, hnil] at h
  cases h

theorem lexemesFrom_join : ∀ (ts : List String), (∀ t ∈ ts, Lexeme t) →
    ∀ n > ([' '].intercalate (ts.map String.toList)).length,
      lexemesFrom n ([' '].intercalate (ts.map String.toList)) = ts
  | [], _, n, _ => lexemesFrom_nil n
  | [t], h, n + 1, _ => by
    have hread := lexemesFrom_lexeme (s := []) (h t mem_cons_self) rfl n
    rw [append_nil, lexemesFrom_nil] at hread
    exact (congrArg _ (intercalate_singleton ..)).trans hread
  | t :: u :: ts, h, n + 1, hn => by
    obtain ⟨ht, hts⟩ := forall_mem_cons.1 h
    have hpos := ht.length_pos
    simp only [map_cons, intercalate_cons_cons, append_assoc, singleton_append, length_append, length_cons] at hn ⊢
    rw [lexemesFrom_lexeme ht rfl]
    obtain ⟨n, rfl⟩ : ∃ k, n = k + 1 := ⟨n - 1, by omega⟩
    exact congrArg (t :: ·) (lexemesFrom_join (u :: ts) hts n (by simp only [map_cons]; omega))

theorem lexemes_join {ts : List String} (h : ∀ t ∈ ts, Lexeme t) : lexemes (Text.join " " ts) = ts := by
  unfold lexemes Text.join
  rw [← String.length_toList, String.toList_intercalate]
  exact lexemesFrom_join ts h _ (Nat.lt_succ_self _)

/-! ## Reading what is written -/

def prefixes : List String := ["NOT", "EX", "AX", "EF", "AF", "EG", "AG"]

/-- The formulas of named atoms, prefix operators and connectives. -/
inductive Plain : Term → Prop
  | atom {a : String} (h : isName a = true) : Plain (.atom a)
  | prefixed {op : String} {t : Term} (h : op ∈ prefixes) (ht : Plain t) : Plain (.node op t .absent)
  | joined {op : String} {l r : Term} (h : op ∈ levels) (hl : Plain l) (hr : Plain r) : Plain (.node op l r)

/-- The levels from that of a connective on. -/
def levelsFrom (op : String) : List String := levels.dropWhile (· ≠ op)

/-- The lexemes of a formula at a place that takes the connectives of some levels: a formula of another connective is
put in parentheses. What stands to the left of a connective may be of the same level. -/
def write : Term → List String → List String
  | .atom a, _ => [a]
  | .node op t .absent, _ => op :: write t []
  | .node op l r, ls =>
    let text := write l (levelsFrom op) ++ op :: write r (levelsFrom op).tail
    if op ∈ ls then text else "(" :: (text ++ [")"])
  | _, _ => []

def print (t : Term) : String := Text.join " " (write t levels)

variable {t l r : Term} {op : String} {ls higher : List String}

theorem write_joined (hr : Plain r) (ls : List String) : write (.node op l r) ls =
    if op ∈ ls then write l (levelsFrom op) ++ op :: write r (levelsFrom op).tail
    else "(" :: (write l (levelsFrom op) ++ op :: write r (levelsFrom op).tail ++ [")"]) := by
  rw [write]
  cases hr <;> simp

theorem Plain.lexeme (h : Plain t) : ∀ ls, ∀ x ∈ write t ls, Lexeme x := by
  have hwords : ∀ op ∈ "(" :: ")" :: prefixes ++ levels, op ∈ vocabulary := by decide
  simp only [cons_append, forall_mem_cons, forall_mem_append] at hwords
  obtain ⟨hopen, hclose, hfront, hlevel⟩ := hwords
  induction h with
  | atom ha => simpa [write] using .inr ha
  | prefixed hop ht ih => exact fun ls => forall_mem_cons.2 ⟨.inl (hfront _ hop), ih []⟩
  | joined hop hl hr ihl ihr =>
    intro ls
    rw [write_joined hr]
    split
    · exact forall_mem_append.2 ⟨ihl _, forall_mem_cons.2 ⟨.inl (hlevel _ hop), ihr _⟩⟩
    · simp only [forall_mem_cons, forall_mem_append]
      exact ⟨.inl hopen, ⟨ihl _, .inl (hlevel _ hop), ihr _⟩, .inl hclose, by simp⟩

/-- Reading goes on behind the first operand of a level. -/
def goOn (fuel : Nat) (t : Term) (rest : List String) : List String → Outcome (Term × List String)
  | [] => .ok (t, rest)
  | op :: higher => parseMore fuel op higher t rest

/-- The formula is read as a first operand at a place, where no connective of a tighter level follows. -/
def Leads (t : Term) (ls : List String) : Prop :=
  ∀ rest fuel, (∀ o ∈ ls.tail, rest.head? ≠ some o) → 6 * (write t ls ++ rest).length + ls.length + 2 ≤ fuel →
    ∃ more, 6 * rest.length + ls.length + 1 ≤ more ∧ parseLevel fuel ls (write t ls ++ rest) = goOn more t rest ls

/-- The whole formula is read where no connective of the place follows. -/
theorem Leads.reads (h : Leads t ls) {rest : List String} {fuel : Nat} (hrest : ∀ o ∈ ls, rest.head? ≠ some o)
    (hfuel : 6 * (write t ls ++ rest).length + ls.length + 2 ≤ fuel) :
    parseLevel fuel ls (write t ls ++ rest) = .ok (t, rest) := by
  obtain ⟨more, hmore, heq⟩ := h rest fuel (fun o ho => hrest o (mem_of_mem_tail ho)) hfuel
  obtain ⟨more, rfl⟩ : ∃ k, more = k + 1 := ⟨more - 1, by omega⟩
  rw [heq]
  cases ls with
  | nil => rfl
  | cons op higher => exact if_neg (hrest op mem_cons_self)

/-- A place that takes one more connective reads the same lexemes. -/
theorem Leads.lift (op : String) (h : Leads t higher) (hw : write t (op :: higher) = write t higher) : Leads t (op :: higher) := by
  intro rest fuel hrest hfuel
  rw [hw, length_cons] at hfuel
  obtain ⟨fuel, rfl⟩ : ∃ k, fuel = k + 1 := ⟨fuel - 1, by omega⟩
  refine ⟨fuel, by rw [length_append] at hfuel; simp only [length_cons]; omega, ?_⟩
  rw [hw, parseLevel, h.reads hrest (by omega)]
  rfl

theorem Leads.joined (hl : Leads l (op :: higher)) (hr : Leads r higher) (hop : op ∉ higher)
    (hw : write (.node op l r) (op :: higher) = write l (op :: higher) ++ op :: write r higher) :
    Leads (.node op l r) (op :: higher) := by
  intro rest fuel hrest hfuel
  rw [hw, append_assoc, cons_append] at hfuel ⊢
  have hother : ∀ o ∈ higher, (op :: (write r higher ++ rest)).head? ≠ some o := fun o ho h =>
    hop (Option.some.inj h ▸ ho)
  obtain ⟨more, hmore, heq⟩ := hl _ fuel hother hfuel
  simp only [length_cons, length_append] at hmore
  obtain ⟨more, rfl⟩ : ∃ k, more = k + 1 := ⟨more - 1, by omega⟩
  refine ⟨more, by rw [length_cons]; omega, heq.trans ?_⟩
  rw [goOn, parseMore, if_pos head?_cons, tail_cons, hr.reads hrest (by simp only [length_append]; omega)]
  rfl

theorem Leads.parenthesised (h : Leads t levels) (hw : write t [] = "(" :: (write t levels ++ [")"])) : Leads t [] := by
  intro rest fuel _ hfuel
  have hclose : ∀ op ∈ levels, (")" :: rest).head? ≠ some op := fun op hop e => by
    cases e
    exact absurd hop (by decide)
  rw [hw] at hfuel ⊢
  simp only [cons_append, append_assoc, nil_append, length_cons, length_append, length_nil] at hfuel ⊢
  obtain ⟨fuel, rfl⟩ : ∃ k, fuel = k + 2 := ⟨fuel - 2, by omega⟩
  refine ⟨6 * rest.length + 1, le_rfl, ?_⟩
  rw [parseLevel, parsePrefixed, if_neg (by decide), if_neg (by decide), if_pos rfl,
    h.reads hclose (by rw [show levels.length = 3 from rfl, length_append, length_cons]; omega)]
  rfl

/-- The formula is read at every place. -/
structure Readable (t : Term) : Prop where
  prefixed : Leads t []
  and : Leads t ["AND"]
  or : Leads t ["OR", "AND"]
  implies : Leads t levels

theorem Leads.readable (h : Leads t []) (hw : ∀ ls, write t ls = write t []) : Readable t :=
  have hlift : ∀ {ls} op, Leads t ls → Leads t (op :: ls) := fun op h => h.lift op ((hw _).trans (hw _).symm)
  ⟨h, hlift _ h, hlift _ (hlift _ h), hlift _ (hlift _ (hlift _ h))⟩

theorem Plain.readable (h : Plain t) : Readable t := by
  induction h with
  | @atom a ha =>
    refine Leads.readable (fun rest fuel _ hfuel => ⟨_, le_rfl, ?_⟩) fun _ => rfl
    obtain ⟨fuel, rfl⟩ : ∃ k, fuel = k + 2 := ⟨fuel - 2, by omega⟩
    have hno : ∀ w ∈ "EU" :: "AU" :: "(" :: prefixes, isName w = false := by decide
    have hne : ∀ w ∈ "EU" :: "AU" :: "(" :: prefixes, a ≠ w := fun w hw h => by
      rw [← h] at hw
      exact absurd (hno a hw) (by simp [ha])
    simp only [forall_mem_cons] at hne
    have hother : prefixes.contains a = false := by simpa using fun h => hne.2.2.2 a h rfl
    rw [write, singleton_append, parseLevel, parsePrefixed, ← prefixes, hother, if_neg Bool.false_ne_true,
      if_neg (by simp [hne.1, hne.2.1]), if_neg hne.2.2.1]
    rfl
  | @prefixed op t hop _ ih =>
    refine Leads.readable (fun rest fuel hrest hfuel => ⟨_, le_rfl, ?_⟩) fun _ => rfl
    rw [write, cons_append, length_cons] at hfuel
    obtain ⟨fuel, rfl⟩ : ∃ k, fuel = k + 2 := ⟨fuel - 2, by omega⟩
    have hread : parseLevel (fuel + 1) [] (write t [] ++ rest) = .ok (t, rest) :=
      ih.prefixed.reads hrest (by rw [length_nil] at hfuel ⊢; omega)
    rw [parseLevel] at hread
    rw [write, cons_append, parseLevel, parsePrefixed, ← prefixes, if_pos (contains_iff_mem.2 hop), hread]
    rfl
  | joined hop _ hr ihl ihr =>
    -- its own level comes first, then the looser ones, and with parentheses the tighter ones
    simp only [levels, mem_cons, not_mem_nil, or_false] at hop
    rcases hop with rfl | rfl | rfl
    · have h := ihl.implies.joined ihr.or (by decide) (by rw [write_joined hr]; rfl)
      have hnil := h.parenthesised (by simp only [write_joined hr]; rfl)
      have hand := hnil.lift "AND" (by simp only [write_joined hr]; rfl)
      exact ⟨hnil, hand, hand.lift "OR" (by simp only [write_joined hr]; rfl), h⟩
    · have h := ihl.or.joined ihr.and (by decide) (by rw [write_joined hr]; rfl)
      have himplies := h.lift "IMPLIES" (by simp only [write_joined hr]; rfl)
      have hnil := himplies.parenthesised (by simp only [write_joined hr]; rfl)
      exact ⟨hnil, hnil.lift "AND" (by simp only [write_joined hr]; rfl), h, himplies⟩
    · have h := ihl.and.joined ihr.prefixed (by decide) (by rw [write_joined hr]; rfl)
      have hor := h.lift "OR" (by simp only [write_joined hr]; rfl)
      have himplies := hor.lift "IMPLIES" (by simp only [write_joined hr]; rfl)
      exact ⟨himplies.parenthesised (by simp only [write_joined hr]; rfl), h, hor, himplies⟩

/-- Every formula of named atoms, prefix operators and connectives is read from its text. -/
theorem parse_printed {t : Term} (h : Plain t) : parse (print t) = .ok t := by
  have hread : parseLevel (6 * (write t levels).length + 8) levels (write t levels ++ []) = .ok (t, []) :=
    h.readable.implies.reads (by simp) (by simp [levels])
  rw [append_nil] at hread
  unfold parse print
  rw [lexemes_join (h.lexeme levels)]
  exact congrArg (fun x => x >>= fun p => pure p.1) hread

/-- Connectives of all levels, with and without parentheses. -/
def nested : Term :=
  .node "IMPLIES" (.node "IMPLIES" (.atom "p") (.node "OR" (.atom "q_1") (.node "AND" (.atom "p") (.atom "_r"))))
    (.node "AND" (.node "NOT" (.node "EX" (.node "OR" (.atom "p") (.atom "q_1")) .absent) .absent)
      (.node "AND" (.atom "p") (.node "AG" (.atom "_r") .absent)))

theorem parse_printed_nested :
    print nested = "p IMPLIES q_1 OR p AND _r IMPLIES NOT EX ( p OR q_1 ) AND ( p AND AG _r )" ∧
      parse (print nested) = .ok nested := by
  refine ⟨by decide +kernel, parse_printed ?_⟩
  have hp : Plain (.atom "p") := .atom (by decide)
  have hq : Plain (.atom "q_1") := .atom (by decide)
  have hr : Plain (.atom "_r") := .atom (by decide)
  have himplies : "IMPLIES" ∈ levels := by decide
  have hor : "OR" ∈ levels := by decide
  have hand : "AND" ∈ levels := by decide
  exact .joined himplies (.joined himplies hp (.joined hor hq (.joined hand hp hr)))
    (.joined hand (.prefixed (by decide) (.prefixed (by decide) (.joined hor hp hq)))
      (.joined hand hp (.prefixed (by decide) hr)))

end Arena.Fuzzy.Branching
