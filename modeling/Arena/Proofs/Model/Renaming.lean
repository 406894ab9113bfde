/-
Models whose states have other names. A text in which the names of the states and the initial state are replaced by
words that are no titles is read as the model with these names, whose transitions are the old ones between the new
names.
-/
import Arena.Proofs.Model.Sections
import Arena.Proofs.Model.Transitions

namespace Arena

open Text List

theorem nth_map {α β : Type} (f : α → β) (xs : List α) (i : Int) : nth (xs.map f) i = (nth xs i).map f := by
  unfold nth
  rw [length_map]
  cases place? xs.length i with
  | none => rfl
  | some j =>
    simp only [getElem?_map]
    cases xs[j]? <;> rfl

theorem mapM_map_outcome {α β γ : Type} {g : α → Outcome β} {g' : α → Outcome γ} {f : β → γ}
    (h : ∀ x, g' x = (g x).map f) : ∀ xs : List α, xs.mapM g' = (xs.mapM g).map (map f)
  | [] => rfl
  | x :: xs => by
    rw [mapM_cons, mapM_cons, mapM_map_outcome h xs, h]
    cases g x with
    | error e => rfl
    | ok y => cases xs.mapM g <;> rfl

namespace Model

/-- The new name of the initial state; a model without one stays so. -/
def renameInitial (f : String → String) (q : String) : String := if q = "" then "" else f q

def rename (f : String → String) (m : Model) : Model :=
  { m with states := m.states.map f, initial := renameInitial f m.initial }

theorem rename_id (m : Model) : m.rename id = m := by
  have hinitial : renameInitial id m.initial = m.initial := by
    unfold renameInitial
    split
    · rename_i he
      exact he.symm
    · rfl
  rw [rename, hinitial, map_id]

/-! ## Transitions -/

section Transitions

variable (f : String → String) (m : Model)

theorem stateAt_rename (i : Int) : (m.rename f).stateAt i = (m.stateAt i).map f := nth_map f m.states i

theorem rowEdges_rename (i : Nat) : ∀ (j : Nat) (row : List Cell),
    (m.rename f).rowEdges i j row = (m.rowEdges i j row).map (map (Prod.map f f))
  | _, [] => rfl
  | j, c :: row => by
    simp only [rowEdges, rowEdges_rename i (j + 1) row, stateAt_rename]
    split
    · rfl
    · cases m.stateAt i with
      | error e => rfl
      | ok q =>
        cases m.stateAt (if c.isAny then (i : Int) else j) with
        | error e => rfl
        | ok r => cases m.rowEdges i (j + 1) row <;> rfl

theorem edgesFrom_rename : ∀ (i : Nat) (g : Matrix),
    (m.rename f).edgesFrom i g = (m.edgesFrom i g).map (map (Prod.map f f))
  | _, [] => rfl
  | i, row :: g => by
    simp only [edgesFrom, rowEdges_rename, edgesFrom_rename (i + 1) g]
    cases m.rowEdges i 0 row with
    | error e => rfl
    | ok here =>
      cases m.edgesFrom (i + 1) g with
      | error e => rfl
      | ok others => exact congrArg Except.ok map_append.symm

theorem edges_rename : (m.rename f).edges = m.edges.map (map (Prod.map f f)) := edgesFrom_rename f m 0 m.graph

variable {m}

theorem mem_of_rowEdges {i : Nat} : ∀ (j : Nat) (row : List Cell) {es : List (String × String)},
    m.rowEdges i j row = .ok es → ∀ e ∈ es, e.1 ∈ m.states ∧ e.2 ∈ m.states
  | _, [], _, h => by
    cases h
    simp
  | j, c :: row, es, h => by
    unfold rowEdges at h
    split at h
    · exact mem_of_rowEdges (j + 1) row h
    · obtain ⟨q, hq, h⟩ := bind_eq_ok.1 h
      obtain ⟨r, hr, h⟩ := bind_eq_ok.1 h
      obtain ⟨others, ho, h⟩ := bind_eq_ok.1 h
      cases h
      exact forall_mem_cons.2 ⟨⟨mem_of_nth hq, mem_of_nth hr⟩, mem_of_rowEdges (j + 1) row ho⟩

theorem mem_of_edgesFrom : ∀ (i : Nat) (g : Matrix) {es : List (String × String)},
    m.edgesFrom i g = .ok es → ∀ e ∈ es, e.1 ∈ m.states ∧ e.2 ∈ m.states
  | _, [], _, h => by
    cases h
    simp
  | i, row :: g, es, h => by
    obtain ⟨here, hh, h⟩ := bind_eq_ok.1 h
    obtain ⟨others, ho, h⟩ := bind_eq_ok.1 h
    cases h
    intro e he
    rcases mem_append.1 he with he | he
    · exact mem_of_rowEdges 0 row hh e he
    · exact mem_of_edgesFrom (i + 1) g ho e he

end Transitions

/-! ## Texts -/

/-- A name that a text can have for a state. -/
@[mk_iff] structure Nameable (q : String) : Prop where
  word : IsWord q
  kept : kept q = q
  noHeader : header? .plain q = none

instance (q : String) : Decidable (Nameable q) := decidable_of_iff' _ (nameable_iff q)

def namesOf : Option Section × String → List String
  | (some .stateNames, line) => keptWords line
  | (some .initialState, line) => if line = "" then [] else [line]
  | _ => []

def namesIn (source : String) : List String := (entries none (trimmedLines source)).flatMap namesOf

def renameLine (f : String → String) : Option Section → String → String
  | some .stateNames, line => join " " ((keptWords line).map f)
  | some .initialState, line => renameInitial f line
  | _, line => line

def renameLines (f : String → String) : Option Section → List String → List String
  | _, [] => []
  | s, line :: rest =>
    match header? .plain line with
    | some t => line :: renameLines f (some t) rest
    | none => renameLine f s line :: renameLines f s rest

def renameText (f : String → String) (source : String) : String :=
  String.join ((renameLines f none (trimmedLines source)).map (· ++ "\n"))

section Texts

variable {f : String → String}

theorem keptWords_join {ws : List String} (h : ∀ w ∈ ws, Nameable w) : keptWords (join " " ws) = ws := by
  unfold keptWords
  rw [words_join fun w hw => (h w hw).word]
  exact map_eq_self fun w hw => (h w hw).kept

theorem renameLine_spec {e : Option Section × String} (he : header? .plain e.2 = none)
    (htrim : IsTrimmed e.2) (h : ∀ q ∈ namesOf e, Nameable (f q)) :
    header? .plain (renameLine f e.1 e.2) = none ∧ IsTrimmed (renameLine f e.1 e.2) := by
  -- a line of words that can be names, of which a single name is a case
  have hjoin : ∀ ws : List String, (∀ w ∈ ws, Nameable w) → header? .plain (join " " ws) = none ∧
      IsTrimmed (join " " ws) := by
    intro ws hws
    have hline := insertable_join (fun w hw => (hws w hw).word) fun w hw => (hws w hw).noHeader
    exact ⟨hline.noHeader, hline.trimmed⟩
  obtain ⟨s, line⟩ := e
  rcases s with _ | s
  · exact ⟨he, htrim⟩
  cases s with
  | stateNames =>
    refine hjoin _ fun w hw => ?_
    obtain ⟨q, hq, rfl⟩ := mem_map.1 hw
    exact h q hq
  | initialState =>
    simp only [renameLine, renameInitial]
    by_cases hline : line = ""
    · rw [if_pos hline, ← hline]
      exact ⟨he, htrim⟩
    · rw [if_neg hline]
      have hname : Nameable (f line) := h line (by simp [namesOf, hline])
      have := hjoin [f line] (by simpa using hname)
      simpa [join] using this
  | _ => exact ⟨he, htrim⟩

theorem renameLines_spec : ∀ (lines : List String) (s : Option Section),
    (∀ l ∈ lines, IsTrimmed l) →
    (∀ e ∈ entries s lines, ∀ q ∈ namesOf e, Nameable (f q)) →
    (∀ l ∈ renameLines f s lines, IsTrimmed l) ∧
      entries s (renameLines f s lines) = (entries s lines).map fun e => (e.1, renameLine f e.1 e.2)
  | [], s, _, _ => by simp [renameLines, entries]
  | line :: lines, s, htrim, h => by
    obtain ⟨hline, hlines⟩ := forall_mem_cons.1 htrim
    cases hh : header? .plain line with
    | some t =>
      simp only [entries, hh] at h
      obtain ⟨hall, hentries⟩ := renameLines_spec lines (some t) hlines h
      simp only [renameLines, entries, hh]
      exact ⟨forall_mem_cons.2 ⟨hline, hall⟩, hentries⟩
    | none =>
      simp only [entries, hh] at h
      obtain ⟨hfirst, hrest⟩ := forall_mem_cons.1 h
      obtain ⟨hall, hentries⟩ := renameLines_spec lines s hlines hrest
      obtain ⟨hnone, hnew⟩ := renameLine_spec (e := (s, line)) hh hline hfirst
      simp only [renameLines, entries, hh, hnone, hentries, map_cons, and_true]
      exact forall_mem_cons.2 ⟨hnew, hall⟩

theorem mem_of_renameLines {s : Option Section} {lines : List String} {line : String}
    (htrim : ∀ l ∈ lines, IsTrimmed l)
    (h : ∀ e ∈ entries s lines, ∀ q ∈ namesOf e, Nameable (f q)) (hline : line ∈ renameLines f s lines)
    (hheader : header? .plain line ≠ none) : line ∈ lines := by
  induction lines generalizing s with
  | nil => cases hline
  | cons l lines ih =>
    obtain ⟨hl, hlines⟩ := forall_mem_cons.1 htrim
    cases hh : header? .plain l with
    | some t =>
      simp only [entries, hh] at h
      simp only [renameLines, hh] at hline
      rcases mem_cons.1 hline with rfl | hline
      · exact mem_cons_self
      · exact mem_cons_of_mem _ (ih hlines h hline)
    | none =>
      simp only [entries, hh] at h
      simp only [renameLines, hh] at hline
      obtain ⟨hfirst, hrest⟩ := forall_mem_cons.1 h
      rcases mem_cons.1 hline with rfl | hline
      · exact absurd (renameLine_spec (e := (s, l)) hh hl hfirst).1 hheader
      · exact mem_cons_of_mem _ (ih hlines hrest hline)

theorem renameLines_append_header {line : String} {t : Section} (hh : header? .plain line = some t) (after : List String) :
    ∀ (before : List String) (s : Option Section),
      renameLines f s (before ++ line :: after) = renameLines f s before ++ line :: renameLines f (some t) after
  | [], s => by simp only [nil_append, renameLines, hh]
  | l :: before, s => by
    cases hl : header? .plain l with
    | some u => simp only [cons_append, renameLines, hl, renameLines_append_header hh after before (some u)]
    | none => simp only [cons_append, renameLines, hl, renameLines_append_header hh after before s]

theorem renameLines_rows (after : List String) : ∀ {rows : List String}, (∀ line ∈ rows, header? .plain line = none) →
    renameLines f (some .transition) (rows ++ after) = rows ++ renameLines f (some .transition) after
  | [], _ => rfl
  | line :: rows, h => by
    obtain ⟨hline, hrows⟩ := forall_mem_cons.1 h
    simp only [cons_append, renameLines, hline, renameLines_rows after hrows]
    rfl

theorem linesOf_renamed (es : List (Option Section × String)) (s : Section) :
    linesOf (es.map fun e => (e.1, renameLine f e.1 e.2)) s = (linesOf es s).map (renameLine f (some s)) := by
  unfold linesOf
  rw [filterMap_map, map_filterMap]
  refine filterMap_congr fun e _ => ?_
  by_cases he : e.1 = some s <;> simp [he]

theorem modelOf_renamed {lines : Section → List String}
    (h : ∀ line ∈ lines .stateNames, ∀ q ∈ keptWords line, Nameable (f q)) :
    modelOf (fun s => (lines s).map (renameLine f (some s))) = (modelOf lines).rename f := by
  have hstates : (((lines .stateNames).map (renameLine f (some .stateNames))).getLast?.map keptWords).getD [] =
      (((lines .stateNames).getLast?.map keptWords).getD []).map f := by
    rw [getLast?_map]
    cases hlast : (lines .stateNames).getLast? with
    | none => rfl
    | some line => exact keptWords_join (forall_mem_map.2 (h line (mem_of_getLast? hlast)))
  have hinitial : ((lines .initialState).map (renameLine f (some .initialState))).getLast?.getD "" =
      renameInitial f ((lines .initialState).getLast?.getD "") := by
    rw [getLast?_map]
    cases (lines .initialState).getLast? <;> rfl
  have hkept : ∀ s, s ≠ .stateNames → s ≠ .initialState → (lines s).map (renameLine f (some s)) = lines s := by
    intro s hn hi
    cases s <;> first | contradiction | exact map_id _
  simp only [modelOf, rename, hstates, hinitial]
  simp [hkept]

theorem load_renameText {source : String} (h : ∀ q ∈ namesIn source, Nameable (f q)) {m : Model}
    (hm : load .plain source = .ok m) : load .plain (renameText f source) = .ok (m.rename f) := by
  have hnames : ∀ e ∈ entries none (trimmedLines source), ∀ q ∈ namesOf e, Nameable (f q) := fun e he q hq =>
    h q (mem_flatMap.2 ⟨e, he, hq⟩)
  obtain ⟨htrim, hentries⟩ := renameLines_spec _ none (fun l hl => trimmedLines_spec hl) hnames
  obtain ⟨hread, rfl⟩ := load_eq_ok.1 hm
  rw [load_eq_ok, renameText, trimmedLines_join htrim, Reads, hentries, funext (linesOf_renamed _)]
  refine ⟨forall_mem_map.2 fun e he hs => ?_, (modelOf_renamed fun line hline => hnames _ (mem_linesOf.1 hline)).symm⟩
  have hsome := hread e he hs
  rcases e with ⟨s, line⟩
  rcases hs with rfl | rfl <;> exact hsome

end Texts

end Model

end Arena
