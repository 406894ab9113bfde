/-
Texts of priced models. What a title opens and what lines add is said for any draft and any lines behind them, so a text
is read by going through its sections. Blanks at the ends of lines, or a missing last line end, make no difference.
-/
import Arena.Proofs.Model.Kinds

namespace Arena.Text

open List

/-! ## Characters of priced models -/

/-- A text of some characters only. -/
def Over (cs : List Char) (s : String) : Prop := ∀ c ∈ s.toList, c ∈ cs

instance (cs : List Char) (s : String) : Decidable (Over cs s) := inferInstanceAs (Decidable (∀ _ ∈ _, _))

section Over

variable {cs ds : List Char} {s t : String}

theorem Over.mono (h : Over cs s) (hsub : ∀ c ∈ cs, c ∈ ds) : Over ds s := fun c hc => hsub c (h c hc)

theorem Over.not_mem (h : Over cs s) {c : Char} (hc : c ∉ cs) : c ∉ s.toList := fun hmem => hc (h c hmem)

theorem Over.append (hs : Over cs s) (ht : Over cs t) : Over cs (s ++ t) := by
  intro c hc
  rw [String.toList_append, mem_append] at hc
  exact hc.elim (hs c) (ht c)

theorem Over.join (hs : Over cs s) {ws : List String} (h : ∀ w ∈ ws, Over cs w) : Over cs (join s ws) := by
  intro c hc
  rcases mem_join hc with hc | ⟨w, hw, hc⟩
  · exact hs c hc
  · exact h w hw c hc

theorem over_toString (n : Nat) : Over decimals (toString n) := fun _ hc => mem_toDigits (toList_natRepr n ▸ hc)

end Over

/-- The characters of the cells, names, prices and labels that are written. -/
def signs : List Char := [' ', 'A', 'B', '^', 's', '$', ';', ':', ','] ++ decimals

abbrev Signed (s : String) : Prop := Over signs s

theorem Over.isLine {line : String} (h : Signed line) : '\n' ∉ line.toList ∧ '\r' ∉ line.toList :=
  ⟨h.not_mem (by decide), h.not_mem (by decide)⟩

def IsSign (w : String) : Prop := IsWord w ∧ Signed w

instance (w : String) : Decidable (IsSign w) := inferInstanceAs (Decidable (_ ∧ _))

section Signs

variable {ws : List String} (h : ∀ w ∈ ws, IsSign w)

include h

theorem signed_join : Signed (join " " ws) := Over.join (by decide) fun w hw => (h w hw).2

theorem words_signs : words (join " " ws) = ws := words_join fun w hw => (h w hw).1

theorem trim_signs : trim (join " " ws) = join " " ws := trim_join fun w hw => (h w hw).1

theorem trim_spaced : trim (String.join (ws.map (· ++ " "))) = join " " ws ∧ Signed (String.join (ws.map (· ++ " "))) := by
  cases ws with
  | nil => decide
  | cons w ws =>
    have hblank : " ".toList = [' '] := by decide
    rw [← join_append " " (cons_ne_nil w ws), trim_append_blank hblank (by decide)]
    exact ⟨trim_signs h, (signed_join h).append (by decide)⟩

end Signs

end Arena.Text

namespace Arena.Model

open Text List

variable {line : String} {rows : List (List String)} {kind : Kind}

theorem isSign_toString (n : Nat) : IsSign (toString n) := ⟨(isWord_numeral n).1, (over_toString n).mono (by decide)⟩

theorem mem_of_header? {s : Section} (h : header? kind line = some s) : 'e' ∈ line.toList ∨ 'i' ∈ line.toList := by
  unfold header? at h
  split at h
  all_goals try decide
  split at h
  all_goals first | decide | contradiction

theorem header?_of_signed (h : Signed line) : header? kind line = none := by
  by_contra hne
  obtain ⟨s, hs⟩ := Option.ne_none_iff_exists'.1 hne
  rcases mem_of_header? hs with hc | hc
  · exact h.not_mem (by decide) hc
  · exact h.not_mem (by decide) hc

theorem kept_of_signed {w : String} (h : Signed w) : kept w = w := kept_eq_self (h.not_mem (by decide))

/-! ## Rows of words -/

theorem keptWords_signs {ws : List String} (h : ∀ w ∈ ws, IsSign w) : keptWords (join " " ws) = ws := by
  rw [keptWords, words_signs h, map_eq_self fun w hw => kept_of_signed (h w hw).2]

theorem rectangular_of_length {n : Nat} (h : ∀ r ∈ rows, r.length = n) : rectangular rows = true := by
  cases rows with
  | nil => rfl
  | cons r rows =>
    obtain ⟨hr, hrows⟩ := forall_mem_cons.1 h
    exact all_eq_true.2 fun s hs => beq_iff_eq.2 ((hrows s hs).trans hr.symm)

theorem map_words_signs (h : ∀ r ∈ rows, ∀ w ∈ r, IsSign w) : (rows.map (join " ")).map words = rows := by
  rw [map_map]
  exact map_eq_self fun r hr => words_signs (h r hr)

/-- A text of shared sections that begins with a matrix, under the title of a matrix with prices. -/
theorem Shared.load_priced {rows : List String} {bs : List (Section × List String)} (h : Shared ((.transition, rows) :: bs))
    {source : String} (hs : trimmedLines source = "Transition_With_Costs" :: (rows ++ blockLines bs)) :
    load .cost source = .ok { modelOf (linesIn ((.transition, rows) :: bs)) with
      agents := .text ((linesIn ((.transition, rows) :: bs) .agentCount).getLast?.getD ""), weighted := true } := by
  have hentries : entries (some .transition) (rows ++ blockLines bs) =
      entries none (blockLines ((.transition, rows) :: bs)) := (entries_header rfl none _).symm
  obtain ⟨o, ho⟩ := addAll_draftOf (w := true) (by decide)
    (fun line hline => h.header?_eq .cost line (mem_cons_of_mem _ hline)) (hentries ▸ h.readable) []
  have hadd : start.addAll .cost (trimmedLines source) =
      (draftOf .cost true (linesIn ((.transition, rows) :: bs)) o, none) := by
    rw [hs, ← linesOf_blockLines h.plain.1 h.plain.2]
    exact ho
  rw [load, read_eq, hadd]
  simp only [h.finish]
  rfl

end Arena.Model
