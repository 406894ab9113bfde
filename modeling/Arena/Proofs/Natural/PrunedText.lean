/-
What firm pruning leaves of a matrix as a text. A cell that is left is written as a word, which is read as the cell
again, unless it is `0` or, alone in its row, the title of a section.
-/
import Arena.Proofs.Model.MatrixUpdate
import Arena.Proofs.Natural.Pruning

namespace Arena

open Model List Text Cell

variable {row : List Cell} {row' : List Cell} {m : Model}

/-! ## Words of a matrix -/

theorem Cell.written_ofWord {w : String} (h : IsWord w) : (ofWord w).Written := by
  unfold Written
  rw [write_ofWord]
  exact ⟨h, rfl⟩

namespace Model

/-- A matrix that passes the check has a transition in each row, and a letter of each agent in each joint
action. -/
theorem checkMoves_spec {n : Int} (h : m.checkMoves n = .ok ()) (hrow : row ∈ m.graph) :
    (∃ c ∈ row, c.isZero = false) ∧ ∀ c ∈ row, c.isZero = false → c.isAny = false →
      ∀ x ∈ split "," c.write, n ≤ (trim x).length := by
  obtain ⟨r, hr⟩ := exists_mem_zip_range hrow
  have hcheck := forall_of_forM h (row, r) hr
  by_cases hall : row.all isZero = true
  · simp only [if_pos hall] at hcheck
    cases hcheck
  simp only [if_neg hall] at hcheck
  refine ⟨by simpa using hall, fun c hc hz hany x hx => ?_⟩
  obtain ⟨k, hk⟩ := exists_mem_zip_range hc
  have hcell := forall_of_forM hcheck (c, k) hk
  simp only [hz, hany] at hcell
  have hmove := forall_of_forM hcell x hx
  by_contra hlt
  simp only [if_pos (Int.not_le.1 hlt)] at hmove
  cases hmove

end Model

namespace Natural.Pruning

variable {members : List Int} {P : Move → Prop}

/-! ## Cells that are left -/

theorem Kept.written {c d : Cell} (hk : Kept members P c d) (hc : c.Written)
    (hzero : ∀ s, c = .text s → "0" ∉ split "," s) (hne : d ≠ .text "") : d.Written := by
  cases hk with
  | zero | any => exact hc
  | emptied => exact written_ofWord (w := "0") ⟨by decide, by decide⟩
  | @listed s t hs hsub hall hpass hstar =>
    have ht : t ≠ "0" := by
      rintro rfl
      exact hzero s rfl (hsub "0" (by decide))
    have hword : IsWord t := by
      refine ⟨fun h => hne (congrArg text h), fun ch hch => ?_⟩
      rcases exists_mem_split_comma hch with rfl | ⟨x, hx, hch⟩
      · decide
      · exact hc.1.2 ch ((mem_split_comma (hsub x hx)).2 ch hch)
    have hof : ofWord t = .text t := if_neg ht
    exact hof ▸ written_ofWord hword

theorem Kept.header?_rowText (hrow : ∀ d ∈ row', ∃ c ∈ row, Kept members P c d)
    (htitle : ∀ s, .text s ∈ row → ∀ x ∈ split "," s, header? .plain x = none) (hw : ∀ d ∈ row', d.Written) :
    header? .plain (rowText row') = none := by
  by_contra h
  obtain ⟨sec, hsec⟩ := Option.ne_none_iff_exists'.1 h
  obtain ⟨hwords, hsplit⟩ := words_title hsec
  -- a title is one word, so the row has one cell
  have hone : row' = [ofWord (rowText row')] := by
    conv_lhs => rw [← words_rowText hw, hwords]
    rfl
  generalize rowText row' = line at *
  obtain ⟨c, hc, hk⟩ := hrow (ofWord line) (hone.symm ▸ mem_cons_self)
  have hne : ∀ w, header? .plain w = none → w ≠ line := by
    rintro w hw rfl
    exact absurd (hw.symm.trans hsec) (by simp)
  have htext : ofWord line = .text line := if_neg (hne "0" rfl).symm
  rw [htext] at hk
  cases hk with
  | any => exact hne "*" rfl rfl
  | @listed s _ hs hsub _ _ _ =>
    have hmem : line ∈ split "," s := hsub line (by rw [hsplit]; exact mem_cons_self)
    exact hne line (htitle s hc line hmem) rfl

/-! ## Texts -/

/-- A model text whose matrix can be pruned and written anew: the matrix stands in one block before the unknown
transitions, and no joint action is read as something else when it is alone. -/
structure Rewritable (source : String) (m : Model) : Prop where
  load : load .plain source = .ok m
  layout : ∃ before rows after, Block (trimmedLines source) .transition before rows after ∧
    ∀ line ∈ after.head?, line = title .unknown
  moves : ∀ x ∈ m.listedMoves, x ≠ "0" ∧ header? .plain x = none

section Text

variable {source : String} (hm : Rewritable source m)

include hm

theorem Rewritable.move (hrow : row ∈ m.graph) {s : String} (hs : .text s ∈ row) {x : Move}
    (hx : x ∈ split "," s) : x ≠ "0" ∧ header? .plain x = none := by
  by_cases hstar : s = "*"
  · rw [hstar] at hx
    obtain rfl : x = "*" := mem_singleton.1 hx
    exact ⟨by decide, rfl⟩
  · refine hm.moves x (mem_flatMap.2 ⟨.text s, mem_flatten.2 ⟨row, hrow, hs⟩, ?_⟩)
    simp only [if_neg hstar]
    exact hx

variable {P : Nat → Move → Prop} {g : Matrix} (hp : Prunes members P m.graph g)

omit hm in
include hp in
theorem Prunes.exists_kept (h : row' ∈ g) : ∃ i, ∃ row ∈ m.graph, ∀ d ∈ row', ∃ c ∈ row, Kept members (P i) c d := by
  obtain ⟨i, hi⟩ := mem_iff_getElem?.1 h
  obtain ⟨row, hrow, -, hcells⟩ := hp.exists_row hi
  refine ⟨i, row, mem_of_getElem? hrow, fun d hd => ?_⟩
  obtain ⟨j, hj⟩ := mem_iff_getElem?.1 hd
  obtain ⟨c, hc, hk⟩ := hcells j d hj
  exact ⟨c, mem_of_getElem? hc, hk⟩

include hp in
theorem Rewritable.load_withMatrix {n : Int} (hn : 0 < n) (hcheck : checkMoves { m with graph := g } n = .ok ()) :
    ∃ text, Model.withMatrix source (some g) = .ok text ∧ Model.load .plain text = .ok { m with graph := g } := by
  have hwritten : ∀ row' ∈ g, ∀ d ∈ row', d.Written := by
    intro row' hrow' d hd
    obtain ⟨i, row, hrow, hcells⟩ := hp.exists_kept hrow'
    obtain ⟨c, hc, hk⟩ := hcells d hd
    have hcw : c.Written := by
      obtain ⟨w, hw, rfl⟩ := exists_word_of_load hm.load hrow hc
      exact written_ofWord hw
    refine hk.written hcw (fun s hs hzero => (hm.move hrow (hs ▸ hc) hzero).1 rfl) ?_
    -- the empty joint action has no letters
    rintro rfl
    have hlen := (checkMoves_spec hcheck hrow').2 _ hd rfl rfl "" (by decide)
    have hempty : (trim "").length = 0 := by decide
    omega
  obtain ⟨before, rows, after, hb, hnext⟩ := hm.layout
  refine Model.load_withMatrix hm.load hb hnext hp.length hwritten fun row' hrow' => ?_
  obtain ⟨i, row, hrow, hcells⟩ := hp.exists_kept hrow'
  exact Kept.header?_rowText hcells (fun s hs x hx => (hm.move hrow hs hx).2) (hwritten row' hrow')

end Text

end Natural.Pruning

end Arena
