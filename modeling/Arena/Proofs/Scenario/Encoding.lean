/-
Scenarios as models. The text of a scenario is read back as its model: the states in their order, the initial state and
the number of agents, and in each cell the codes of the transitions between its two states, with idling on the diagonal.
A joint action is known by its code.
-/
import Arena.Proofs.Model.Fields
import Arena.Proofs.Scenario.Codes

namespace Arena.Scenario

open Text Model Datum List

variable {codes : Codes} {a x p q : String} {s : Scene} {c : Char}

/-! ## Lines of words -/

def IsEntry (w : String) : Prop := IsWord w ∧ header? .plain w = none

instance (w : String) : Decidable (IsEntry w) := inferInstanceAs (Decidable (_ ∧ _))

/-! ## Scenes -/

/-- A transition of a scene: its ends and the action of each agent. -/
structure Arrow where
  source : String
  target : String
  joint : List String

structure Scene where
  states : List String
  agents : List String
  actions : String → List String
  arrows : List Arrow
  initial : String
  labels : String → List String

structure Arrow.DescribedBy (a : Arrow) (d : Datum) : Prop where
  source : d.part "from" = .ok (.text a.source)
  target : d.part "to" = .ok (.text a.target)
  joint : d.part "joint" = .ok (.names a.joint)

structure Scene.DescribedBy (s : Scene) (d : Datum) : Prop where
  states : d.part "states" = .ok (.names s.states)
  agents : d.part "agents" = .ok (.names s.agents)
  actions : ∃ table, d.part "actions" = .ok table ∧ ∀ a ∈ s.agents, table.part a = .ok (.names (s.actions a))
  arrows : ∃ ts, d.part "transitions" = .ok (.list ts) ∧ Forall₂ Arrow.DescribedBy s.arrows ts
  initial : d.part "initial_state" = .ok (.text s.initial)
  labels : ∀ q ∈ s.states, labelsOf (labellingOf d) q = .ok ((s.labels q).map .text)

def Scene.IsJoint (s : Scene) (xs : List String) : Prop := Forall₂ (fun a x => x ∈ s.actions a) s.agents xs

/-- There is an agent, the states are words that open no section, the names of actions have letters, and there are
letters enough for the actions of each agent and for the propositions. -/
structure Scene.Proper (s : Scene) : Prop where
  agents : s.agents ≠ [] ∧ s.agents.length < 10 ^ maxDigits
  states : ∀ q ∈ s.states, IsEntry q
  initial : s.initial ∈ s.states
  actions : ∀ a ∈ s.agents, (s.actions a).length ≤ 26 ∧ ∀ x ∈ s.actions a, IsActionName x
  arrows : ∀ a ∈ s.arrows, s.IsJoint a.joint
  labels : (distinct (s.states.flatMap s.labels)).length ≤ 26 ∧ ∀ q ∈ s.states, ∀ p ∈ s.labels q, IsAscii p

/-! ## Joint actions and their codes -/

def Codes.word (codes : Codes) (agents xs : List String) : String :=
  String.join ((agents.zip xs).map fun e => (codes.find? e.1 (.text e.2)).getD "")

def IsCode (w : String) : Prop := w ≠ "" ∧ ∀ c ∈ w.toList, c.isUpper = true

section Words

variable {agents : List String} {actions : String → List String} (h : Faithful codes agents actions)

include h

theorem Faithful.exists_letter (ha : a ∈ agents) (hx : x ∈ actions a) :
    ∃ c : Char, codes.find? a (.text x) = some (String.singleton c) ∧ c.isUpper = true := by
  obtain ⟨code, hcode, hfind⟩ := h.letter a ha x hx
  obtain ⟨c, hc, rfl⟩ := mem_map.1 hcode
  have hupper : ∀ c ∈ capital.alphabet, c.isUpper = true := by decide
  exact ⟨c, hfind, hupper c hc⟩

theorem Faithful.toList_word_cons (ha : a ∈ agents) (hx : x ∈ actions a) (as xs : List String) :
    ∃ c : Char, codes.find? a (.text x) = some (String.singleton c) ∧ c.isUpper = true ∧
      (codes.word (a :: as) (x :: xs)).toList = c :: (codes.word as xs).toList := by
  obtain ⟨c, hfind, hc⟩ := h.exists_letter ha hx
  refine ⟨c, hfind, hc, ?_⟩
  unfold Codes.word
  rw [zip_cons_cons, map_cons, String.join_cons, hfind]
  simp

theorem Faithful.isUpper_word : ∀ {as xs : List String}, as ⊆ agents → Forall₂ (fun a x => x ∈ actions a) as xs →
    ∀ c ∈ (codes.word as xs).toList, c.isUpper = true := by
  intro as xs hsub hxs
  induction hxs with
  | nil => simp [Codes.word]
  | @cons a x as xs hx _ ih =>
    obtain ⟨ha, hsub⟩ := cons_subset.1 hsub
    obtain ⟨c, -, hc, hword⟩ := h.toList_word_cons ha hx as xs
    rw [hword]
    exact forall_mem_cons.2 ⟨hc, ih hsub⟩

theorem Faithful.isCode_word {xs : List String} (hne : agents ≠ [])
    (hxs : Forall₂ (fun a x => x ∈ actions a) agents xs) : IsCode (codes.word agents xs) := by
  refine ⟨fun hempty => ?_, h.isUpper_word (Subset.refl _) hxs⟩
  cases hxs with
  | nil => exact hne rfl
  | @cons a x as xs hx _ =>
    obtain ⟨c, -, -, hword⟩ := h.toList_word_cons mem_cons_self hx as xs
    rw [hempty] at hword
    cases hword

theorem Faithful.word_injective : ∀ {as xs ys : List String}, as ⊆ agents → Forall₂ (fun a x => x ∈ actions a) as xs →
    Forall₂ (fun a x => x ∈ actions a) as ys → codes.word as xs = codes.word as ys → xs = ys := by
  intro as xs ys hsub hxs hys heq
  induction hxs generalizing ys with
  | nil =>
    cases hys
    rfl
  | @cons a x as xs hx _ ih =>
    obtain ⟨ha, hsub⟩ := cons_subset.1 hsub
    cases hys with
    | @cons _ y _ ys hy hys =>
      obtain ⟨c, hc, -, hword⟩ := h.toList_word_cons ha hx as xs
      obtain ⟨d, hd, -, hword'⟩ := h.toList_word_cons ha hy as ys
      rw [heq, hword'] at hword
      obtain ⟨rfl, hrest⟩ := cons.inj hword
      rw [h.apart a ha x hx y hy (hc.trans hd.symm), ih hsub hys (String.toList_injective hrest.symm)]

theorem Faithful.linkOf_eq {a : Arrow} {d : Datum} (hd : a.DescribedBy d)
    (hjoint : Forall₂ (fun a x => x ∈ actions a) agents a.joint) :
    linkOf agents codes d = .ok ⟨.text a.source, .text a.target, codes.word agents a.joint⟩ := by
  have hletters : (agents.zip (a.joint.map text)).mapM (fun e => orFault .key (codes.find? e.1 e.2)) =
      .ok ((agents.zip (a.joint.map text)).map fun e => (codes.find? e.1 e.2).getD "") := by
    refine mapM_eq_map fun e he => ?_
    rw [zip_map_right] at he
    obtain ⟨⟨b, x⟩, hmem, rfl⟩ := mem_map.1 he
    obtain ⟨c, hc, -⟩ := h.exists_letter (of_mem_zip hmem).1 ((forall₂_iff_zip.1 hjoint).2 hmem)
    simp [hc, orFault]
  unfold linkOf
  rw [hd.source, hd.target, hd.joint]
  change ((agents.zip (a.joint.map text)).mapM (fun e => orFault .key (codes.find? e.1 e.2)) >>= _) = _
  rw [hletters, zip_map_right, map_map]
  rfl

end Words

/-! ## Cells -/

/-- The transitions of a scene as they are kept while its text is made. -/
def Scene.links (s : Scene) (codes : Codes) : List Link :=
  s.arrows.map fun a => ⟨.text a.source, .text a.target, codes.word s.agents a.joint⟩

/-- The codes of the joint actions from one state to another. -/
def Scene.moves (s : Scene) (codes : Codes) (p q : String) : List String :=
  movesBetween (s.links codes) s.agents.length p q

theorem mem_moves {w : String} : w ∈ s.moves codes p q ↔
      (∃ a ∈ s.arrows, a.source = p ∧ a.target = q ∧ codes.word s.agents a.joint = w) ∨
        p = q ∧ w = repeated "I" s.agents.length := by
  have hfound : w ∈ ((s.links codes).filter fun l => l.source == .text p && l.target == .text q).map (·.move) ↔
      ∃ a ∈ s.arrows, a.source = p ∧ a.target = q ∧ codes.word s.agents a.joint = w := by
    simp only [Scene.links, mem_map, mem_filter, Bool.and_eq_true, beq_text]
    constructor
    · rintro ⟨l, ⟨⟨a, ha, rfl⟩, hp, hq⟩, rfl⟩
      exact ⟨a, ha, by simpa using hp, by simpa using hq, rfl⟩
    · rintro ⟨a, ha, rfl, rfl, rfl⟩
      exact ⟨_, ⟨⟨a, ha, rfl⟩, rfl, rfl⟩, rfl⟩
  unfold Scene.moves movesBetween
  rw [mem_distinct]
  split
  · rename_i hpq
    rw [mem_append, hfound]
    simp [hpq]
  · rename_i hpq
    simp [hfound, hpq]

def cellText (moves : List String) : String := if moves = [] then "0" else join "," moves

def Scene.row (s : Scene) (codes : Codes) (p : String) : List String := s.states.map fun q => cellText (s.moves codes p q)

theorem Scene.rowOf_eq (s : Scene) (codes : Codes) (p : String) :
    rowOf (s.links codes) s.agents.length s.states p = join " " (s.row codes p) := by
  unfold rowOf row
  congr 1
  refine map_congr_left fun q _ => ?_
  unfold moves
  cases movesBetween (s.links codes) s.agents.length p q <;> simp [cellText]

/-- A cell of a model lists some joint actions; a cell without any is zero. -/
def Lists (m : Model) (cell : Cell) (moves : List String) : Prop :=
  moves = [] ∧ cell = .zero ∨ moves ≠ [] ∧ cell ≠ .zero ∧ m.movesOf cell.write = .ok moves

theorem isBlank_of_isUpper (h : c.isUpper = true) : isBlank c = false := by
  have hc : c.toNat < 128 := by
    have hrange : c.val ≥ 'A'.val ∧ c.val ≤ 'Z'.val := of_decide_eq_true h
    exact Nat.lt_of_le_of_lt (UInt32.le_iff_toNat_le.1 hrange.2) (by decide)
  revert h
  refine of_ascii (p := fun c => c.isUpper = true → isBlank c = false) ?_ hc
  decide

section Cells

variable {moves : List String} (h : ∀ w ∈ moves, IsCode w)

include h

theorem mem_join_codes (hc : c ∈ (join "," moves).toList) : c.isUpper = true ∨ c = ',' := by
  rcases mem_join hc with hc | ⟨w, hw, hc⟩
  · exact .inr (by simpa using hc)
  · exact .inl ((h w hw).2 c hc)

theorem join_codes_ne {t : String} (ht : (t.toList.all fun c => c.isUpper || c == ',') = false) :
    join "," moves ≠ t := by
  rintro rfl
  have hall : ((join "," moves).toList.all fun c => c.isUpper || c == ',') = true :=
    all_eq_true.2 fun c hc => by simpa using mem_join_codes h hc
  rw [hall] at ht
  cases ht

theorem split_join_codes (hne : moves ≠ []) : split "," (join "," moves) = moves := by
  have hsep : ",".toList = [','] := by decide
  refine split_join hsep hne fun w hw hmem => ?_
  have := (h w hw).2 ',' hmem
  revert this
  decide

theorem isEntry_cellText : IsEntry (cellText moves) := by
  unfold cellText
  split
  · decide
  · rename_i hne
    refine ⟨⟨fun hempty => ?_, fun c hc => ?_⟩, ?_⟩
    · have hsplit := split_join_codes h hne
      rw [hempty, show split "," "" = [""] from rfl] at hsplit
      exact (h "" (hsplit ▸ mem_singleton_self _)).1 rfl
    · rcases mem_join_codes h hc with hc | rfl
      · exact isBlank_of_isUpper hc
      · decide
    · have htitle : ∀ s ∈ plainSections, ((title s).toList.all fun c => c.isUpper || c == ',') = false := by
        decide
      exact header?_eq_none fun s hs => join_codes_ne h (htitle s hs)

theorem lists_cellText (m : Model) : Lists m (Cell.ofWord (cellText moves)) moves := by
  unfold cellText
  split
  · rename_i hnil
    exact .inl ⟨hnil, rfl⟩
  · rename_i hne
    have hzero : Cell.ofWord (join "," moves) = .text (join "," moves) := if_neg (join_codes_ne h (by decide))
    rw [hzero]
    refine .inr ⟨hne, by simp [Cell.zero], ?_⟩
    unfold movesOf
    rw [Cell.write, if_neg (join_codes_ne h (by decide)), split_join_codes h hne]
    rfl

end Cells

/-! ## Propositions -/

theorem distinct_map_text (ps : List String) : distinct (ps.map text) = (distinct ps).map text := by
  rw [distinct, foldl_map]
  change foldl _ (map text []) ps = _
  refine foldl_hom (map text) fun seen p => ?_
  have hcontains : (seen.map text).contains (.text p) = seen.contains p := by
    rw [contains_eq_any_beq, contains_eq_any_beq, any_map]
    refine congrArg seen.any (funext fun q => ?_)
    rw [Function.comp_apply, Bool.eq_iff_iff, beq_text]
    simp
  rw [hcontains]
  split <;> simp

theorem exists_pick_prop (hp : IsAscii p) {used : List String} (hused : used.length < 26) :
    ∃ code, small.pick (wantedOfProp p) used = .ok code ∧ IsEntry code := by
  have hnodup : small.letters.Nodup := by decide
  have hletters : ∀ code ∈ small.letters, IsEntry code := by decide
  obtain ⟨code, hpick, -, hcode⟩ := Style.exists_pick hnodup (by exact hused) (wantedOfProp p)
  refine ⟨code, hpick, ?_⟩
  rcases hcode with hcode | ⟨hplain, c, hc, rfl⟩
  · exact hletters code hcode
  · have hmem : c ∈ p.toList := by
      rcases mem_append.1 hc with hc | hc
      · exact mem_stripOf (mem_of_mem_take (mem_filter.1 hc).1)
      · exact (mem_filter.1 hc).1
    revert hplain
    refine of_ascii (p := fun c => isPlain (lower (String.singleton c)) = true → IsEntry (lower (String.singleton c))) ?_
      (hp c hmem)
    decide +kernel

theorem exists_symbolsFrom : ∀ {ps used : List String}, used.length + ps.length ≤ 26 → (∀ p ∈ ps, IsAscii p) →
    ∃ symbols, symbolsFrom used (ps.map .text) = .ok symbols ∧ ∀ e ∈ symbols, IsEntry e.2
  | [], used, _, _ => ⟨[], rfl, by simp⟩
  | p :: ps, used, hlen, hps => by
    obtain ⟨hp, hps⟩ := forall_mem_cons.1 hps
    rw [length_cons] at hlen
    obtain ⟨code, hpick, hcode⟩ := exists_pick_prop hp (by omega : used.length < 26)
    obtain ⟨symbols, hrest, hsymbols⟩ := @exists_symbolsFrom ps (code :: used) (by simp; omega) hps
    refine ⟨(p, code) :: symbols, ?_, forall_mem_cons.2 ⟨hcode, hsymbols⟩⟩
    rw [map_cons, symbolsFrom, hpick]
    change (symbolsFrom (code :: used) (ps.map .text) >>= _) = _
    rw [hrest]
    rfl

/-! ## Conversion -/

theorem asNames_names (xs : List String) : (names xs).asNames = .ok xs := by
  exact mapM_map_eq fun _ _ => rfl

def Scene.marks (s : Scene) (symbols : Symbols) (q : String) : List String :=
  symbols.map fun e => if ((s.labels q).map text).contains (.text e.1) then "1" else "0"

def Scene.blocks (s : Scene) (codes : Codes) (symbols : Symbols) : List (Section × List (List String)) :=
  [(.transition, s.states.map (s.row codes)), (.unknown, (unknownSection.drop 1).map words), (.stateNames, [s.states]),
    (.initialState, [[s.initial]]), (.propositions, [symbols.map (·.2)]), (.labelling, s.states.map (s.marks symbols)),
    (.agentCount, [[toString s.agents.length]])]

def Scene.sections (s : Scene) (codes : Codes) (symbols : Symbols) : List (Section × List String) :=
  (s.blocks codes symbols).map fun b => (b.1, b.2.map (join " "))

theorem Scene.blockLines_sections (s : Scene) (codes : Codes) (symbols : Symbols) :
    blockLines (s.sections codes symbols) =
      ["Transition"] ++ s.states.map (rowOf (s.links codes) s.agents.length s.states) ++ unknownSection ++
        ["Name_State", join " " s.states, "Initial_State", s.initial, "Atomic_propositions",
          join " " (symbols.map (·.2)), "Labelling"] ++ s.states.map (fun q => join " " (s.marks symbols q)) ++
        ["Number_of_agents", toString s.agents.length] := by
  have hunknown : ((unknownSection.drop 1).map words).map (join " ") = unknownSection.drop 1 := by decide
  have hone : ∀ x : String, join " " [x] = x := fun x => by simp [join]
  rw [map_congr_left fun p _ => s.rowOf_eq codes p]
  simp only [sections, blocks, map_cons, map_nil, blockLines, flatMap_cons,
    flatMap_nil, hunknown, hone, map_map]
  simp [title, unknownSection, Function.comp_def]

theorem Scene.mapM_linkOf (hcodes : Faithful codes s.agents s.actions) {arrows : List Arrow} {ts : List Datum}
    (hts : Forall₂ Arrow.DescribedBy arrows ts) (hjoint : ∀ a ∈ arrows, s.IsJoint a.joint) :
    ts.mapM (linkOf s.agents codes) =
      .ok (arrows.map fun a => ⟨.text a.source, .text a.target, codes.word s.agents a.joint⟩) := by
  induction hts with
  | nil => rfl
  | cons ha _ ih =>
    obtain ⟨hfirst, hrest⟩ := forall_mem_cons.1 hjoint
    rw [mapM_cons, hcodes.linkOf_eq ha hfirst, ih hrest]
    rfl

section Conversion

variable {document : Datum} (hd : s.DescribedBy (inputOf document)) (hs : s.Proper)

include hd hs

theorem exists_symbolsOf : ∃ symbols, symbolsOf s.states (labellingOf (inputOf document)) = .ok symbols ∧
    ∀ e ∈ symbols, IsEntry e.2 := by
  have hascii : ∀ p ∈ distinct (s.states.flatMap s.labels), IsAscii p := fun p hp => by
    obtain ⟨q, hq, hp⟩ := mem_flatMap.1 (mem_distinct.1 hp)
    exact hs.labels.2 q hq p hp
  obtain ⟨symbols, hok, hsymbols⟩ := @exists_symbolsFrom _ [] (by simpa using hs.labels.1) hascii
  refine ⟨symbols, ?_, hsymbols⟩
  unfold symbolsOf
  rw [mapM_eq_map hd.labels]
  change symbolsFrom [] (distinct (s.states.map fun q => (s.labels q).map text).flatten) = _
  rw [← flatMap_def, ← map_flatMap, distinct_map_text, hok]

theorem convert_eq : ∃ codes symbols, Faithful codes s.agents s.actions ∧ (∀ e ∈ symbols, IsEntry e.2) ∧
    ∀ wants, convert wants document = (if wants then some <$> shortFormula (inputOf document) symbols s.agents
      else pure none) >>= fun formula? => .ok ⟨codes, symbols, formula?,
        join "\n" (blockLines (s.sections codes symbols)) ++ "\n"⟩ := by
  obtain ⟨table, htable, hactions⟩ := hd.actions
  obtain ⟨ts, hts, harrows⟩ := hd.arrows
  obtain ⟨codes, hcodes, hfaithful⟩ := exists_codesOf hactions (fun a ha => (hs.actions a ha).1) fun a ha =>
    (hs.actions a ha).2
  obtain ⟨symbols, hsymbols, hentries⟩ := exists_symbolsOf hd hs
  refine ⟨codes, symbols, hfaithful, hentries, fun wants => ?_⟩
  rw [s.blockLines_sections]
  unfold convert
  dsimp only
  have hlabels : s.states.mapM (fun q => do
      let here ← labelsOf (labellingOf (inputOf document)) q
      return join " " (symbols.map fun e : String × String => if here.contains (.text e.1) then "1" else "0")) =
        .ok (s.states.map fun q => join " " (s.marks symbols q)) :=
    mapM_eq_map fun q hq => by
      rw [hd.labels q hq]
      rfl
  have hmembers : (list ts).members = .ok ts := rfl
  rw [hd.states, hd.agents, htable, hts, hd.initial]
  simp only [ok_bind, asNames_names, hcodes, hsymbols, hmembers, Scene.mapM_linkOf hfaithful harrows hs.arrows, hlabels]
  cases wants <;> rfl

omit hd in
theorem isCode_moves (hcodes : Faithful codes s.agents s.actions) (p q : String) :
    ∀ w ∈ s.moves codes p q, IsCode w := by
  intro w hw
  rcases mem_moves.1 hw with ⟨a, ha, -, -, rfl⟩ | ⟨-, rfl⟩
  · exact hcodes.isCode_word hs.agents.1 (hs.arrows a ha)
  · obtain ⟨n, hn⟩ := Nat.exists_eq_succ_of_ne_zero (mt length_eq_zero_iff.1 hs.agents.1)
    have hlist := toList_repeated (show "I".toList = ['I'] by decide) s.agents.length
    refine ⟨fun hempty => ?_, fun c hc => ?_⟩
    · rw [hempty, hn] at hlist
      cases hlist
    · rw [hlist] at hc
      rw [eq_of_mem_replicate hc]
      decide

omit hd in
/-- The text is read: its words are no titles, and the number of agents is a numeral. -/
theorem load_sections (hcodes : Faithful codes s.agents s.actions) {symbols : Symbols}
    (hsymbols : ∀ e ∈ symbols, IsEntry e.2) :
    load .plain (join "\n" (blockLines (s.sections codes symbols)) ++ "\n") =
      .ok (modelOfWords fun t => ((s.blocks codes symbols).filter fun b => b.1 = t).flatMap (·.2)) := by
  have hunknown : ∀ row ∈ (unknownSection.drop 1).map words, ∀ w ∈ row, IsEntry w := by decide
  have hwords : ∀ b ∈ s.blocks codes symbols, ∀ row ∈ b.2, ∀ w ∈ row, IsEntry w := by
    simp only [Scene.blocks, Scene.row, Scene.marks, forall_mem_cons, forall_mem_map, not_mem_nil, false_implies,
      implies_true, and_true]
    refine ⟨fun p _ q _ => isEntry_cellText (isCode_moves hs hcodes p q), forall_mem_map.1 hunknown, hs.states,
      hs.states _ hs.initial, hsymbols, fun q _ e _ => ?_, (isWord_numeral _).1, (isWord_numeral _).2.2⟩
    split <;> decide
  have hread : readInt? s.agents.length.repr = some (s.agents.length : Int) := readInt?_toString hs.agents.2
  refine load_words (fun _ => join " ") (join_append "\n" ?_) (fun _ _ => .inl rfl) ?_ hwords ?_
  · simp [Scene.sections, Scene.blocks, blockLines]
  · simp [Scene.blocks, plainSections]
  · simp [Scene.blocks, Readable, join, hread]

omit hd in
theorem modelOf_sections (symbols : Symbols) {m : Model}
    (hm : m = modelOfWords fun t => ((s.blocks codes symbols).filter fun b => b.1 = t).flatMap (·.2)) :
    m.graph = s.states.map (fun p => (s.row codes p).map Cell.ofWord) ∧
      m.states = s.states.map kept ∧ m.initial = s.initial ∧ m.agents = .number s.agents.length := by
  have hread : readInt? s.agents.length.repr = some (s.agents.length : Int) := readInt?_toString hs.agents.2
  simp [hm, modelOfWords, Scene.blocks, join, hread]

/-- The text of a scenario is read as the model of its scene. -/
theorem load_convert : (∃ c, convert false document = .ok c) ∧ ∀ wants c, convert wants document = .ok c →
    Faithful c.codes s.agents s.actions ∧
    (∀ xs ys, s.IsJoint xs → s.IsJoint ys → c.codes.word s.agents xs = c.codes.word s.agents ys → xs = ys) ∧
    ∃ m, Model.load .plain c.text = .ok m ∧ m.states = s.states.map Model.kept ∧ m.initial = s.initial ∧
      m.agents = .number s.agents.length ∧ m.graph.length = s.states.length ∧
      (∀ row ∈ m.graph, row.length = s.states.length) ∧
      ∀ (i j : Nat) (p q : String) (row : List Cell) (cell : Cell), s.states[i]? = some p → s.states[j]? = some q →
        m.graph[i]? = some row → row[j]? = some cell → ∃ moves, Lists m cell moves ∧ moves.Nodup ∧
          ∀ w, w ∈ moves ↔ (∃ a ∈ s.arrows, a.source = p ∧ a.target = q ∧ c.codes.word s.agents a.joint = w) ∨
            p = q ∧ w = repeated "I" s.agents.length := by
  obtain ⟨codes, symbols, hcodes, hsymbols, hconvert⟩ := convert_eq hd hs
  refine ⟨⟨_, hconvert false⟩, fun wants c hc => ?_⟩
  rw [hconvert] at hc
  obtain ⟨formula?, -, hc⟩ := bind_eq_ok.1 hc
  cases hc
  obtain ⟨hgraph, hstates, hinitial, hagents⟩ := modelOf_sections hs symbols rfl
  refine ⟨hcodes, fun xs ys => hcodes.word_injective (List.Subset.refl _), _, load_sections hs hcodes hsymbols, hstates,
    hinitial, hagents, by simp [hgraph], by simp [hgraph, Scene.row], ?_⟩
  intro i j p q row cell hp hq hrow hcell
  refine ⟨s.moves codes p q, ?_, nodup_distinct _, fun w => mem_moves⟩
  rw [hgraph, getElem?_map, hp] at hrow
  cases hrow
  dsimp only [Scene.row] at hcell
  rw [map_map, getElem?_map, hq] at hcell
  cases hcell
  exact lists_cellText (isCode_moves hs hcodes p q) _

end Conversion

/-- A door that a guard locks and unlocks; the name of the state in which it is shut may be chosen. -/
def doorScene (q : String) : Scene where
  states := [q, "open"]
  agents := ["guard"]
  actions _ := ["unlock", "lock"]
  arrows := [⟨q, "open", ["unlock"]⟩, ⟨"open", q, ["lock"]⟩]
  initial := q
  labels _ := []

def doorDocument (q : String) : Datum :=
  .record [("states", .names [q, "open"]), ("agents", .names ["guard"]),
    ("actions", .record [("guard", .names ["unlock", "lock"])]),
    ("transitions", .list [.record [("from", .text q), ("to", .text "open"), ("joint", .names ["unlock"])],
      .record [("from", .text "open"), ("to", .text q), ("joint", .names ["lock"])]]),
    ("initial_state", .text q)]

theorem describedBy_door (q : String) : (doorScene q).DescribedBy (inputOf (doorDocument q)) where
  states := rfl
  agents := rfl
  actions := ⟨_, rfl, fun a ha => by rw [mem_singleton.1 ha]; rfl⟩
  arrows := ⟨_, rfl, .cons ⟨rfl, rfl, rfl⟩ (.cons ⟨rfl, rfl, rfl⟩ .nil)⟩
  initial := rfl
  labels _ _ := rfl

theorem proper_door (hq : IsEntry q) : (doorScene q).Proper where
  agents := ⟨cons_ne_nil _ _, Nat.one_lt_pow (by decide) (by decide)⟩
  states := by simpa [doorScene] using ⟨hq, by decide⟩
  initial := mem_cons_self
  actions _ _ := show (["unlock", "lock"].length ≤ 26 ∧ ∀ x ∈ ["unlock", "lock"], IsActionName x) by decide
  arrows := by simp [doorScene, Scene.IsJoint]
  labels := by simp [doorScene, distinct]

theorem load_convert_door : ∃ c m, convert false (doorDocument "shut") = .ok c ∧ Model.load .plain c.text = .ok m ∧
    m.states = ["shut", "open"] ∧ m.initial = "shut" ∧ m.agents = .number 1 := by
  obtain ⟨⟨c, hc⟩, hall⟩ := load_convert (describedBy_door "shut") (proper_door (by decide))
  obtain ⟨-, -, m, hm, hstates, hinitial, hagents, -⟩ := hall false c hc
  exact ⟨c, m, hc, hm, hstates.trans (by decide), hinitial, hagents⟩

/-- A name that ends in the character NUL is cut when it is read back. -/
theorem name_cut_by_convert : ∃ c m, convert false (doorDocument "shut\x00") = .ok c ∧ Model.load .plain c.text = .ok m ∧
    m.states = ["shut", "open"] := by
  obtain ⟨codes, symbols, hcodes, hsymbols, hconvert⟩ := convert_eq (describedBy_door "shut\x00") (proper_door (by decide))
  exact ⟨_, _, hconvert false, load_sections (proper_door (by decide)) hcodes hsymbols,
    (modelOf_sections (proper_door (by decide)) symbols rfl).2.1.trans (by decide)⟩

end Arena.Scenario
