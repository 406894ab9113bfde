/-
Short names of actions. Codes are chosen for one action after the other, and along the list every named action has a
capital of its own, which no other action of the agent has.
-/
import Arena.Model.Moves
import Arena.Proofs.Model.Transitions
import Arena.Proofs.Text.Lines
import Arena.Scenario.Basic

namespace Arena.Scenario

open Text List Datum

variable {used : List String} {c : Char} {x : String}

/-! ## Choosing letters -/

def Style.letters (style : Style) : List String := style.alphabet.map String.singleton

theorem Style.exists_pick {style : Style} (hnodup : style.letters.Nodup) (hused : used.length < style.letters.length)
    (preferred : List Char) :
    ∃ code, style.pick preferred used = .ok code ∧ code ∉ used ∧
      (code ∈ style.letters ∨ isPlain code = true ∧ ∃ c ∈ preferred, code = style.change (String.singleton c)) := by
  unfold pick
  dsimp only
  cases hfind : ((preferred.map fun c => style.change (String.singleton c)).filter isPlain ++
      style.alphabet.map String.singleton).find? (!used.contains ·) with
  | none =>
    rw [find?_eq_none] at hfind
    have hsub : style.letters ⊆ used := fun code hcode => by
      simpa using hfind code (mem_append_right _ hcode)
    exact absurd (subperm_of_subset hnodup hsub).length_le (by omega)
  | some code =>
    refine ⟨code, rfl, by simpa using find?_some hfind, ?_⟩
    rcases mem_append.1 (mem_of_find?_eq_some hfind) with hmem | hmem
    · obtain ⟨hmap, hplain⟩ := mem_filter.1 hmem
      obtain ⟨c, hc, rfl⟩ := mem_map.1 hmap
      exact .inr ⟨hplain, c, hc, rfl⟩
    · exact .inl hmem

def IsAscii (s : String) : Prop := ∀ c ∈ s.toList, c.toNat < 128

instance (s : String) : Decidable (IsAscii s) := inferInstanceAs (Decidable (∀ _ ∈ _, _))

/-- A name from which a code can be made: an ASCII text with a letter. -/
def IsActionName (x : String) : Prop := IsAscii x ∧ x.toList.any Char.isAlpha = true

instance (x : String) : Decidable (IsActionName x) := inferInstanceAs (Decidable (_ ∧ _))

/-- What holds of the 128 characters of the ASCII code holds of every character below 128. -/
theorem of_ascii {p : Char → Prop} (h : ∀ n < 128, p (Char.ofNat n)) (hc : c.toNat < 128) : p c :=
  Char.ofNat_toNat c ▸ h c.toNat hc

theorem mem_letters_of_letter (hc : c.toNat < 128) :
    isLetter c = true → upper (String.singleton c) ∈ capital.letters := by
  refine of_ascii (p := fun c => isLetter c = true → upper (String.singleton c) ∈ capital.letters) ?_ hc
  decide

theorem mem_dropWhile {p : Char → Bool} {cs : List Char} (hc : c ∈ cs) (hp : p c = false) : c ∈ cs.dropWhile p := by
  rw [← takeWhile_append_dropWhile (p := p) (l := cs), mem_append] at hc
  refine hc.resolve_left fun hin => ?_
  rw [mem_takeWhile_imp hin] at hp
  cases hp

theorem mem_wantedOfAction (hx : IsActionName x) :
    ∀ c ∈ wantedOfAction (.text x), c.toNat < 128 ∧ isLetter c = true := by
  obtain ⟨d, hd, halpha⟩ := any_eq_true.1 hx.2
  have hletter : isLetter d = true ∧ isBlank d = false := by
    revert halpha
    refine of_ascii (p := fun d => d.isAlpha = true → isLetter d = true ∧ isBlank d = false) ?_ (hx.1 d hd)
    decide
  have htrim : d ∈ (trim x).toList := by
    unfold trim
    rw [toList_stripOf, mem_reverse]
    exact mem_dropWhile (mem_reverse.2 (mem_dropWhile hd hletter.2)) hletter.2
  have hne : (trim x).toList.filter isLetter ≠ [] := ne_nil_of_mem (mem_filter.2 ⟨htrim, hletter.1⟩)
  have hwanted : wantedOfAction (.text x) = (trim x).toList.filter isLetter := by
    unfold wantedOfAction
    dsimp only [display]
    split
    · rename_i hnone
      exact absurd hnone hne
    · rfl
  intro c hc
  obtain ⟨hin, hc⟩ := mem_filter.1 (hwanted ▸ hc)
  exact ⟨hx.1 c (mem_stripOf hin), hc⟩

theorem exists_pick_action (hx : IsActionName x) (hused : used.length < 26) :
    ∃ code ∈ capital.letters, capital.pick (wantedOfAction (.text x)) used = .ok code ∧ code ∉ used := by
  have hnodup : capital.letters.Nodup := by decide
  obtain ⟨code, hpick, hnew, hcode⟩ := Style.exists_pick hnodup (by exact hused) (wantedOfAction (.text x))
  refine ⟨code, ?_, hpick, hnew⟩
  rcases hcode with hcode | ⟨-, c, hc, rfl⟩
  · exact hcode
  · obtain ⟨hascii, hletter⟩ := mem_wantedOfAction hx c hc
    exact mem_letters_of_letter hascii hletter

/-- An action has the capital of its first letter whenever this is free, also if it is the letter of idling, which is
never among the letters of an agent. -/
theorem pick_first_letter (hx : IsActionName x) (hc : (wantedOfAction (.text x)).head? = some c)
    (hfree : upper (String.singleton c) ∉ used) :
    capital.pick (wantedOfAction (.text x)) used = .ok (upper (String.singleton c)) ∧
      ∀ moves k letters, Model.lettersOf moves k = .ok letters → "I" ∉ letters := by
  have hplain : ∀ code ∈ capital.letters, isPlain code = true := by decide
  refine ⟨?_, fun moves k letters h => ?_⟩
  · obtain ⟨hascii, hletter⟩ := mem_wantedOfAction hx c (mem_of_head? hc)
    obtain ⟨cs, hcs⟩ := head?_eq_some_iff.1 hc
    have hfirst : isPlain (capital.change (String.singleton c)) = true := hplain _ (mem_letters_of_letter hascii hletter)
    have hfree : capital.change (String.singleton c) ∉ used := hfree
    rw [Style.pick, hcs, map_cons, filter_cons_of_pos hfirst, cons_append, find?_cons_of_pos (by simpa using hfree)]
    rfl
  · obtain ⟨found, -, h⟩ := bind_eq_ok.1 h
    cases h
    simp

/-- Inspecting has the letter of idling, if it comes first; idling then has another one. -/
theorem pick_first_letter_inspect : capital.pick (wantedOfAction (.text "inspect")) [] = .ok "I" ∧
    codesOf ["robot"] (.dict [(.text "robot", .names ["inspect", "idle"])]) =
      .ok [("robot", [(.text "inspect", "I"), (.text "idle", "D")])] :=
  ⟨(pick_first_letter (c := 'i') (by decide) (by decide) not_mem_nil).1, by rfl⟩

/-! ## Tables -/

def lookup {κ ν : Type} [BEq κ] (t : List (κ × ν)) (k : κ) : Option ν := (t.find? (·.1 == k)).map (·.2)

theorem beq_text {s : String} (d : Datum) : (d == .text s) = true ↔ d = .text s := by
  cases d <;> simp [BEq.beq, equal]

theorem putEntry_text (codes : List (Datum × Datum)) (x : String) (v : Datum) :
    putEntry codes (.text x) v = if codes.any (·.1 == .text x) then
      codes.map fun e => if e.1 == .text x then (.text x, v) else e else codes ++ [(.text x, v)] := by
  have hentry : (fun e : Datum × Datum => if e.1 == .text x then (e.1, v) else e) =
      fun e => if e.1 == .text x then (.text x, v) else e := by
    funext e
    by_cases he : e.1 = .text x
    · rw [he]
    · rw [if_neg (mt (beq_text _).1 he), if_neg (mt (beq_text _).1 he)]
  rw [putEntry, hentry]

/-! ## Codes of one agent -/

/-- The actions that are named have codes of their own, which are capitals and used. -/
structure Coding (used : List String) (codes : List (Datum × Datum)) (named : List String) : Prop where
  found : ∀ x ∈ named, ∃ code ∈ capital.letters, lookup codes (.text x) = some (.text code)
  used : ∀ x code, lookup codes (.text x) = some (.text code) → code ∈ used
  apart : ∀ x y code, lookup codes (.text x) = some (.text code) → lookup codes (.text y) = some (.text code) → x = y

theorem Coding.put {codes : List (Datum × Datum)} {named : List String} (h : Coding used codes named) {code : String}
    (hcode : code ∈ capital.letters) (hnew : code ∉ used) (x : String) :
    Coding (code :: used) (putEntry codes (.text x) (.text code)) (x :: named) := by
  have hput : ∀ y, lookup (putEntry codes (.text x) (.text code)) (.text y) =
      if y = x then some (.text code) else lookup codes (.text y) := fun y => by
    rw [putEntry_text, lookup, find?_put beq_text beq_text]
    simp only [beq_text, Datum.text.injEq]
    rfl
  have hcases : ∀ y c, lookup (putEntry codes (.text x) (.text code)) (.text y) = some (.text c) →
      y = x ∧ c = code ∨ lookup codes (.text y) = some (.text c) := by
    intro y c hy
    rw [hput] at hy
    split at hy
    · cases hy
      exact .inl ⟨‹_›, rfl⟩
    · exact .inr hy
  refine ⟨fun y hy => ?_, fun y c hy => ?_, fun y z c hy hz => ?_⟩
  · rw [hput]
    split
    · exact ⟨code, hcode, rfl⟩
    · exact h.found y ((mem_cons.1 hy).resolve_left ‹_›)
  · rcases hcases y c hy with ⟨-, rfl⟩ | hy
    · exact mem_cons_self
    · exact mem_cons_of_mem _ (h.used y c hy)
  · rcases hcases y c hy with ⟨hyx, hyc⟩ | hy' <;> rcases hcases z c hz with ⟨hzx, hzc⟩ | hz'
    · rw [hyx, hzx]
    · exact absurd (h.used z c hz') (hyc ▸ hnew)
    · exact absurd (h.used y c hy') (hzc ▸ hnew)
    · exact h.apart y z c hy' hz'

theorem Coding.exists_codesFrom : ∀ {xs used named : List String} {codes : List (Datum × Datum)},
    Coding used codes named → used.length + xs.length ≤ 26 → (∀ x ∈ xs, IsActionName x) →
      ∃ codes' used', codesFrom used codes (xs.map .text) = .ok codes' ∧ Coding used' codes' (xs.reverse ++ named)
  | [], used, named, codes, h, _, _ => ⟨codes, used, rfl, h⟩
  | x :: xs, used, named, codes, h, hlen, hxs => by
    obtain ⟨hx, hxs⟩ := forall_mem_cons.1 hxs
    rw [length_cons] at hlen
    obtain ⟨code, hcode, hpick, hnew⟩ := exists_pick_action hx (by omega : used.length < 26)
    obtain ⟨codes', used', hrest, hcoding⟩ := (h.put hcode hnew x).exists_codesFrom (by simp; omega) hxs
    refine ⟨codes', used', ?_, by simpa using hcoding⟩
    rw [map_cons, codesFrom, hpick]
    exact hrest

/-! ## Codes of all agents -/

/-- Every action of an agent has a capital of its own. -/
structure Faithful (codes : Codes) (agents : List String) (actions : String → List String) : Prop where
  letter : ∀ a ∈ agents, ∀ x ∈ actions a, ∃ code ∈ capital.letters, codes.find? a (.text x) = some code
  apart : ∀ a ∈ agents, ∀ x ∈ actions a, ∀ y ∈ actions a, codes.find? a (.text x) = codes.find? a (.text y) → x = y

def merge (t : Codes) (e : String × List (Datum × String)) : Codes :=
  if t.any (·.1 == e.1) then t.map fun f => if f.1 == e.1 then e else f else t ++ [e]

theorem codesOf_eq (agents : List String) (actions : Datum) : codesOf agents actions = (agents.mapM fun a => do
      let codes ← codesFrom [] [] (← (← actions.part a).members)
      return (a, codes.map fun e => (e.1, e.2.display))) >>= fun found => .ok (found.foldl merge []) := rfl

theorem find?_eq_lookup {codes : Codes} {a : String} {cs : List (Datum × String)} (h : lookup codes a = some cs)
    (x : Datum) : codes.find? a x = lookup cs x := by
  obtain ⟨⟨b, cs⟩, hfind, rfl⟩ := Option.map_eq_some_iff.1 h
  unfold Codes.find? lookup
  rw [hfind]
  change ((cs.find? (·.1 == x)).bind fun e => some e.2) = (cs.find? (·.1 == x)).map (·.2)
  cases cs.find? (·.1 == x) <;> rfl

theorem lookup_foldl_merge (shown : String → List (Datum × String)) : ∀ (agents : List String) (t : Codes) {a : String},
    a ∈ agents ∨ lookup t a = some (shown a) →
      lookup ((agents.map fun a => (a, shown a)).foldl merge t) a = some (shown a)
  | [], t, a, h => h.resolve_left not_mem_nil
  | b :: agents, t, a, h => by
    have hput : lookup (merge t (b, shown b)) a = if a == b then some (shown b) else lookup t a :=
      find?_put (fun _ => beq_iff_eq) (fun _ => beq_iff_eq) t (shown b)
    refine lookup_foldl_merge shown agents (merge t (b, shown b)) ?_
    by_cases hab : a = b
    · exact .inr (by rw [hput, if_pos (beq_iff_eq.2 hab), hab])
    · rcases h with h | h
      · exact .inl ((mem_cons.1 h).resolve_left hab)
      · exact .inr (by rw [hput, if_neg (by simpa using hab), h])

theorem exists_codesOf {agents : List String} {actions : String → List String} {table : Datum}
    (htable : ∀ a ∈ agents, table.part a = .ok (.names (actions a)))
    (hfew : ∀ a ∈ agents, (actions a).length ≤ 26) (hnames : ∀ a ∈ agents, ∀ x ∈ actions a, IsActionName x) :
    ∃ codes, codesOf agents table = .ok codes ∧ Faithful codes agents actions := by
  have hcodes : ∀ a, ∃ codes, a ∈ agents → codesFrom [] [] ((actions a).map .text) = .ok codes ∧
      ∃ used, Coding used codes (actions a).reverse := by
    intro a
    by_cases ha : a ∈ agents
    · have hstart : Coding [] [] [] := ⟨by simp, by simp [lookup], by simp [lookup]⟩
      obtain ⟨codes, used, hok, hcoding⟩ := hstart.exists_codesFrom (by simpa using hfew a ha) (hnames a ha)
      exact ⟨codes, fun _ => ⟨hok, used, by simpa using hcoding⟩⟩
    · exact ⟨[], fun h => absurd h ha⟩
  choose codes hcodes using hcodes
  have hfound : ∀ a ∈ agents, ∀ x, Codes.find? ((agents.map fun a => (a, (codes a).map fun e => (e.1, e.2.display))).foldl
      merge []) a (.text x) = (lookup (codes a) (.text x)).map display := by
    intro a ha x
    rw [find?_eq_lookup (lookup_foldl_merge (fun a => (codes a).map fun e => (e.1, e.2.display)) agents [] (.inl ha))]
    unfold lookup
    rw [find?_map, Option.map_map, Option.map_map]
    rfl
  refine ⟨(agents.map fun a => (a, (codes a).map fun e => (e.1, e.2.display))).foldl merge [], ?_, ?_, ?_⟩
  · rw [codesOf_eq, mapM_eq_map (g := fun a => (a, (codes a).map fun e => (e.1, e.2.display)))]
    · rfl
    · intro a ha
      rw [htable a ha]
      change (codesFrom [] [] ((actions a).map .text) >>= _) = _
      rw [(hcodes a ha).1]
      rfl
  · intro a ha x hx
    obtain ⟨used, hcoding⟩ := (hcodes a ha).2
    obtain ⟨code, hcode, hlookup⟩ := hcoding.found x (mem_reverse.2 hx)
    exact ⟨code, hcode, by rw [hfound a ha, hlookup]; rfl⟩
  · intro a ha x hx y hy heq
    obtain ⟨used, hcoding⟩ := (hcodes a ha).2
    obtain ⟨c, -, hc⟩ := hcoding.found x (mem_reverse.2 hx)
    obtain ⟨d, -, hd⟩ := hcoding.found y (mem_reverse.2 hy)
    rw [hfound a ha, hfound a ha, hc, hd] at heq
    cases heq
    exact hcoding.apart x y c hc hd

end Arena.Scenario
