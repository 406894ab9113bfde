/-
When a rule with recall is admitted: the agent can play its action at the root, if the condition holds there. The nodes
below are visited, but what is found there does not count.
-/
import Arena.Proofs.Natural.RecallLetters

namespace Arena.Natural

open List

namespace Unfolding

variable {index : Int} {t : Unfolding}

/-- A tree with one joint action for each child, in all of which the agent has a letter. -/
def Lettered (index : Int) (t : Unfolding) : Prop :=
  ∀ x ∈ t.nodes, x.moves.length = x.children.length ∧ ∀ move ∈ x.moves, ∃ c, letterAt move (index - 1) = .ok c

theorem Lettered.child (h : Lettered index t) {c : Unfolding} (hc : c ∈ t.children) : Lettered index c :=
  fun x hx => h x (mem_nodes.2 (.inr ⟨c, hc, hx⟩))

/-- The agent can play the action at a node, if the node has one of the states. -/
def Enabled (states : Names) (index : Int) (action : String) (x : Unfolding) : Prop :=
  x.state ∈ states → ∃ move ∈ x.moves, letterAt move (index - 1) = .ok action

theorem exists_playedIn (action : String) : ∀ {ts : List Unfolding} {moves : List Move}, moves.length = ts.length →
    (∀ move ∈ moves, ∃ c, letterAt move (index - 1) = .ok c) →
    ∃ b, playedIn index action ts moves = .ok b ∧ (b = true ↔ ∃ move ∈ moves, letterAt move (index - 1) = .ok action)
  | [], [], _, _ => ⟨false, by rw [playedIn]; simp, by simp⟩
  | t :: ts, move :: moves, hlen, h => by
    obtain ⟨⟨c, hc⟩, hmoves⟩ := forall_mem_cons.1 h
    rw [playedIn, hc]
    by_cases hplayed : c = action
    · exact ⟨true, by simp [bind, Except.bind, pure, Except.pure, hplayed], by simp [hc, hplayed]⟩
    · obtain ⟨b, hb, hiff⟩ := exists_playedIn action (Nat.succ.inj hlen) hmoves
      exact ⟨b, by simp [bind, Except.bind, hplayed, hb], by simp [hiff, hc, hplayed]⟩

theorem exists_admits (states : Names) (action : String) {t : Unfolding} (h : Lettered index t) :
    ∃ b, t.admits states index action = .ok b ∧ (b = true ↔ Enabled states index action t) := by
  have hvisit : ∀ ts : List Unfolding, (∀ c ∈ ts, ∃ b, c.admits states index action = .ok b) →
      visit states index action ts = .ok true := by
    intro ts
    induction ts with
    | nil => exact fun _ => by rw [visit]
    | cons c ts ih =>
      intro hts
      obtain ⟨⟨b, hb⟩, hts⟩ := forall_mem_cons.1 hts
      rw [visit, hb]
      cases b <;> simp [bind, Except.bind, ih hts, pure, Except.pure]
  have hbelow := hvisit t.children fun c hc =>
    have ⟨b, hb, _⟩ := exists_admits states action (h.child hc)
    ⟨b, hb⟩
  obtain ⟨hlen, hmoves⟩ := h t (mem_nodes_self t)
  obtain ⟨b, hb, hiff⟩ := exists_playedIn action hlen hmoves
  obtain ⟨q, old, by_, before, l, pruned, children, moves⟩ := t
  change playedIn index action children moves = .ok b at hb
  change visit states index action children = .ok true at hbelow
  rw [admits]
  by_cases hq : q ∈ states
  · refine ⟨b, ?_, hiff.trans ⟨fun h _ => h, fun h => h hq⟩⟩
    cases b <;> simp [hq, bind, Except.bind, hb, hbelow, pure, Except.pure]
  · refine ⟨true, ?_, iff_of_true rfl fun h => absurd h hq⟩
    simpa [hq, bind, Except.bind] using hbelow
termination_by sizeOf t
decreasing_by exact sizeOf_child hc

end Unfolding

namespace Recall

open Unfolding Step

section Rules

variable {set : Setting} {m : Model} (hload : Model.load .plain set.source = .ok m) {s : Scene}

include hload

/-- A condition that is checked in the model is admitted just if the agent can play the action at the root, when the root
has one of the states where it holds. -/
theorem isLegitimate_iff_root {condition : String} (hstory : Story.isStory condition = false) {states : Names}
    (hwhere : ∀ s, (statesWhere set condition).run.run s = (.ok states, { s with model := m })) {index : Int}
    (htree : s.tree.Lettered index) (action : String) :
    ∃ b, (isLegitimate set condition action index).run.run s = (.ok b, { s with model := m }) ∧
      (b = true ↔ s.tree.Enabled states index action) := by
  obtain ⟨b, hb, hiff⟩ := exists_admits states action htree
  rw [run_isLegitimate hload hstory hwhere]
  cases states with
  | nil => exact ⟨true, rfl, iff_of_true rfl fun h => absurd h not_mem_nil⟩
  | cons q states => exact ⟨b, by rw [isEmpty_cons, if_neg Bool.false_ne_true, hb], hiff⟩

end Rules

/-- The second agent of the gate can play its action at the root. -/
theorem isLegitimate_iff_root_gate : (stalk "IB").Lettered 2 ∧
    ∃ b, (isLegitimate gateSetting "p" "B" 2).run.run ⟨gate, stalk "IB"⟩ = (.ok b, ⟨gate, stalk "IB"⟩) ∧
      (b = true ↔ (stalk "IB").Enabled ["s0"] 2 "B") := by
  have htree : (stalk "IB").Lettered 2 := by
    intro x hx
    simp only [stalk, leaf, nodes, nodesAll, append_nil, mem_cons, not_mem_nil, or_false] at hx
    rcases hx with rfl | rfl
    · exact ⟨rfl, fun move hmove => ⟨"B", mem_singleton.1 hmove ▸ by decide⟩⟩
    · exact ⟨rfl, fun move hmove => absurd hmove not_mem_nil⟩
  exact ⟨htree, isLegitimate_iff_root gate_load (by decide) run_statesWhere_gate (s := ⟨gate, stalk "IB"⟩) htree "B"⟩

/-- Below the root the action cannot be played where the condition holds, and yet the rule is admitted. -/
theorem isLegitimate_below_gate : ∃ t : Unfolding,
    (isLegitimate gateSetting "p" "B" 2).run.run ⟨gate, t⟩ = (.ok true, ⟨gate, t⟩) ∧
      ∃ x ∈ t.nodes, x.children ≠ [] ∧ ¬ x.Enabled ["s0"] 2 "B" := by
  refine ⟨.node "s0" "s0" none [] none false [stalk "II"] ["IB"], ?_, stalk "II", ?_, cons_ne_nil _ _, ?_⟩
  · rw [run_isLegitimate gate_load (by decide) run_statesWhere_gate]
    exact congrArg₂ Prod.mk (by decide) rfl
  · exact mem_nodes.2 (.inr ⟨_, mem_cons_self, mem_nodes_self _⟩)
  · intro h
    obtain ⟨move, hmove, hletter⟩ := h mem_cons_self
    obtain rfl := mem_singleton.1 hmove
    exact absurd (congrArg Except.toOption hletter) (by decide)

end Recall

end Arena.Natural
