import DecisionDiagram.Proofs.Diagram.Branches
import Mathlib.Tactic.ByContra
import Mathlib.Tactic.SplitIfs

/-!
# Building without sharing

Without sharing each request for a node either makes a new one or hands on what both sides
are, and the two sides of a decision are different as soon as one of them was made for it:
what was made for the one side cannot be what was made for the other.  So whatever is made
while a tree is built is linked exactly once, with the id that is delivered counted as a link.
-/

namespace DecisionDiagram

namespace Pool

variable {p q r : Pool} {x : Variable} {low high id : NodeId}

/-- A part of a construction has added nodes to a pool and delivered an id, such that each
id of the new nodes is once among their links and the id delivered, and no other decision
node is. -/
def Owns (p : Pool) (id : NodeId) (q : Pool) : Prop :=
  ∃ added : List Node, q.nodes.toList = p.nodes.toList ++ added ∧
    ∀ j : NodeId, 2 ≤ j.toIndex →
      (id :: linksOf added).count j =
        if p.nodes.size ≤ j.toIndex ∧ j.toIndex < q.nodes.size then 1 else 0

theorem owns_ofBool (p : Pool) (b : Bool) : p.Owns (.ofBool b) p := by
  refine ⟨[], (List.append_nil _).symm, ?_⟩
  intro j h2
  have hne : NodeId.ofBool b ≠ j := by
    rintro rfl
    exact NodeId.not_two_le_ofBool b h2
  rw [List.count_cons_of_ne hne, if_neg (by omega)]
  rfl

/-- What is delivered is a terminal or one of the new nodes. -/
theorem Owns.mem_range (h : p.Owns id q) (h2 : 2 ≤ id.toIndex) :
    p.nodes.size ≤ id.toIndex ∧ id.toIndex < q.nodes.size := by
  obtain ⟨added, -, hcount⟩ := h
  by_contra hout
  have hzero := hcount id h2
  rw [if_neg hout, List.count_cons_self] at hzero
  exact Nat.succ_ne_zero _ hzero

/-- A request for a node owns what was made for its two sides. -/
theorem Owns.intern (hhigh : p.Owns high q) (hlow : q.Owns low r) (hids : r.ids = none)
    (hsize : (r.intern x low high).2.nodes.size ≤ 4294967296) :
    p.Owns (r.intern x low high).1 (r.intern x low high).2 := by
  have hrangeHigh := hhigh.mem_range
  have hrangeLow := hlow.mem_range
  obtain ⟨highs, hq, hhigh⟩ := hhigh
  obtain ⟨lows, hr, hlow⟩ := hlow
  have hsizeq : q.nodes.size = p.nodes.size + highs.length := by
    simpa using congrArg List.length hq
  have hsizer : r.nodes.size = q.nodes.size + lows.length := by
    simpa using congrArg List.length hr
  rw [hq, List.append_assoc] at hr
  rcases r.intern_cases x low high with ⟨heq, h⟩ | ⟨-, id, hf, -⟩ | ⟨-, -, h⟩
  · -- Both sides are the same terminal, since nothing is new on both sides.
    subst heq
    rw [h]
    refine ⟨highs ++ lows, hr, ?_⟩
    intro j h2
    have hne : low ≠ j := by
      rintro rfl
      have := hrangeHigh h2
      have := hrangeLow h2
      omega
    have hj := hhigh j h2
    have hj' := hlow j h2
    rw [List.count_cons_of_ne hne] at hj hj' ⊢
    rw [linksOf_append, List.count_append, hj, hj', nodes_log]
    split_ifs <;> omega
  · rw [find?_eq_none_of_ids hids] at hf
    cases hf
  · rw [h] at hsize ⊢
    rw [nodes_push, Array.size_push] at hsize
    refine ⟨highs ++ lows ++ [⟨x, low, high⟩], ?_, ?_⟩
    · rw [nodes_push, Array.toList_push, hr]
      simp
    intro j h2
    have hj := hhigh j h2
    have hj' := hlow j h2
    have hnew : NodeId.ofIndex r.nodes.size = j ↔ j.toIndex = r.nodes.size := by
      rw [← NodeId.toIndex_inj, NodeId.toIndex_ofIndex (by omega), eq_comm]
    simp only [fst_push, nodes_push, Array.size_push, linksOf_append, linksOf_singleton,
      List.count_cons, List.count_append, List.count_nil, beq_iff_eq, hnew] at hj hj' ⊢
    split_ifs at hj hj' ⊢ <;> omega

end Pool

namespace Tree

/-- Without sharing, building a tree owns whatever it adds. -/
theorem owns_build (t : Tree) {p : Pool} (hids : p.ids = none)
    (hsize : (t.build p).2.nodes.size ≤ 4294967296) : p.Owns (t.build p).1 (t.build p).2 := by
  induction t generalizing p with
  | leaf value => exact p.owns_ofBool value
  | branch x high low ihHigh ihLow =>
    obtain ⟨hsHigh, hsLow⟩ := size_build_branch hsize
    have hidsHigh := high.ids_build_eq_none hids
    rw [build_branch] at hsize ⊢
    exact (ihHigh hids hsHigh).intern (ihLow hidsHigh hsLow) (low.ids_build_eq_none hidsHigh) hsize

end Tree

end DecisionDiagram
