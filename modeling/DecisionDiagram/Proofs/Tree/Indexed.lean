import DecisionDiagram.Proofs.Tree.Build

/-!
# Shared construction repeats no node

With sharing, a construction looks a node up before it adds it, and enters every node that
it adds.  So no node stands twice in the table.  This holds of tables of any length: that an
id loses the high bits of a position does not matter, since the map is asked for nodes.
-/

namespace DecisionDiagram

namespace Pool

variable {p : Pool} {node : Node} {x : Variable} {low high : NodeId}

/-- No node stands twice in the table, and each is in the map. -/
structure Indexed (p : Pool) : Prop where
  /-- Nodes are shared. -/
  isSome_ids : p.ids.isSome
  /-- The nodes are different. -/
  nodup : p.nodes.toList.Nodup
  /-- A node of the table is found. -/
  isSome_find? : ∀ node ∈ p.nodes, (p.find? node).isSome

theorem indexed_start (n : UInt16) : (start n true).Indexed where
  isSome_ids := rfl
  nodup := by
    have hne : Node.zero n ≠ Node.one n := fun h => NodeId.one_ne_zero (congrArg Node.low h).symm
    simpa [start] using hne
  isSome_find? := by
    intro node hnode
    obtain ⟨i, hn⟩ := Array.mem_iff_getElem?.1 hnode
    have hi : i < 2 := (Array.getElem?_eq_some_iff.1 hn).1
    have hid : (NodeId.ofIndex i).toIndex = i := NodeId.toIndex_ofIndex (by omega)
    rw [(find?_start n).2 (hid.symm ▸ hn)]
    rfl

namespace Indexed

theorem log (hp : p.Indexed) (e : Event) : (p.log e).Indexed :=
  ⟨hp.isSome_ids, hp.nodup, hp.isSome_find?⟩

/-- A node that is not found may be added. -/
theorem push (hp : p.Indexed) (hnew : p.find? node = none) : (p.push node).2.Indexed where
  isSome_ids := by
    rw [isSome_ids_push]
    exact hp.isSome_ids
  nodup := by
    have hnotin : node ∉ p.nodes := by
      intro hnode
      have hsome := hp.isSome_find? node hnode
      rw [hnew] at hsome
      cases hsome
    rw [nodes_push, Array.toList_push, List.nodup_append]
    refine ⟨hp.nodup, by simp, ?_⟩
    intro a ha b hb heq
    rw [List.mem_singleton.1 hb] at heq
    exact hnotin (Array.mem_toList_iff.1 (heq ▸ ha))
  isSome_find? := by
    intro node' hnode'
    rw [find?_push hp.isSome_ids]
    split
    · rfl
    · rename_i hne
      rw [nodes_push, Array.mem_push] at hnode'
      exact hp.isSome_find? node' (hnode'.resolve_right (Ne.symm hne))

theorem intern (hp : p.Indexed) (x : Variable) (low high : NodeId) :
    (p.intern x low high).2.Indexed := by
  rcases p.intern_cases x low high with ⟨-, h⟩ | ⟨-, id, -, h⟩ | ⟨-, hnew, h⟩ <;> rw [h]
  · exact hp.log _
  · exact hp.log _
  · exact hp.push hnew

end Indexed

end Pool

/-- Building a tree repeats no node. -/
theorem Tree.indexed_build {p : Pool} (t : Tree) (hp : p.Indexed) : (t.build p).2.Indexed := by
  induction t generalizing p with
  | leaf value => exact hp
  | branch x high low ihHigh ihLow =>
    rw [build_branch]
    exact (ihLow (ihHigh hp)).intern x _ _

end DecisionDiagram
