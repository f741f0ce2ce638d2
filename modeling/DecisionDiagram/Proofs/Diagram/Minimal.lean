import DecisionDiagram.Proofs.Diagram.Grounded
import DecisionDiagram.Proofs.Diagram.Separation
import DecisionDiagram.Proofs.Tree.Reach
import Mathlib.Data.Fintype.EquivFin

/-!
# The smallest diagram of a function

A diagram is compact if no node stands twice in its table and every decision node can be
reached from the root.  The function of any node below the root is a cofactor of the
root's, and each cofactor is found in every diagram of the same function, possibly below
nodes that make no difference.  In a compact diagram the functions of the nodes are all
different, so that each needs a place of its own in the other table.  If there is none
left over, then the other table is compact too.
-/

namespace DecisionDiagram

theorem NodeId.exists_eq_ofBool {id : NodeId} (h : id.toIndex < 2) : ∃ b, id = .ofBool b :=
  id.ofBool_or_two_le.resolve_right (Nat.not_le_of_lt h)

namespace Diagram

open Function

variable {d d' : Diagram} {σ τ : Point} {id id' : NodeId} {node node' : Node} {x : Variable}
  {b : Bool}

/-! ### Positions and ids -/

namespace Valid

theorem ofFin_lt (hd : d.Valid) (i : Fin d.size) : (NodeId.ofIndex i).toIndex < d.size :=
  (hd.toIndex_ofIndex i.isLt).symm ▸ i.isLt

theorem getElem?_ofFin (hd : d.Valid) (i : Fin d.size) :
    d.nodes[(NodeId.ofIndex i).toIndex]? = some (d.nodes.toList.get i) :=
  hd.getElem?_ofIndex i.isLt

theorem ofFin_inj (hd : d.Valid) {i j : Fin d.size} (h : NodeId.ofIndex i = NodeId.ofIndex j) :
    i = j := by
  have hidx := congrArg NodeId.toIndex h
  rw [hd.toIndex_ofIndex i.isLt, hd.toIndex_ofIndex j.isLt] at hidx
  exact Fin.ext hidx

end Valid

/-! ### Compact diagrams -/

/-- No node stands twice in the table, and every decision node can be reached from the
root. -/
structure Compact (d : Diagram) : Prop where
  /-- The nodes are different. -/
  nodup : d.nodes.toList.Nodup
  /-- The positions after the terminals have ids that can be reached. -/
  reached : ∀ i, 2 ≤ i → i < d.size → ∃ id : NodeId, id.toIndex = i ∧ d.Reaches d.root id

/-- The nodes of a compact diagram can all be told apart by their ids. -/
theorem Compact.size_le (h : d.Compact) : d.size ≤ 4294967296 := by
  refine Nat.le_of_not_lt fun hbig => ?_
  obtain ⟨id, hid, -⟩ := h.reached 4294967296 (by decide) hbig
  exact Nat.ne_of_lt id.toIndex_lt hid

theorem Compact.distinct (h : d.Compact) : d.Distinct := distinct_of_nodup h.nodup

namespace Valid

/-! ### Terminals -/

/-- Nodes that are equal have equal functions. -/
theorem valueAt_eq_of_node (hd : d.Valid) (hn : d.nodes[id.toIndex]? = some node)
    (hn' : d.nodes[id'.toIndex]? = some node) : d.valueAt σ id = d.valueAt σ id' := by
  have hstep : ∀ {id : NodeId}, d.nodes[id.toIndex]? = some node →
      d.valueAt σ id = d.valueAt σ (node.child (σ node.var)) := by
    intro id hn
    rcases id.ofBool_or_two_le with ⟨c, rfl⟩ | h2
    · rw [hd.child_ofBool hn]
    · exact hd.valueAt_node h2 hn
  rw [hstep hn, hstep hn']

/-! ### Cofactors -/

/-- A node that does not depend on the variables before `x` has its cofactors for `x`
among the nodes that can be reached from it. -/
theorem exists_cofactor (hd : d.Valid) (hid : id.toIndex < d.size)
    (h : ∀ y < x, d.Ignores y id) (b : Bool) :
    ∃ id', d.Reaches id id' ∧ id'.toIndex < d.size ∧
      ∀ σ, d.valueAt σ id' = d.valueAt (update σ x b) id := by
  induction id, hid using hd.induct with
  | terminal c hc =>
    exact ⟨.ofBool c, .refl, hc, fun σ => by rw [valueAt_ofBool, valueAt_ofBool]⟩
  | decision id node hid h2 hn ih =>
    rcases Nat.lt_trichotomy node.var.toIndex x.toIndex with hlt | heq | hgt
    · -- The node makes no difference, so its low side will do as well.
      have hsame : ∀ σ, d.valueAt σ node.low = d.valueAt σ id :=
        fun σ => (hd.valueAt_child h2 hn false).trans (h _ (Variable.lt_iff.2 hlt) σ false)
      have hlow := hd.child_lt_size h2 hn false
      obtain ⟨id', hreach, hid', hval⟩ := ih false hlow fun y hy σ c => by
        rw [Node.child_false, hsame, hsame, h y hy]
      refine ⟨id', .head ⟨node, false, hn, rfl⟩ hreach, hid', fun σ => ?_⟩
      rw [hval, Node.child_false, hsame]
    · obtain rfl := Variable.toIndex_inj.1 heq
      exact ⟨node.child b, .single ⟨node, b, hn, rfl⟩, hd.child_lt_size h2 hn b,
        fun σ => hd.valueAt_child h2 hn b⟩
    · refine ⟨id, .refl, hid, fun σ => ?_⟩
      rw [hd.ignores_of_lt hn (Variable.lt_iff.2 hgt)]

/-- The functions of the nodes below the root are found in every diagram of the same
function. -/
theorem exists_sameFunction (hd : d.Valid) (hd' : d'.Valid)
    (hroot : ∀ σ, d'.valueAt σ d'.root = d.valueAt σ d.root) (h : d.Reaches d.root id) :
    ∃ id', d'.Reaches d'.root id' ∧ id'.toIndex < d'.size ∧
      ∀ σ, d'.valueAt σ id' = d.valueAt σ id := by
  induction h with
  | refl => exact ⟨d'.root, .refl, hd'.root_lt, hroot⟩
  | @tail id child _ hlink ih =>
    obtain ⟨node, b, hn, rfl⟩ := hlink
    obtain ⟨id', hreach, hid', hval⟩ := ih
    rcases id.ofBool_or_two_le with ⟨c, rfl⟩ | h2
    · rw [hd.child_ofBool hn]
      exact ⟨id', hreach, hid', hval⟩
    · have hignores : ∀ y < node.var, d'.Ignores y id' := by
        intro y hy σ c
        rw [hval, hval, hd.ignores_of_lt hn hy]
      obtain ⟨child, hchild, hlt, hcof⟩ := hd'.exists_cofactor hid' hignores b
      refine ⟨child, hreach.trans hchild, hlt, fun σ => ?_⟩
      rw [hcof, hval, hd.valueAt_child h2 hn]

/-! ### Matching two tables -/

/-- Every node of a compact diagram has a partner with the same function in any other
diagram of the same function, and decision nodes have one that can be reached. -/
theorem exists_partner (hd : d.Valid) (hc : d.Compact) (hd' : d'.Valid)
    (hroot : ∀ σ, d'.valueAt σ d'.root = d.valueAt σ d.root) (i : Fin d.size) :
    ∃ j : Fin d'.size, (∀ σ, d'.valueAt σ (.ofIndex j) = d.valueAt σ (.ofIndex i)) ∧
      (2 ≤ i.val → d'.Reaches d'.root (.ofIndex j)) := by
  by_cases h2 : 2 ≤ i.val
  · obtain ⟨id, hidx, hreach⟩ := hc.reached i h2 i.isLt
    obtain ⟨id', hreach', hlt, hval⟩ := hd.exists_sameFunction hd' hroot hreach
    refine ⟨⟨id'.toIndex, hlt⟩, ?_, ?_⟩
    · intro σ
      rw [NodeId.ofIndex_toIndex, hval, ← hidx, NodeId.ofIndex_toIndex]
    · intro _
      rwa [NodeId.ofIndex_toIndex]
  · have hlt : (NodeId.ofIndex i).toIndex < 2 := by
      rw [hd.toIndex_ofIndex i.isLt]
      exact Nat.lt_of_not_le h2
    obtain ⟨b, hb⟩ := NodeId.exists_eq_ofBool hlt
    refine ⟨⟨(NodeId.ofBool b).toIndex, hd'.ofBool_lt b⟩, ?_, fun h => absurd h h2⟩
    intro σ
    rw [NodeId.ofIndex_toIndex, hb, valueAt_ofBool, valueAt_ofBool]

/-- No diagram of the same function is smaller than a compact one, and one of the same
size is compact itself. -/
theorem size_le_of_compact (hd : d.Valid) (hc : d.Compact) (hd' : d'.Valid)
    (hroot : ∀ σ, d'.valueAt σ d'.root = d.valueAt σ d.root) :
    d.size ≤ d'.size ∧ (d.size = d'.size → d'.Compact) := by
  choose partner hval hreach using hd.exists_partner hc hd' hroot
  have hsame : ∀ i j, (∀ σ, d'.valueAt σ (.ofIndex (partner i)) =
      d'.valueAt σ (.ofIndex (partner j))) → i = j := by
    intro i j h
    refine hd.ofFin_inj (hd.eq_of_valueAt_eq hc.distinct (hd.ofFin_lt i) (hd.ofFin_lt j) ?_)
    intro σ
    rw [← hval, ← hval, h]
  have hinj : Injective partner := fun i j h => hsame i j fun σ => by rw [h]
  refine ⟨by simpa using Fintype.card_le_of_injective partner hinj, fun hsize => ?_⟩
  -- With equally many positions, every node is the partner of some node.
  have hsurj : Surjective partner :=
    ((Fintype.bijective_iff_injective_and_card partner).2 ⟨hinj, by simpa using hsize⟩).2
  constructor
  · rw [List.nodup_iff_injective_get]
    intro i' j' hnode
    obtain ⟨i, rfl⟩ := hsurj i'
    obtain ⟨j, rfl⟩ := hsurj j'
    rw [hsame i j fun σ =>
      hd'.valueAt_eq_of_node (hd'.getElem?_ofFin _) (hnode ▸ hd'.getElem?_ofFin _)]
  · intro i' h2 hlt
    obtain ⟨i, hi⟩ := hsurj ⟨i', hlt⟩
    have hidx : (NodeId.ofIndex (partner i)).toIndex = i' :=
      (hd'.toIndex_ofIndex (partner i).isLt).trans (congrArg Fin.val hi)
    refine ⟨.ofIndex (partner i), hidx, hreach i ?_⟩
    -- The partner of a terminal would be a terminal.
    refine Nat.le_of_not_lt fun hi2 => ?_
    obtain ⟨b, hb⟩ := NodeId.exists_eq_ofBool ((hd.toIndex_ofIndex i.isLt).symm ▸ hi2)
    have hconst : ∀ σ, d'.valueAt σ (.ofIndex (partner i)) = b := by
      intro σ
      rw [hval, hb, valueAt_ofBool]
    have hleaf := hd'.eq_ofBool (hd'.ofFin_lt _) hconst
    rw [← hidx, hleaf] at h2
    exact NodeId.not_two_le_ofBool b h2

end Valid

/-- No diagram that represents the function of a compact one has a smaller table, and the
tables of the same size are the compact ones. -/
theorem Compact.minimal (hc : d.Compact) (hd : d.Valid) (hd' : d'.Grounded)
    (hroot : ∀ σ, d'.valueAt σ d'.root = d.valueAt σ d.root) :
    d.size ≤ d'.size ∧ (d.size = d'.size ↔ d'.Compact) := by
  by_cases hsize : d'.size ≤ 4294967296
  · have hvalid := hd'.valid hsize
    obtain ⟨hle, hcompact⟩ := hd.size_le_of_compact hc hvalid hroot
    refine ⟨hle, hcompact, fun hc' => Nat.le_antisymm hle ?_⟩
    exact (hvalid.size_le_of_compact hc' hd fun σ => (hroot σ).symm).1
  · -- A table that is longer than ids can tell is not compact.
    have hlt : d.size < d'.size := Nat.lt_of_le_of_lt hd.size_le (Nat.lt_of_not_le hsize)
    refine ⟨Nat.le_of_lt hlt, fun heq => absurd heq (Nat.ne_of_lt hlt), fun hc' => ?_⟩
    exact absurd hc'.size_le hsize

end Diagram

end DecisionDiagram
