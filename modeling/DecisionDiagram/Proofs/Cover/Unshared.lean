import DecisionDiagram.Proofs.Cover.Structure
import DecisionDiagram.Proofs.Tree.Unshared

/-!
# Compiling without sharing

Without sharing a compiled table is a tree: no node stands in the place of another.
-/

namespace DecisionDiagram

namespace Cover

open Diagram

variable {c : Cover}

/-- Without sharing, each decision node of a compiled table is once among the root and the
links. -/
theorem count_links_diagram (hs : c.sharing = false) (hsize : c.diagram.size ≤ 4294967296)
    {id : NodeId} (h2 : 2 ≤ id.toIndex) :
    (c.diagram.root :: c.diagram.links).count id =
      if id.toIndex < c.diagram.size then 1 else 0 := by
  have hids := Pool.ids_start_eq_none hs c.order.numVars
  obtain ⟨added, hnodes, hcount⟩ := c.tree.owns_build hids (c.size_build_tree ▸ hsize)
  have hlinks : c.diagram.links = linksOf added := by
    rw [← expansion_eq_build] at hnodes
    rw [links, diagram, hnodes]
    rfl
  have h := hcount id h2
  rw [size_build_tree, ← expansion_eq_build, Pool.size_start] at h
  simp only [h2, true_and] at h
  rw [hlinks]
  exact h

theorem treelike_diagram (hs : c.sharing = false) (hsize : c.diagram.size ≤ 4294967296) :
    c.diagram.Treelike := by
  have hd := c.valid_diagram hsize
  constructor
  · rcases c.diagram.root.ofBool_or_two_le with ⟨b, hroot⟩ | h2
    · -- A terminal is delivered only if the table has no decision nodes.
      have htwo : c.diagram.size = 2 := by
        rcases root_diagram hsize with hlast | ⟨-, htwo⟩
        · have := hd.size_pos
          have := hroot ▸ NodeId.not_two_le_ofBool b
          omega
        · exact htwo
      have hnil : c.diagram.nodes.toList.drop 2 = [] := by
        rw [List.drop_eq_nil_iff, Array.length_toList]
        exact Nat.le_of_eq htwo
      rw [links, hnil]
      exact List.not_mem_nil
    · have hone := count_links_diagram hs hsize h2
      rw [List.count_cons_self, if_pos hd.root_lt] at hone
      exact List.count_eq_zero.1 (Nat.succ.inj hone)
  · intro id hid hne
    obtain ⟨h2, hlt⟩ := hd.mem_decisionIds_iff.1 hid
    have hone := count_links_diagram hs hsize h2
    rwa [List.count_cons_of_ne hne.symm, if_pos hlt] at hone

/-- Compiled without sharing, a table is a tree.  The root is no link of a decision node, and
of no node at all if it is a decision node itself.  Every other decision node is exactly one
of all the low and high links of the decision nodes.  So from the root there is exactly one
way to arrive at a decision node, and different branches have no decision node in common. -/
theorem compile_treelike (c : Cover) (hs : c.sharing = false) :
    ∃ d, c.compile = .ok d ∧ (d.size ≤ 4294967296 →
      d.root ∉ d.links ∧
      (2 ≤ d.root.toIndex → ∀ node ∈ d.nodes, ∀ b, node.child b ≠ d.root) ∧
      (∀ id ∈ d.decisionIds, id ≠ d.root → d.links.count id = 1) ∧
      (∀ id ∈ d.decisionIds, ∃! taken, d.Arrives taken id) ∧
      ∀ taken taken' id id', d.Arrives taken id → d.Arrives taken' id' →
        ¬taken <+: taken' → ¬taken' <+: taken →
        ∀ common, d.Reaches id common → d.Reaches id' common → common.isTerminal) := by
  refine ⟨c.diagram, c.compile_eq, ?_⟩
  intro hsize
  have hd := c.valid_diagram hsize
  have htree := treelike_diagram hs hsize
  refine ⟨htree.root_not_mem, ?_, htree.count_eq_one, ?_, ?_⟩
  · intro h2 node hnode b
    obtain ⟨i, hi, rfl⟩ := Array.getElem_of_mem hnode
    have hn := hd.getElem?_ofIndex hi
    rcases (NodeId.ofIndex i).ofBool_or_two_le with ⟨value, hid⟩ | h2i
    · rw [hid] at hn
      intro heq
      rw [← heq, hd.child_ofBool hn b] at h2
      exact NodeId.not_two_le_ofBool value h2
    · exact htree.child_ne_root h2i hn b
  · intro id hid
    have h2 := (hd.mem_decisionIds_iff.1 hid).1
    obtain ⟨taken, htaken⟩ := Arrives.root.extend hd (reaches_diagram hsize hid) h2
    exact ⟨_, htaken, fun taken' htaken' => htree.arrives_unique hd htaken' htaken h2⟩
  · intro taken taken' id id' hid hid' hpre hpre' common hreach hreach'
    exact htree.isTerminal_of_reaches hd hid hid' hpre hpre' hreach hreach'

theorem compile_treelike_sample :
    ∃ d, (sample false).compile = .ok d ∧ d.root = .ofIndex 3 ∧ d.root ∉ d.links ∧
      .ofIndex 2 ∈ d.decisionIds ∧ d.links.count (.ofIndex 2) = 1 := by
  obtain ⟨d, hd, h⟩ := compile_treelike (sample false) rfl
  obtain ⟨hroot, -, hone, -⟩ := h (Nat.le_trans (size_compile_le hd) (by decide))
  obtain rfl : d = (sample false).diagram := Except.ok.inj (hd.symm.trans (compile_eq _))
  have hlast : (sample false).diagram.root = .ofIndex 3 := rfl
  have hmem : .ofIndex 2 ∈ (sample false).diagram.decisionIds := by decide
  exact ⟨_, hd, hlast, hroot, hmem, hone _ hmem (by decide)⟩

end Cover

end DecisionDiagram
