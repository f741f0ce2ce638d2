import DecisionDiagram.Proofs.Diagram.Check
import DecisionDiagram.Proofs.Diagram.Routes
import DecisionDiagram.Proofs.Tree.Reach
import Mathlib.Tactic.ByContra

/-!
# Tables that are trees

A table is a tree if its root is nobody's child and every other decision node is the child of
one node on one side.  Then there is one way only to arrive at a decision node from the root,
and the sub-diagrams of different branches have no decision node in common, even if they are
equal as trees.
-/

namespace DecisionDiagram

/-- The links of some nodes. -/
def linksOf (nodes : List Node) : List NodeId := nodes.flatMap fun node => [node.low, node.high]

@[simp] theorem linksOf_append (nodes nodes' : List Node) :
    linksOf (nodes ++ nodes') = linksOf nodes ++ linksOf nodes' := List.flatMap_append

@[simp] theorem linksOf_singleton (node : Node) : linksOf [node] = [node.low, node.high] := rfl

theorem child_mem_linksOf {nodes : List Node} {node : Node} (h : node ∈ nodes) (b : Bool) :
    node.child b ∈ linksOf nodes := by
  refine List.mem_flatMap.2 ⟨node, h, ?_⟩
  cases b <;> simp

/-- What is a link of two positions counts twice. -/
theorem two_le_count_linksOf {nodes : List Node} {i i' : Nat} {node node' : Node} {b b' : Bool}
    {id : NodeId} (hlt : i < i') (hn : nodes[i]? = some node) (hn' : nodes[i']? = some node')
    (hid : node.child b = id) (hid' : node'.child b' = id) : 2 ≤ (linksOf nodes).count id := by
  have hfront : id ∈ linksOf (nodes.take i') := by
    rw [← hid]
    refine child_mem_linksOf (List.mem_of_getElem? (i := i) ?_) b
    rw [List.getElem?_take_of_lt hlt, hn]
  have hback : id ∈ linksOf (nodes.drop i') := by
    rw [← hid']
    refine child_mem_linksOf (List.mem_of_getElem? (i := 0) ?_) b'
    rw [List.getElem?_drop, Nat.add_zero, hn']
  have hfrontCount := List.count_pos_iff.2 hfront
  have hbackCount := List.count_pos_iff.2 hback
  rw [← List.take_append_drop i' nodes, linksOf_append, List.count_append]
  omega

namespace Diagram

variable {d : Diagram} {id id' top top' : NodeId} {node node' : Node} {b b' : Bool}
  {taken taken' : Route}

/-- The low and high links of all decision nodes. -/
def links (d : Diagram) : List NodeId := linksOf (d.nodes.toList.drop 2)

theorem getElem?_drop_two (h2 : 2 ≤ id.toIndex) :
    (d.nodes.toList.drop 2)[id.toIndex - 2]? = d.nodes[id.toIndex]? := by
  rw [List.getElem?_drop, Nat.add_sub_cancel' h2, Array.getElem?_toList]

theorem child_mem_links (h2 : 2 ≤ id.toIndex) (hn : d.nodes[id.toIndex]? = some node) (b : Bool) :
    node.child b ∈ d.links :=
  child_mem_linksOf (List.mem_of_getElem? ((getElem?_drop_two h2).trans hn)) b

/-- The root is no link of a decision node, and every other decision node is one link. -/
structure Treelike (d : Diagram) : Prop where
  /-- The root is no link. -/
  root_not_mem : d.root ∉ d.links
  /-- Every other decision node is one link. -/
  count_eq_one : ∀ id ∈ d.decisionIds, id ≠ d.root → d.links.count id = 1

theorem Treelike.child_ne_root (h : d.Treelike) (h2 : 2 ≤ id.toIndex)
    (hn : d.nodes[id.toIndex]? = some node) (b : Bool) : node.child b ≠ d.root := by
  intro heq
  exact h.root_not_mem (heq ▸ child_mem_links h2 hn b)

theorem Valid.mem_decisionIds_iff (hd : d.Valid) :
    id ∈ d.decisionIds ↔ 2 ≤ id.toIndex ∧ id.toIndex < d.size := by
  rw [mem_decisionIds]
  constructor
  · rintro ⟨i, h2, hi, rfl⟩
    rw [hd.toIndex_ofIndex hi]
    exact ⟨h2, hi⟩
  · rintro ⟨h2, hi⟩
    exact ⟨id.toIndex, h2, hi, id.ofIndex_toIndex⟩

/-- In a tree a decision node is the child of one node on one side. -/
theorem Treelike.parent_unique (h : d.Treelike) (hd : d.Valid) (h2 : 2 ≤ id.toIndex)
    (hn : d.nodes[id.toIndex]? = some node) (h2' : 2 ≤ id'.toIndex)
    (hn' : d.nodes[id'.toIndex]? = some node') (heq : node'.child b' = node.child b)
    (hchild : 2 ≤ (node.child b).toIndex) : id = id' ∧ b = b' := by
  have hone : d.links.count (node.child b) = 1 :=
    h.count_eq_one _ (hd.mem_decisionIds_iff.2 ⟨hchild, hd.child_lt_size h2 hn b⟩)
      (h.child_ne_root h2 hn b)
  have hpos := (getElem?_drop_two h2).trans hn
  have hpos' := (getElem?_drop_two h2').trans hn'
  have hid : id = id' := by
    rw [← NodeId.toIndex_inj]
    rcases Nat.lt_trichotomy id.toIndex id'.toIndex with hlt | hsame | hgt
    · have htwo := two_le_count_linksOf (by omega) hpos hpos' rfl heq
      rw [links] at hone
      omega
    · exact hsame
    · have htwo := two_le_count_linksOf (by omega) hpos' hpos heq rfl
      rw [links] at hone
      omega
  refine ⟨hid, ?_⟩
  subst hid
  obtain rfl : node = node' := Option.some.inj (hn.symm.trans hn')
  have hne := (hd.fits _ _ h2 hn).low_ne_high
  cases b <;> cases b'
  · rfl
  · exact absurd heq.symm hne
  · exact absurd heq hne
  · rfl

/-! ### Branches -/

/-- The decisions lead from the root to the node. -/
inductive Arrives (d : Diagram) : Route → NodeId → Prop
  /-- At the root nothing is decided yet. -/
  | root : d.Arrives [] d.root
  /-- A decision leads on to a child. -/
  | step {taken : Route} {id : NodeId} {node : Node} (b : Bool) : d.Arrives taken id →
    2 ≤ id.toIndex → d.nodes[id.toIndex]? = some node →
    d.Arrives (taken ++ [(node.var, b)]) (node.child b)

/-- In a tree there is one way only to arrive at a decision node. -/
theorem Treelike.arrives_unique (h : d.Treelike) (hd : d.Valid) (hid : d.Arrives taken id)
    (hid' : d.Arrives taken' id) (h2 : 2 ≤ id.toIndex) : taken = taken' := by
  induction hid generalizing taken' with
  | root =>
    generalize hroot : d.root = id at hid'
    cases hid' with
    | root => rfl
    | step b _ h2' hn' => exact absurd hroot.symm (h.child_ne_root h2' hn' b)
  | @step taken top node b htop h2top hn ih =>
    generalize hchild : node.child b = id at hid'
    cases hid' with
    | root => exact absurd hchild (h.child_ne_root h2top hn b)
    | @step taken' top' node' b' htop' h2top' hn' =>
      obtain ⟨rfl, rfl⟩ := h.parent_unique hd h2top hn h2top' hn' hchild.symm h2
      obtain rfl : node = node' := Option.some.inj (hn.symm.trans hn')
      rw [ih htop' h2top]

/-- From a node at which one arrives one arrives at all decision nodes below it. -/
theorem Arrives.extend (hd : d.Valid) (h : d.Arrives taken id) (hreach : d.Reaches id id')
    (h2 : 2 ≤ id'.toIndex) : ∃ rest, d.Arrives (taken ++ rest) id' := by
  induction hreach with
  | refl => exact ⟨[], by rwa [List.append_nil]⟩
  | @tail top id' _ hlink ih =>
    obtain ⟨node, b, hn, rfl⟩ := hlink
    rcases top.ofBool_or_two_le with ⟨value, rfl⟩ | h2top
    · rw [hd.child_ofBool hn b] at h2
      exact absurd h2 (NodeId.not_two_le_ofBool value)
    · obtain ⟨rest, hrest⟩ := ih h2top
      exact ⟨rest ++ [(node.var, b)], by rw [← List.append_assoc]; exact hrest.step b h2top hn⟩

/-- In a tree, branches of which neither continues the other have no decision node in
common. -/
theorem Treelike.isTerminal_of_reaches (h : d.Treelike) (hd : d.Valid) (hid : d.Arrives taken id)
    (hid' : d.Arrives taken' id') (hpre : ¬taken <+: taken') (hpre' : ¬taken' <+: taken)
    {common : NodeId} (hreach : d.Reaches id common) (hreach' : d.Reaches id' common) :
    common.isTerminal := by
  by_contra hdecision
  have h2 : 2 ≤ common.toIndex := Nat.le_of_not_lt fun hlt => hdecision (decide_eq_true hlt)
  obtain ⟨rest, hrest⟩ := hid.extend hd hreach h2
  obtain ⟨rest', hrest'⟩ := hid'.extend hd hreach' h2
  have heq := h.arrives_unique hd hrest hrest' h2
  rcases List.prefix_or_prefix_of_prefix ⟨rest, heq⟩ ⟨rest', rfl⟩ with h | h
  · exact hpre h
  · exact hpre' h

end Diagram

end DecisionDiagram
