import DecisionDiagram.Dot.Export
import DecisionDiagram.Proofs.Diagram.Check
import DecisionDiagram.Proofs.Dot.Label
import DecisionDiagram.Proofs.Number.Decimal
import DecisionDiagram.Proofs.Order.Values

/-!
# Drawings determine diagrams

No separator in a drawing is safe from being imitated by a name, and a pruned drawing
leaves links out.  Still it can be read in one way only: a number ends at the first
character that is no digit, a label ends at its first bare quote, and behind the number of
its source a link goes on with a blank, a decision node with a bracket.  So two
drawings that agree are taken apart side by side, from the first line to the last, and the
tables behind them are found to agree position by position.
-/

namespace DecisionDiagram

namespace Dot

variable {d d' : Diagram} {pruned : Bool} {source a b : NodeId} {style : String}
  {m n k : Nat} {c c' : Char} {s t : List Char} {node node' : Node} {name name' : String}

/-! ### Lines as characters -/

/-- The characters of a text with the given lines. -/
def chars (lines : List String) : List Char := lines.flatMap fun line => line.toList ++ ['\n']

@[simp] theorem chars_nil : chars [] = [] := rfl

theorem chars_append (lines lines' : List String) :
    chars (lines ++ lines') = chars lines ++ chars lines' := List.flatMap_append

theorem chars_cons (line : String) (lines : List String) :
    chars (line :: lines) = line.toList ++ '\n' :: chars lines := by
  simp [chars]

theorem toList_join_lines (lines : List String) :
    (String.join (lines.map (· ++ "\n"))).toList = chars lines := by
  rw [String.toList_join, chars, List.flatMap_map]
  simp only [String.toList_append]
  rfl

/-! ### Links -/

/-- A link that is drawn, and the text that follows it. -/
def linkText (source target : NodeId) (style : String) (rest : List Char) : List Char :=
  Nat.toDigits 10 source.toIndex ++ ' ' :: ("-> ".toList ++ (Nat.toDigits 10 target.toIndex ++
    ' ' :: ("[style=".toList ++ (style.toList ++ ("];\n".toList ++ rest)))))

theorem chars_linkLines (pruned : Bool) (source target : NodeId) (style : String)
    (rest : List Char) :
    chars (linkLines pruned source target style) ++ rest =
      if pruned && target.isZero then rest else linkText source target style rest := by
  unfold linkLines
  split
  · rfl
  · rw [chars_cons]
    simp [linkText, toString]

/-- Where two links from one source agree, their targets agree and the texts behind. -/
theorem linkText_cancel {style' : String}
    (h : linkText source a style s = linkText source b style' t) :
    a = b ∧ style.toList ++ ("];\n".toList ++ s) = style'.toList ++ ("];\n".toList ++ t) := by
  have htarget := List.append_cancel_left (List.cons.inj (List.append_cancel_left h)).2
  obtain ⟨hindex, hrest⟩ := number_cancel (by decide) (by decide) htarget
  exact ⟨NodeId.toIndex_inj.1 hindex, List.append_cancel_left (List.cons.inj hrest).2⟩

/-- The text does not go on with a link of the given kind. -/
def Without (source : NodeId) (style : String) (text : List Char) : Prop :=
  ∀ target rest, text ≠ linkText source target style rest

/-- Where two texts agree that go on with at most one link of a kind, either both do, with the
same target, or neither does. -/
theorem link_cancel (hs : Without source style s) (ht : Without source style t)
    (h : chars (linkLines pruned source a style) ++ s =
      chars (linkLines pruned source b style) ++ t) : a = b ∧ s = t := by
  rw [chars_linkLines, chars_linkLines] at h
  split at h <;> split at h
  · next ha hb =>
    simp only [Bool.and_eq_true, NodeId.isZero, decide_eq_true_eq] at ha hb
    exact ⟨ha.2.trans hb.2.symm, h⟩
  · exact absurd h (hs b t)
  · exact absurd h.symm (ht a s)
  · obtain ⟨htarget, hrest⟩ := linkText_cancel h
    exact ⟨htarget, List.append_cancel_left (List.append_cancel_left hrest)⟩

/-- The low link of a node is not taken for its high link. -/
theorem without_filled (hs : Without source "filled" s) :
    Without source "filled" (chars (linkLines pruned source a "dotted") ++ s) := by
  intro target rest h
  rw [chars_linkLines] at h
  split at h
  · exact hs target rest h
  · have hstyle := (List.cons.inj (linkText_cancel h).2).1
    exact absurd hstyle (by decide)

/-! ### The opening -/

/-- The lines for the terminals. -/
def terminalLines (pruned : Bool) (root : NodeId) : List String :=
  (if pruned && !root.isZero then [] else [terminalLine "0"]) ++ [terminalLine "1"]

theorem chars_openingLines (d : Diagram) (pruned : Bool) (rest : List Char) :
    chars (openingLines d pruned) ++ rest =
      chars ["digraph G \x7b", "init__ [label=\"\", style=invis, height=0, width=0];"] ++
        ("init__ -> ".toList ++ (Nat.toDigits 10 d.root.toIndex ++ ';' :: '\n' ::
          (chars (terminalLines pruned d.root) ++ rest))) := by
  have hlines : openingLines d pruned =
      ["digraph G \x7b", "init__ [label=\"\", style=invis, height=0, width=0];"] ++
        s!"init__ -> {d.root};" :: terminalLines pruned d.root := by
    rfl
  rw [hlines, chars_append, chars_cons _ (terminalLines pruned d.root)]
  simp [toString]

/-- The opening of a drawing tells the root. The terminals that are drawn depend on nothing
else. -/
theorem opening_cancel (h : chars (openingLines d pruned) ++ s =
    chars (openingLines d' pruned) ++ t) : d.root = d'.root ∧ s = t := by
  rw [chars_openingLines, chars_openingLines] at h
  obtain ⟨hindex, hrest⟩ := number_cancel (by decide) (by decide)
    (List.append_cancel_left (List.append_cancel_left h))
  have hroot := NodeId.toIndex_inj.1 hindex
  rw [hroot] at hrest
  exact ⟨hroot, List.append_cancel_left (List.cons.inj (List.cons.inj hrest).2).2⟩

/-! ### Decision nodes -/

/-- The lines for a decision node, and the text that follows them. -/
def nodeText (pruned : Bool) (id : NodeId) (name : String) (node : Node) (rest : List Char) :
    List Char :=
  Nat.toDigits 10 id.toIndex ++ '[' :: ("label=\"".toList ++ (escapeChars name.toList ++ '"' ::
    ("];\n".toList ++ (chars (linkLines pruned id node.high "filled") ++
      (chars (linkLines pruned id node.low "dotted") ++ rest)))))

/-- A decision node is not taken for a link, not even of the same source. -/
theorem without_nodeText (pruned : Bool) (id : NodeId) (name : String) (node : Node)
    (rest : List Char) : Without source style (nodeText pruned id name node rest) := by
  intro target rest' h
  have hnext := (number_cancel (by decide) (by decide) h).2
  exact absurd (List.cons.inj hnext).1 (by decide)

theorem nodeText_cancel {id : NodeId} (hs : ∀ style, Without id style s)
    (ht : ∀ style, Without id style t)
    (h : nodeText pruned id name node s = nodeText pruned id name' node' t) :
    name = name' ∧ node.high = node'.high ∧ node.low = node'.low ∧ s = t := by
  have hlabel := List.append_cancel_left (List.cons.inj (List.append_cancel_left h)).2
  obtain ⟨hname, hlinks⟩ := label_cancel hlabel
  obtain ⟨hhigh, hlow⟩ := link_cancel (without_filled (hs _)) (without_filled (ht _))
    (List.append_cancel_left hlinks)
  obtain ⟨hlow, hrest⟩ := link_cancel (hs _) (ht _) hlow
  exact ⟨String.toList_injective hname, hhigh, hlow, hrest⟩

/-- The text that draws the nodes of a table from a position on, with the last line. -/
inductive Remainder (d : Diagram) (pruned : Bool) : Nat → List Char → Prop
  /-- After the last node the drawing ends. -/
  | close {k : Nat} : d.size ≤ k → Remainder d pruned k ['\x7d', '\n']
  /-- Each node has a name for its variable and is drawn before the later ones. -/
  | node {k : Nat} {node : Node} {name : String} {rest : List Char} :
    d.nodes[k]? = some node → d.order.names[node.var.toIndex]? = some name →
    Remainder d pruned (k + 1) rest →
    Remainder d pruned k (nodeText pruned (.ofIndex k) name node rest)

namespace Remainder

theorem without (h : Remainder d pruned k s) : Without source style s := by
  cases h with
  | close _ =>
    intro target rest h
    exact number_ne (by decide) h.symm
  | node _ _ _ => exact without_nodeText _ _ _ _ _

/-- Where the drawings of two tables agree from a position on, the tables agree there. -/
theorem getElem?_eq (h : Remainder d pruned k s) (h' : Remainder d' pruned k t)
    (ho : d.order = d'.order) (heq : s = t) {i : Nat} (hi : k ≤ i) :
    d.nodes[i]? = d'.nodes[i]? := by
  induction h generalizing t with
  | close hsize =>
    cases h' with
    | close hsize' =>
      rw [Array.getElem?_eq_none (Nat.le_trans hsize hi),
        Array.getElem?_eq_none (Nat.le_trans hsize' hi)]
    | node _ _ _ => exact absurd heq.symm (number_ne (by decide))
  | @node _ node _ _ hn hname hrest ih =>
    cases h' with
    | close _ => exact absurd heq (number_ne (by decide))
    | @node _ node' _ _ hn' hname' hrest' =>
      obtain ⟨rfl, hhigh, hlow, hnext⟩ :=
        nodeText_cancel (fun _ => hrest.without) (fun _ => hrest'.without) heq
      rcases Nat.eq_or_lt_of_le hi with rfl | hlt
      · -- The name tells the variable, since no order has a name twice.
        rw [← VarOrder.lookup?_eq_some_iff] at hname
        rw [← ho, ← VarOrder.lookup?_eq_some_iff, hname] at hname'
        have hnode : node = node' := by
          cases node; cases node'
          rw [Node.mk.injEq]
          exact ⟨Option.some.inj hname', hlow, hhigh⟩
        rw [hn, hn', hnode]
      · exact ih hrest' hnext hlt

end Remainder

end Dot

namespace Diagram

open Dot

variable {d d' : Diagram} {id : NodeId} {node : Node} {k m : Nat}

theorem exists_nodeLines {name : String} (pruned : Bool) (hn : d.nodes[id.toIndex]? = some node)
    (hname : d.order.names[node.var.toIndex]? = some name) :
    ∃ lines, nodeLines d pruned id = .ok lines ∧
      ∀ rest, chars lines ++ rest = nodeText pruned id name node rest := by
  refine ⟨(s!"{id}[label=\"" ++ escape name ++ "\"];") ::
    (linkLines pruned id node.high "filled" ++ linkLines pruned id node.low "dotted"), ?_, ?_⟩
  · have hnameOf : d.order.nameOf node.var = .ok name := readAt_eq_ok_iff.2 hname
    rw [nodeLines, node_eq_ok_iff.2 hn]
    simp only [bind, Except.bind, hnameOf]
    rfl
  · intro rest
    rw [chars_cons, chars_append]
    simp [nodeText, toString, escape]

/-- The nodes from a position on are drawn without fail. -/
theorem Valid.remainder (hd : d.Valid) (pruned : Bool) (h2 : 2 ≤ k) (hk : k + m = d.size) :
    ∃ body, ((List.range' k m).map NodeId.ofIndex).mapM (nodeLines d pruned) = .ok body ∧
      Remainder d pruned k (chars (body.flatten ++ ["\x7d"])) := by
  induction m generalizing k with
  | zero => exact ⟨[], rfl, .close (Nat.le_of_eq hk.symm)⟩
  | succ m ih =>
    have hlt : k < d.size := by omega
    have hn := hd.getElem?_ofIndex hlt
    have hidx := hd.toIndex_ofIndex hlt
    obtain ⟨name, hname⟩ := VarOrder.exists_name (hd.fits _ _ (hidx.symm ▸ h2) hn).var_lt
    obtain ⟨body, hbody, hrest⟩ := ih (Nat.le_succ_of_le h2) (by omega)
    obtain ⟨lines, hlines, htext⟩ := exists_nodeLines pruned hn hname
    refine ⟨lines :: body, ?_, ?_⟩
    · rw [List.range'_succ, List.map_cons, List.mapM_cons, hlines, hbody]
      rfl
    · rw [List.flatten_cons, List.append_assoc, chars_append, htext]
      exact .node (Array.getElem?_eq_getElem hlt) hname hrest

/-- A valid diagram has a drawing, which consists of the opening and the nodes. -/
theorem Valid.exists_toDot (hd : d.Valid) (pruned : Bool) :
    ∃ text rest, d.toDot pruned = .ok text ∧
      text.toList = chars (openingLines d pruned) ++ rest ∧ Remainder d pruned 2 rest := by
  have hsize := hd.size_pos
  obtain ⟨body, hbody, hrest⟩ := hd.remainder pruned (Nat.le_refl 2) (m := d.size - 2) (by omega)
  rw [← decisionIds_eq] at hbody
  refine ⟨.join ((openingLines d pruned ++ body.flatten ++ ["\x7d"]).map (· ++ "\n")), _, ?_, ?_,
    hrest⟩
  · rw [toDot, lines, hbody]
    rfl
  · rw [toList_join_lines, List.append_assoc, chars_append]

/-- A drawing, pruned or not, determines the diagram that it shows. Valid diagrams over one
order have drawings, and if these are equal then so are the tables and the roots. -/
theorem Valid.toDot_injective (hd : d.Valid) (hd' : d'.Valid) (ho : d.order = d'.order)
    (pruned : Bool) :
    ∃ text text', d.toDot pruned = .ok text ∧ d'.toDot pruned = .ok text' ∧
      (text = text' → d.nodes = d'.nodes ∧ d.root = d'.root) := by
  obtain ⟨text, rest, htext, hchars, hrest⟩ := hd.exists_toDot pruned
  obtain ⟨text', rest', htext', hchars', hrest'⟩ := hd'.exists_toDot pruned
  refine ⟨text, text', htext, htext', ?_⟩
  rintro rfl
  obtain ⟨hroot, hnodes⟩ := opening_cancel (hchars.symm.trans hchars')
  refine ⟨Array.ext_getElem? fun i => ?_, hroot⟩
  match i with
  | 0 => rw [hd.zero_eq, hd'.zero_eq, numVars, numVars, ho]
  | 1 => rw [hd.one_eq, hd'.one_eq, numVars, numVars, ho]
  | i + 2 => exact hrest.getElem?_eq hrest' ho hnodes (by omega)

/-- A variable or its negation, over an order in which a name imitates the end of a drawing and
another ends with a backslash. -/
def literal (value : Bool) : Diagram where
  order := .two "a\"];\n\x7d\n" "b\\" (by decide)
  nodes := #[.zero 2, .one 2, ⟨⟨0⟩, .ofBool !value, .ofBool value⟩]
  root := .ofIndex 2

theorem valid_literal (value : Bool) : (literal value).Valid := by
  refine check_eq_ok_iff_valid.1 ?_
  cases value <;> decide

theorem toDot_literal_ne :
    ∃ text text', (literal true).toDot true = .ok text ∧ (literal false).toDot true = .ok text' ∧
      text ≠ text' := by
  obtain ⟨text, text', htext, htext', h⟩ :=
    Valid.toDot_injective (valid_literal true) (valid_literal false) rfl true
  refine ⟨text, text', htext, htext', fun heq => ?_⟩
  exact absurd (h heq).1 (by decide)

end Diagram

end DecisionDiagram
