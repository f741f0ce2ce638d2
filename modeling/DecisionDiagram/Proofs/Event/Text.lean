import DecisionDiagram.Event
import DecisionDiagram.Proofs.Number.Decimal
import Mathlib.Logic.Function.Defs

/-!
# Events from their lines

Events are written differently if they are different: a line begins with words that tell what
kind of event it is, or at least in which place to look, and all its numbers can be told from
the words between them.  So whatever is known of a log as a list of events is known of its
lines.
-/

namespace DecisionDiagram

namespace Event

variable {e e' : Event} {node node' : Node} {s t : List Char}

/-! ### Texts as characters -/

theorem toList_nat (n : Nat) : (toString n).toList = Nat.toDigits 10 n := by simp [toString]

theorem toList_uint16 (n : UInt16) : (toString n).toList = Nat.toDigits 10 n.toNat := by
  simp [toString]

theorem toList_variable (v : Variable) : (toString v).toList = Nat.toDigits 10 v.toIndex := by
  simp [toString]

theorem toList_nodeId (id : NodeId) : (toString id).toList = Nat.toDigits 10 id.toIndex := by
  simp [toString]

/-- The request for a node, and the text that follows it. -/
def callText (node : Node) (rest : List Char) : List Char :=
  "mk_node(".toList ++ (Nat.toDigits 10 node.var.toIndex ++ ',' :: ' ' ::
    (Nat.toDigits 10 node.low.toIndex ++ ',' :: ' ' ::
      (Nat.toDigits 10 node.high.toIndex ++ ')' :: rest)))

theorem toList_started (count : Nat) (numVars : UInt16) (sharing : Bool) :
    (started count numVars sharing).text.toList =
      "build: ".toList ++ (Nat.toDigits 10 count ++ ' ' :: ("minterms over ".toList ++
        (Nat.toDigits 10 numVars.toNat ++ ' ' :: ("variables (node sharing: ".toList ++
          ((toString sharing).toList ++ [')']))))) := by
  have h : (started count numVars sharing).text = "build: " ++ toString count ++
      " minterms over " ++ toString numVars ++ " variables (node sharing: " ++
      toString sharing ++ ")" := by
    unfold text
    rfl
  simp only [h, String.toList_append, toList_nat, toList_uint16, List.append_assoc]
  rfl

theorem toList_redundant (var : Variable) (target : NodeId) :
    (redundant var target).text.toList =
      "mk_node: ".toList ++ (Nat.toDigits 10 var.toIndex ++ ' ' ::
        ("is redundant, both links lead to ".toList ++ Nat.toDigits 10 target.toIndex)) := by
  have h : (redundant var target).text = "mk_node: " ++ toString var ++
      " is redundant, both links lead to " ++ toString target := by
    unfold text
    rfl
  simp only [h, String.toList_append, toList_variable, toList_nodeId, List.append_assoc]
  rfl

theorem toList_call (node : Node) (rest : List Char) :
    (text.call node).toList ++ rest = callText node rest := by
  have h : text.call node = "mk_node(" ++ toString node.var ++ ", " ++ toString node.low ++
      ", " ++ toString node.high ++ ")" := by
    unfold text.call
    rfl
  simp only [h, String.toList_append, toList_variable, toList_nodeId, List.append_assoc]
  rfl

theorem toList_reused (node : Node) (id : NodeId) :
    (reused node id).text.toList =
      callText node (':' :: (" reusing ".toList ++ Nat.toDigits 10 id.toIndex)) := by
  have h : (reused node id).text = text.call node ++ (": reusing " ++ toString id) := by
    unfold text
    rfl
  simp only [h, String.toList_append, toList_nodeId, toList_call]
  rfl

theorem toList_created (node : Node) (id : NodeId) :
    (created node id).text.toList =
      callText node (' ' :: ("-> ".toList ++ Nat.toDigits 10 id.toIndex)) := by
  have h : (created node id).text = text.call node ++ (" -> " ++ toString id) := by
    unfold text
    rfl
  simp only [h, String.toList_append, toList_nodeId, toList_call]
  rfl

theorem toList_finished (size : Nat) (root : NodeId) :
    (finished size root).text.toList =
      "build: ".toList ++ 'f' :: ("inished with ".toList ++ (Nat.toDigits 10 size ++ ' ' ::
        ("nodes, root ".toList ++ Nat.toDigits 10 root.toIndex))) := by
  have h : (finished size root).text = "build: finished with " ++ toString size ++
      " nodes, root " ++ toString root := by
    unfold text
    rfl
  simp only [h, String.toList_append, toList_nat, toList_nodeId, List.append_assoc]
  rfl

theorem toList_valueMissing (name : String) (node : NodeId) :
    (valueMissing name node).text.toList =
      "evaluate: `".toList ++ (name.toList ++ ("` missing at node".toList ++
        ' ' :: Nat.toDigits 10 node.toIndex)) := by
  have h : (valueMissing name node).text =
      "evaluate: `" ++ name ++ ("` missing at node " ++ toString node) := by
    unfold text
    rfl
  simp only [h, String.toList_append, toList_nodeId, List.append_assoc]
  rfl

/-! ### Texts taken apart -/

/-- Where two texts agree that begin with the request for a node, the nodes agree and the
texts behind. -/
theorem callText_cancel (h : callText node s = callText node' t) : node = node' ∧ s = t := by
  obtain ⟨hvar, h⟩ := number_cancel (by decide) (by decide) (List.append_cancel_left h)
  obtain ⟨hlow, h⟩ := number_cancel (by decide) (by decide) (List.cons.inj (List.cons.inj h).2).2
  obtain ⟨hhigh, h⟩ := number_cancel (by decide) (by decide) (List.cons.inj (List.cons.inj h).2).2
  refine ⟨?_, (List.cons.inj h).2⟩
  cases node; cases node'
  rw [Node.mk.injEq]
  exact ⟨Variable.toIndex_inj.1 hvar, NodeId.toIndex_inj.1 hlow, NodeId.toIndex_inj.1 hhigh⟩

theorem text_started_inj {count count' : Nat} {numVars numVars' : UInt16} {sharing sharing' : Bool}
    (h : (started count numVars sharing).text = (started count' numVars' sharing').text) :
    count = count' ∧ numVars = numVars' ∧ sharing = sharing' := by
  have h := congrArg String.toList h
  rw [toList_started, toList_started] at h
  obtain ⟨hcount, h⟩ := number_cancel (by decide) (by decide) (List.append_cancel_left h)
  obtain ⟨hvars, h⟩ := number_cancel (by decide) (by decide)
    (List.append_cancel_left (List.cons.inj h).2)
  have hword := List.append_cancel_right (List.append_cancel_left (List.cons.inj h).2)
  refine ⟨hcount, UInt16.toNat_inj.1 hvars, ?_⟩
  cases sharing <;> cases sharing' <;> first | rfl | exact absurd hword (by decide)

theorem text_redundant_inj {var var' : Variable} {target target' : NodeId}
    (h : (redundant var target).text = (redundant var' target').text) :
    var = var' ∧ target = target' := by
  have h := congrArg String.toList h
  rw [toList_redundant, toList_redundant] at h
  obtain ⟨hvar, h⟩ := number_cancel (by decide) (by decide) (List.append_cancel_left h)
  have htarget := number_inj (List.append_cancel_left (List.cons.inj h).2)
  exact ⟨Variable.toIndex_inj.1 hvar, NodeId.toIndex_inj.1 htarget⟩

theorem text_reused_inj {id id' : NodeId} (h : (reused node id).text = (reused node' id').text) :
    node = node' ∧ id = id' := by
  have h := congrArg String.toList h
  rw [toList_reused, toList_reused] at h
  obtain ⟨hnode, h⟩ := callText_cancel h
  have hid := number_inj (List.append_cancel_left (List.cons.inj h).2)
  exact ⟨hnode, NodeId.toIndex_inj.1 hid⟩

theorem text_created_inj {id id' : NodeId}
    (h : (created node id).text = (created node' id').text) : node = node' ∧ id = id' := by
  have h := congrArg String.toList h
  rw [toList_created, toList_created] at h
  obtain ⟨hnode, h⟩ := callText_cancel h
  have hid := number_inj (List.append_cancel_left (List.cons.inj h).2)
  exact ⟨hnode, NodeId.toIndex_inj.1 hid⟩

theorem text_finished_inj {size size' : Nat} {root root' : NodeId}
    (h : (finished size root).text = (finished size' root').text) :
    size = size' ∧ root = root' := by
  have h := congrArg String.toList h
  rw [toList_finished, toList_finished] at h
  obtain ⟨hsize, h⟩ := number_cancel (by decide) (by decide)
    (List.append_cancel_left (List.cons.inj (List.append_cancel_left h)).2)
  have hroot := number_inj (List.append_cancel_left (List.cons.inj h).2)
  exact ⟨hsize, NodeId.toIndex_inj.1 hroot⟩

/-- A name may imitate what follows it, so this text is taken apart from its end. -/
theorem text_valueMissing_inj {name name' : String} {id id' : NodeId}
    (h : (valueMissing name id).text = (valueMissing name' id').text) :
    name = name' ∧ id = id' := by
  have h := congrArg String.toList h
  rw [toList_valueMissing, toList_valueMissing, ← List.append_assoc name.toList,
    ← List.append_assoc name'.toList] at h
  obtain ⟨hname, hid⟩ := number_cancel_right (by decide) (List.append_cancel_left h)
  exact ⟨String.toList_injective (List.append_cancel_right hname), NodeId.toIndex_inj.1 hid⟩

/-! ### Lines tell events -/

/-- Where a construction starts there is a number, and where it ends there is none. -/
theorem text_started_ne_finished (count size : Nat) (numVars : UInt16) (sharing : Bool)
    (root : NodeId) : (started count numVars sharing).text ≠ (finished size root).text := by
  intro h
  have h := congrArg String.toList h
  rw [toList_started, toList_finished] at h
  exact number_ne (by decide) (List.append_cancel_left h)

/-- Whether a node is new is told behind the request for it. -/
theorem text_reused_ne_created (node node' : Node) (id id' : NodeId) :
    (reused node id).text ≠ (created node' id').text := by
  intro h
  have h := congrArg String.toList h
  rw [toList_reused, toList_created] at h
  exact absurd (List.cons.inj (callText_cancel h).2).1 (by decide)

/-- Whether a node is needed at all is told before the request for it. -/
theorem text_redundant_ne_call {rest : List Char} (var : Variable) (target : NodeId)
    (h : e.text.toList = callText node rest) : (redundant var target).text ≠ e.text := by
  intro heq
  have heq := congrArg (fun s : String => s.toList[7]?) heq
  simp only [toList_redundant, h] at heq
  exact absurd (Option.some.inj (show some ':' = some '(' from heq)) (by decide)

/-- The first character of a text. -/
def initial : Event → Char
  | started .. => 'b'
  | finished .. => 'b'
  | valueMissing .. => 'e'
  | _ => 'm'

theorem head?_text (e : Event) : e.text.toList.head? = some e.initial := by
  cases e with
  | started => rw [toList_started]; rfl
  | redundant => rw [toList_redundant]; rfl
  | reused => rw [toList_reused]; rfl
  | created => rw [toList_created]; rfl
  | finished => rw [toList_finished]; rfl
  | valueMissing => rw [toList_valueMissing]; rfl

/-- Different events have different texts. -/
theorem text_injective : Function.Injective text := by
  intro e e' h
  have hinitial : e.initial = e'.initial := by
    rw [← Option.some_inj, ← head?_text, h, head?_text]
  cases e with
  | started =>
    cases e' with
    | started =>
      obtain ⟨rfl, rfl, rfl⟩ := text_started_inj h
      rfl
    | finished => exact absurd h (text_started_ne_finished _ _ _ _ _)
    | _ => simp [initial] at hinitial
  | finished =>
    cases e' with
    | started => exact absurd h.symm (text_started_ne_finished _ _ _ _ _)
    | finished =>
      obtain ⟨rfl, rfl⟩ := text_finished_inj h
      rfl
    | _ => simp [initial] at hinitial
  | redundant =>
    cases e' with
    | redundant =>
      obtain ⟨rfl, rfl⟩ := text_redundant_inj h
      rfl
    | reused => exact absurd h (text_redundant_ne_call _ _ (toList_reused _ _))
    | created => exact absurd h (text_redundant_ne_call _ _ (toList_created _ _))
    | _ => simp [initial] at hinitial
  | reused =>
    cases e' with
    | redundant => exact absurd h.symm (text_redundant_ne_call _ _ (toList_reused _ _))
    | reused =>
      obtain ⟨rfl, rfl⟩ := text_reused_inj h
      rfl
    | created => exact absurd h (text_reused_ne_created _ _ _ _)
    | _ => simp [initial] at hinitial
  | created =>
    cases e' with
    | redundant => exact absurd h.symm (text_redundant_ne_call _ _ (toList_created _ _))
    | reused => exact absurd h.symm (text_reused_ne_created _ _ _ _)
    | created =>
      obtain ⟨rfl, rfl⟩ := text_created_inj h
      rfl
    | _ => simp [initial] at hinitial
  | valueMissing =>
    cases e' with
    | valueMissing =>
      obtain ⟨rfl, rfl⟩ := text_valueMissing_inj h
      rfl
    | _ => simp [initial] at hinitial

theorem length_label (s : Severity) : s.label.toList.length = 5 := by cases s <;> rfl

/-- Different events are logged in different lines. -/
theorem line_injective : Function.Injective line := by
  intro e e' h
  have h := congrArg String.toList h
  simp only [line, String.toList_append, List.append_assoc] at h
  obtain ⟨-, h⟩ := List.append_inj h (by rw [length_label, length_label])
  exact text_injective (String.toList_injective (List.append_cancel_left h))

end Event

end DecisionDiagram
