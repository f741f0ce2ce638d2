import DecisionDiagram.Proofs.Pool.Sound
import Mathlib.Data.List.Basic

/-!
# The log of a pool

A pool reports every request for a node.  What it reports of new nodes is its table, entry
by entry from the first decision node on, so that the table can be made again from the log.
A report speaks of ids that are known by then only: those of the terminals, and those of
nodes whose creation was reported before.
-/

namespace DecisionDiagram

namespace Event

variable {sharing : Bool} {log pre post : List Event} {e : Event} {id : NodeId} {node : Node}
  {nodes : Array Node}

/-- The entry that an event adds to a table, with its position. -/
def added? : Event → Option (Node × Nat)
  | created node id => some (node, id.toIndex)
  | _ => none

/-- What an event does to a table that is made again. -/
def redo (nodes : Array Node) : Event → Array Node
  | started _ numVars _ => #[.zero numVars, .one numVars]
  | created node _ => nodes.push node
  | _ => nodes

/-- The table that is made again from a log. -/
def replay (log : List Event) : Array Node := log.foldl redo #[]

/-- A terminal, or an id whose creation was logged. -/
def Known (log : List Event) (id : NodeId) : Prop :=
  id.isTerminal ∨ ∃ node, .created node id ∈ log

/-- What a request for a node may report after a log. -/
inductive Justified (sharing : Bool) (log : List Event) : Event → Prop
  /-- Both links lead to a known id. -/
  | redundant {var : Variable} {target : NodeId} : Known log target →
    Justified sharing log (.redundant var target)
  /-- With sharing, a node with known links was created before. -/
  | reused {node : Node} {id : NodeId} : sharing = true → Known log node.low →
    Known log node.high → .created node id ∈ log → Justified sharing log (.reused node id)
  /-- A node with known links is new. -/
  | created {node : Node} {id : NodeId} : Known log node.low → Known log node.high →
    Justified sharing log (.created node id)

/-- Each event of the log is justified by those before it. -/
def Coherent (sharing : Bool) (log : List Event) : Prop :=
  ∀ pre e post, log = pre ++ e :: post → Justified sharing pre e

theorem coherent_nil : Coherent sharing [] := by
  intro pre e post h
  simp at h

theorem Coherent.push (h : Coherent sharing log) (he : Justified sharing log e) :
    Coherent sharing (log ++ [e]) := by
  intro pre e' post hsplit
  rcases post.eq_nil_or_concat with rfl | ⟨post, last, rfl⟩
  · obtain ⟨rfl, hlast⟩ := List.append_inj' hsplit rfl
    cases hlast
    exact he
  · rw [List.concat_eq_append, ← List.cons_append, ← List.append_assoc] at hsplit
    exact h pre e' post (List.append_inj' hsplit rfl).1

/-- What is used again was created. -/
theorem Coherent.created_of_reused (h : Coherent sharing log) (he : .reused node id ∈ log) :
    sharing = true ∧ .created node id ∈ log := by
  obtain ⟨pre, post, hlog⟩ := List.append_of_mem he
  cases h pre _ post hlog with
  | reused hs _ _ hmem => exact ⟨hs, hlog ▸ List.mem_append_left _ hmem⟩

end Event

namespace Pool

open Event

variable {o : VarOrder} {p : Pool} {node : Node} {x : Variable} {low high id : NodeId}

/-- The log of a pool tells how its table came about. -/
structure Recorded (p : Pool) : Prop where
  /-- The terminals are there from the beginning. -/
  two_le_size : 2 ≤ p.nodes.size
  /-- The entries that were logged are the decision nodes with their positions. -/
  entries : p.events.toList.filterMap added? = (p.nodes.toList.drop 2).zipIdx 2
  /-- Each event is justified. -/
  coherent : Coherent p.ids.isSome p.events.toList

theorem recorded_start (n : UInt16) (sharing : Bool) : (start n sharing).Recorded where
  two_le_size := Nat.le_refl 2
  entries := rfl
  coherent := coherent_nil

/-- The decision nodes of the table are those whose creation was logged. -/
theorem Recorded.created_iff (hp : p.Recorded) :
    .created node id ∈ p.events.toList ↔
      2 ≤ id.toIndex ∧ p.nodes[id.toIndex]? = some node := by
  have hentry : .created node id ∈ p.events.toList ↔
      (node, id.toIndex) ∈ p.events.toList.filterMap added? := by
    rw [List.mem_filterMap]
    constructor
    · intro h
      exact ⟨_, h, rfl⟩
    · rintro ⟨e, he, hentry⟩
      cases e with
      | created node' id' =>
        simp only [added?, Option.some.injEq, Prod.mk.injEq] at hentry
        obtain ⟨rfl, hid⟩ := hentry
        rwa [← NodeId.toIndex_inj.1 hid]
      | _ => cases hentry
  rw [hentry, hp.entries, List.mk_mem_zipIdx_iff_le_and_getElem?_sub]
  refine and_congr_right fun h2 => ?_
  rw [List.getElem?_drop, Nat.add_sub_cancel' h2, Array.getElem?_toList]

/-- Every id of the table is known. -/
theorem Recorded.known (hp : p.Recorded) (hid : id.toIndex < p.nodes.size) :
    Known p.events.toList id := by
  by_cases h2 : 2 ≤ id.toIndex
  · exact .inr ⟨_, hp.created_iff.2 ⟨h2, Array.getElem?_eq_getElem hid⟩⟩
  · exact .inl (by simpa [NodeId.isTerminal] using h2)

/-- An event that tells of no new node may be logged if it is justified. -/
theorem Recorded.log {e : Event} (hp : p.Recorded) (hnone : e.added? = none)
    (he : Justified p.ids.isSome p.events.toList e) : (p.log e).Recorded where
  two_le_size := hp.two_le_size
  entries := by
    rw [Pool.log, Array.toList_push, List.filterMap_append, hp.entries]
    simp [hnone]
  coherent := by
    rw [Pool.log, Array.toList_push]
    exact hp.coherent.push he

theorem Recorded.push (hp : p.Recorded) (hlow : node.low.toIndex < p.nodes.size)
    (hhigh : node.high.toIndex < p.nodes.size) (hsize : p.nodes.size < 4294967296) :
    (p.push node).2.Recorded where
  two_le_size := by
    rw [nodes_push, Array.size_push]
    exact Nat.le_succ_of_le hp.two_le_size
  entries := by
    have hentry : added? (.created node (.ofIndex p.nodes.size)) = some (node, p.nodes.size) := by
      rw [added?, NodeId.toIndex_ofIndex hsize]
    have hlast : 2 + (p.nodes.toList.drop 2).length = p.nodes.size := by
      rw [List.length_drop, Array.length_toList, Nat.add_sub_cancel' hp.two_le_size]
    rw [nodes_push, Array.toList_push,
      List.drop_append_of_le_length (by rw [Array.length_toList]; exact hp.two_le_size),
      List.zipIdx_append, hlast, ← hp.entries, Pool.push, Array.toList_push,
      List.filterMap_append, List.filterMap_cons_some hentry]
    rfl
  coherent := by
    rw [isSome_ids_push, Pool.push, Array.toList_push]
    exact hp.coherent.push (.created (hp.known hlow) (hp.known hhigh))

/-- A request for a node is reported as it ought to be. -/
theorem Recorded.intern (hr : p.Recorded) (hp : p.Sound o) (hx : x.toIndex < o.numVars.toNat)
    (hlow : low.toIndex < p.nodes.size) (hhigh : high.toIndex < p.nodes.size)
    (hsize : (p.intern x low high).2.nodes.size ≤ 4294967296) :
    (p.intern x low high).2.Recorded := by
  rcases p.intern_cases x low high with ⟨-, h⟩ | ⟨-, id, hf, h⟩ | ⟨-, -, h⟩ <;> rw [h] at hsize ⊢
  · exact hr.log rfl (.redundant (hr.known hlow))
  · -- What is found stands in the table, and it is no terminal since it tests a variable.
    have hs := isSome_ids_of_find? hf
    have hn := (hp.find?_iff hs _ _).1 hf
    have h2 := hp.valid.two_le_of_var_lt hn (UInt16.lt_iff_toNat_lt.2 hx)
    exact hr.log rfl (.reused hs (hr.known hlow) (hr.known hhigh) (hr.created_iff.2 ⟨h2, hn⟩))
  · rw [nodes_push, Array.size_push] at hsize
    exact hr.push hlow hhigh hsize

/-- Doing again what was logged makes the table. -/
def Replayed (n : UInt16) (p : Pool) : Prop :=
  p.events.toList.foldl redo #[.zero n, .one n] = p.nodes

theorem replayed_start (n : UInt16) (sharing : Bool) : (start n sharing).Replayed n := rfl

/-- A request for a node is reported together with what it does to the table. -/
theorem Replayed.intern {n : UInt16} (hp : p.Replayed n) (x : Variable) (low high : NodeId) :
    (p.intern x low high).2.Replayed n := by
  have hlog : ∀ e : Event, redo p.nodes e = p.nodes → (p.log e).Replayed n := by
    intro e he
    rw [Replayed, Pool.log, Array.toList_push, List.foldl_append, hp]
    exact he
  rcases p.intern_cases x low high with ⟨-, h⟩ | ⟨-, id, -, h⟩ | ⟨-, -, h⟩ <;> rw [h]
  · exact hlog _ rfl
  · exact hlog _ rfl
  · rw [Replayed, Pool.push, Array.toList_push, List.foldl_append, hp]
    rfl

@[simp] theorem size_events_intern :
    (p.intern x low high).2.events.size = p.events.size + 1 := by
  rcases p.intern_cases x low high with ⟨-, h⟩ | ⟨-, id, -, h⟩ | ⟨-, -, h⟩ <;> rw [h] <;>
    simp [Pool.log, Pool.push]

end Pool

end DecisionDiagram
