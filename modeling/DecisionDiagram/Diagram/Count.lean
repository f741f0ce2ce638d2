import DecisionDiagram.Diagram.Basic

/-!
# Counting satisfying valuations

The number of valuations that satisfy a diagram is found in one pass over the
table.  Each node is given the number of ways to satisfy it by the variables from
its own on; a link that skips variables counts each of them twice.  The pass only
needs a few operations on numbers, so it is written for any `Counting` type:
natural numbers give the exact count, and 64-bit floating-point numbers give the
approximation that `cardinality` reports.
-/

namespace DecisionDiagram

/-- Numbers with which valuations can be counted. -/
class Counting (α : Type) where
  /-- The number zero. -/
  zero : α
  /-- The number one. -/
  one : α
  /-- The sum of two numbers. -/
  add : α → α → α
  /-- The product of two numbers. -/
  mul : α → α → α
  /-- The power of two with the given exponent. -/
  pow2 : Nat → α
  /-- The result to report for a computed number. -/
  settle : α → α

/-- Exact counting. -/
instance : Counting Nat where
  zero := 0
  one := 1
  add := (· + ·)
  mul := (· * ·)
  pow2 k := Nat.pow 2 k
  settle n := n

/-- The exact power of two in binary64, which is infinite from `2 ^ 1024` on. -/
def floatPow2 (k : Nat) : Float :=
  if k ≤ 1023 then Float.ofBits ((k + 1023).toUInt64 <<< 52)
  else Float.ofBits 0x7ff0000000000000

/-- Counting in binary64. A result that is not a number comes from an infinite
intermediate value, and is reported as infinite. -/
instance : Counting Float where
  zero := 0.0
  one := 1.0
  add := (· + ·)
  mul := (· * ·)
  pow2 := floatPow2
  settle x := if x.isNaN then Float.ofBits 0x7ff0000000000000 else x

namespace Diagram

variable {α : Type} [Counting α]

/-- The number of ways to satisfy one side of a node, given the counts of the nodes
before: each variable between the node and its child may have either value. -/
def sideCount (d : Diagram) (counts : Array α) (var : Variable) (child : NodeId) :
    Except Fault α := do
  let next := (← d.node child).var
  let count := counts[child.toIndex]?.getD Counting.zero
  return Counting.mul count (Counting.pow2 (next.index - var.index - 1).toNat)

/-- Enters the count of one node, given the counts of the nodes before. -/
def countNode (d : Diagram) (counts : Array α) (id : NodeId) : Except Fault (Array α) := do
  let node ← d.node id
  let low ← d.sideCount counts node.var node.low
  let high ← d.sideCount counts node.var node.high
  return counts.setIfInBounds id.toIndex (Counting.add low high)

/-- The counts of all nodes, by position. -/
def counts (α : Type) [Counting α] (d : Diagram) : Except Fault (Array α) :=
  d.decisionIds.foldlM d.countNode
    ((Array.replicate d.size Counting.zero).setIfInBounds 1 Counting.one)

/-- The number of satisfying valuations: the count of the root, doubled for each
variable before it. -/
def tally (α : Type) [Counting α] (d : Diagram) : Except Fault α :=
  if d.isFalse then .ok Counting.zero
  else do
    let counts ← d.counts α
    let root ← d.node d.root
    let count := counts[d.root.toIndex]?.getD Counting.zero
    return Counting.settle (Counting.mul count (Counting.pow2 root.var.toIndex))

/-- The exact number of satisfying valuations. -/
def count (d : Diagram) : Except Fault Nat := d.tally Nat

/-- The number of satisfying valuations in binary64. -/
def cardinality (d : Diagram) : Except Fault Float := d.tally Float

end Diagram

end DecisionDiagram
