import DecisionDiagram.Cover.Compile

/-!
# Recursive readings of the expansion

The expansion of a cover, said without tasks: `expand` is the recursion that
`Cover.run` works off on its stack, and `expandFully` is the same without any
shortcut, which splits on every variable down to the last.  Both thread the pool
of nodes, high side first.
-/

namespace DecisionDiagram

namespace Cover

/-- The id for the function of the cubes from variable `v` on, with `left`
variables to go: a constant if there are no cubes or one is free from here on, a
node if some cube fixes the variable, and otherwise what the next variable gives. -/
def expand : (left : Nat) → (v : Variable) → (rows : List Row) → Pool → NodeId × Pool
  | 0, _, rows, pool => (.ofBool (!rows.isEmpty), pool)
  | left + 1, v, rows, pool =>
    if rows.isEmpty then (.zero, pool)
    else if rows.any (·.freeFrom ≤ v.index) then (.one, pool)
    else if rows.any (·.cube.fixes v) then
      let (high, pool) := expand left v.succ (rows.filter (·.allows v true)) pool
      let (low, pool) := expand left v.succ (rows.filter (·.allows v false)) pool
      pool.intern v low high
    else expand left v.succ rows pool

/-- The id for the function of the cubes from variable `v` on, with `left`
variables to go, found by splitting on each of them. -/
def expandFully : (left : Nat) → (v : Variable) → (rows : List Row) → Pool → NodeId × Pool
  | 0, _, rows, pool => (.ofBool (!rows.isEmpty), pool)
  | left + 1, v, rows, pool =>
    let (high, pool) := expandFully left v.succ (rows.filter (·.allows v true)) pool
    let (low, pool) := expandFully left v.succ (rows.filter (·.allows v false)) pool
    pool.intern v low high

/-- The root and the pool that a recursive expansion of the cover ends with. -/
def expansion (c : Cover) : NodeId × Pool :=
  expand c.order.numVars.toNat ⟨0⟩ (c.cubes.toList.map Row.ofCube)
    (.start c.order.numVars c.sharing)

/-- The root and the pool that the expansion without shortcuts ends with. -/
def fullExpansion (c : Cover) : NodeId × Pool :=
  expandFully c.order.numVars.toNat ⟨0⟩ (c.cubes.toList.map Row.ofCube)
    (.start c.order.numVars c.sharing)

end Cover

end DecisionDiagram
