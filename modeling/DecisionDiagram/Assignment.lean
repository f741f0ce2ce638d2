import Std.Data.HashMap
import Std.Data.TreeMap

/-!
# Named assignments

A named assignment gives Boolean values to some names and leaves all others open.
Anything that can answer for a name serves as one: a list or array of pairs, in
which the last pair with a name counts, or a map.
-/

namespace DecisionDiagram

/-- Sources of named Boolean values. -/
class Assignment (α : Type u) where
  /-- The value given to the name, if there is one. -/
  valueOf : α → String → Option Bool

namespace Assignment

/-- The value in the last of the pairs that bears the name. -/
def lastValue (pairs : List (String × Bool)) (name : String) : Option Bool :=
  pairs.foldl (fun found pair => if pair.1 = name then some pair.2 else found) none

instance : Assignment (List (String × Bool)) where
  valueOf := lastValue

instance : Assignment (Array (String × Bool)) where
  valueOf pairs name :=
    pairs.foldl (fun found pair => if pair.1 = name then some pair.2 else found) none

instance : Assignment (Std.HashMap String Bool) where
  valueOf map name := map[name]?

instance : Assignment (Std.TreeMap String Bool) where
  valueOf map name := map[name]?

instance : Assignment (String → Option Bool) where
  valueOf f := f

@[simp] theorem lastValue_nil (name : String) : lastValue [] name = none := rfl

/-- A later pair overrides the earlier ones. -/
theorem lastValue_append_singleton (pairs : List (String × Bool)) (pair : String × Bool)
    (name : String) :
    lastValue (pairs ++ [pair]) name =
      if pair.1 = name then some pair.2 else lastValue pairs name := by
  simp [lastValue, List.foldl_append]

@[simp] theorem valueOf_toArray (pairs : List (String × Bool)) (name : String) :
    valueOf pairs.toArray name = valueOf pairs name := by
  simp [valueOf, lastValue]

end Assignment

end DecisionDiagram
