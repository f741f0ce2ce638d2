import DecisionDiagram.Cube
import Std.Data.ExtHashMap

/-!
# Variable orders

A variable order is a sequence of distinct names; the variables of a diagram are
the positions in it.  Beside the names an order keeps a map from each name to its
position, and a proof that the two agree.  The map is extensional, so an order is
determined by its names.
-/

namespace DecisionDiagram

/-- Names are compared by equality. Maps keyed by names go by this instance, so that
they are of one type whichever others are around. -/
instance equivBEqString : EquivBEq String where
  symm h := beq_iff_eq.2 (beq_iff_eq.1 h).symm
  trans h h' := beq_iff_eq.2 ((beq_iff_eq.1 h).trans (beq_iff_eq.1 h'))
  rfl := beq_self_eq_true _

/-- A fixed sequence of distinct variable names. -/
structure VarOrder where
  /-- The names, in order. -/
  names : Array String
  /-- The position of each name. -/
  positions : Std.ExtHashMap String Variable
  /-- Every position, and the number of names, fits a variable. -/
  size_le : names.size ≤ maxVariables
  /-- The map finds a name exactly where it stands. -/
  positions_iff : ∀ (name : String) (v : Variable),
    positions[name]? = some v ↔ names[v.toIndex]? = some name

namespace VarOrder

/-- The number of variables. -/
def numVars (o : VarOrder) : UInt16 := UInt16.ofNat o.names.size

/-- The variable with the given name. -/
def lookup? (o : VarOrder) (name : String) : Option Variable := o.positions[name]?

/-- The name of a variable, or a fault if the order is too short. -/
def nameOf (o : VarOrder) (v : Variable) : Except Fault String := readAt o.names v.toIndex

/-- All variables, in order. -/
def vars (o : VarOrder) : List Variable :=
  (List.range o.numVars.toNat).map Variable.atIndex

instance : ToString VarOrder where
  toString o := "[" ++ ", ".intercalate o.names.toList ++ "]"

variable {o p : VarOrder} {name : String} {v w : Variable}

theorem lookup?_eq_some_iff : o.lookup? name = some v ↔ o.names[v.toIndex]? = some name :=
  o.positions_iff name v

theorem toNat_numVars (o : VarOrder) : o.numVars.toNat = o.names.size := by
  have := o.size_le
  simp only [numVars, UInt16.toNat_ofNat']
  exact Nat.mod_eq_of_lt (by unfold maxVariables at this; omega)

/-- An order is determined by its names. -/
theorem ext_names (h : o.names = p.names) : o = p := by
  have hpos : o.positions = p.positions := by
    apply Std.ExtHashMap.ext_getElem?
    intro name
    ext v
    rw [o.positions_iff, p.positions_iff, h]
  cases o; cases p
  cases h; cases hpos
  rfl

instance : DecidableEq VarOrder := fun o p =>
  if h : o.names = p.names then isTrue (ext_names h) else isFalse fun e => h (e ▸ rfl)

/-! ### Building an order name by name -/

/-- The order without variables. -/
def empty : VarOrder where
  names := #[]
  positions := ∅
  size_le := by simp
  positions_iff := by simp

instance : EmptyCollection VarOrder := ⟨empty⟩

instance : Inhabited VarOrder := ⟨empty⟩

/-- Adds a name that is not there yet. -/
@[inline] def push (o : VarOrder) (name : String) (hnew : o.lookup? name = none)
    (hsize : o.names.size < maxVariables) : VarOrder :=
  -- The position is computed before the names grow, so that they can do so in place.
  let next := Variable.atIndex o.names.size
  { names := o.names.push name
    positions := o.positions.insert name next
    size_le := by simp only [Array.size_push]; omega
    positions_iff := by
      intro s v
      have hlt : o.names.size < 65536 := by unfold maxVariables at hsize; omega
      rw [Std.ExtHashMap.getElem?_insert, Array.getElem?_push]
      by_cases hv : v.toIndex = o.names.size
      · by_cases hs : name = s
        · subst hs
          simp [next, hv, ← Variable.toIndex_inj, Variable.toIndex_atIndex hlt]
        · have : o.positions[s]? ≠ some v := by
            rw [Ne, o.positions_iff, Array.getElem?_eq_none (by omega)]
            simp
          simp [hs, hv, this]
      · by_cases hs : name = s
        · subst hs
          have : o.names[v.toIndex]? ≠ some name := by
            rw [Ne, ← o.positions_iff]
            unfold lookup? at hnew
            simp [hnew]
          have hne : next ≠ v := by
            intro e
            exact hv (e ▸ Variable.toIndex_atIndex hlt)
          simp [hv, this, hne]
        · simp [hv, hs, o.positions_iff] }

/-- Adds names one by one, up to the first that is already there. -/
def pushAll (o : VarOrder) :
    (names : List String) → o.names.size + names.length ≤ maxVariables →
      Except InputError VarOrder
  | [], _ => .ok o
  | name :: rest, h =>
    match hnew : o.lookup? name with
    | some _ => .error (.duplicateVariable name)
    | none =>
      (o.push name hnew (by simp only [List.length_cons] at h; omega)).pushAll rest
        (by simp only [List.length_cons, push, Array.size_push] at h ⊢; omega)

/-- The order with the given names, which have to be distinct and not too many. -/
def ofNames (names : List String) : Except InputError VarOrder :=
  if h : names.length ≤ maxVariables then
    empty.pushAll names (by simpa [empty] using h)
  else
    .error (.tooManyVariables names.length maxVariables)

/-! ### Named values -/

/-- The cube that fixes the named variables, taking the pairs in order.  The first
name that is not in the order is an error; a later value replaces an earlier one. -/
def cubeOf (o : VarOrder) (pairs : List (String × Bool)) : Except InputError Cube :=
  go ∅ pairs
where
  /-- Adds the remaining pairs to the cube read so far. -/
  go (c : Cube) : List (String × Bool) → Except InputError Cube
    | [] => .ok c
    | (name, value) :: rest =>
      match o.lookup? name with
      | some v => go (c.set v value) rest
      | none => .error (.unknownVariable name)

end VarOrder

end DecisionDiagram
