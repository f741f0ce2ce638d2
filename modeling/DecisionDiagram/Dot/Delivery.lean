import DecisionDiagram.Dot.Export

/-!
# Delivering a drawing

A drawing may be written to a place that has room for a limited number of bytes.
What arrives there is the beginning of the text, and the delivery is complete if
nothing had to be left out.
-/

namespace DecisionDiagram

/-- What arrived of a text. -/
structure Delivery where
  /-- Whether the whole text arrived. -/
  complete : Bool
  /-- The number of bytes that arrived. -/
  bytes : Nat
  /-- The characters that arrived whole. -/
  text : String
  deriving DecidableEq, Repr

namespace Delivery

/-- Appends characters as long as each fits whole into the room that is left. -/
def fill (room : Nat) (taken : String) : List Char → String
  | [] => taken
  | c :: rest =>
    if c.utf8Size ≤ room then fill (room - c.utf8Size) (taken.push c) rest else taken

/-- Delivers a text to a place with room for the given number of bytes. -/
def ofText (room : Nat) (text : String) : Delivery where
  complete := text.utf8ByteSize ≤ room
  bytes := min text.utf8ByteSize room
  text := fill room "" text.toList

end Delivery

/-- Writes the drawing of a diagram to a place with limited room. -/
def Diagram.deliverDot (d : Diagram) (pruned : Bool) (room : Nat) : Except Fault Delivery :=
  Delivery.ofText room <$> d.toDot pruned

end DecisionDiagram
