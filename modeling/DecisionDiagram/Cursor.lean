import DecisionDiagram.Failure

/-!
# Cursors

A cursor is a state from which items are drawn one at a time.  Drawing gives the
next item with the state after it, or nothing at the end; it may also meet a
fault.  `Cursor.take` draws up to a given number of items and tells whether the
end was seen.  `Cursor.Yields` says what a cursor delivers altogether.
-/

namespace DecisionDiagram

/-- States from which items can be drawn one at a time. -/
class Cursor (σ : Type u) (α : outParam (Type v)) where
  /-- The next item and the state after it, or nothing at the end. -/
  next : σ → Except Fault (Option (α × σ))

/-- The items drawn from a cursor, and what is left of it. -/
structure Batch (σ : Type u) (α : Type v) where
  /-- The items, in the order of drawing. -/
  items : List α
  /-- Whether the last draw found the end. -/
  exhausted : Bool
  /-- The state after the last draw. -/
  rest : σ

namespace Cursor

variable {σ : Type u} {α : Type v} [Cursor σ α]

/-- Draws items until there are `limit` of them or the end is found. With `limit`
items at hand the cursor is not asked again, so the end may remain unseen. -/
def take (limit : Nat) (s : σ) : Except Fault (Batch σ α) :=
  go limit s []
where
  /-- Draws up to `k` items onto those in `taken`, the last of which comes first. -/
  go : Nat → σ → List α → Except Fault (Batch σ α)
    | 0, s, taken => .ok ⟨taken.reverse, false, s⟩
    | k + 1, s, taken =>
      match next s with
      | .error fault => .error fault
      | .ok none => .ok ⟨taken.reverse, true, s⟩
      | .ok (some (a, s)) => go k s (a :: taken)

/-- The item after the first `n`, or nothing if the end comes before it. -/
def get? : (n : Nat) → σ → Except Fault (Option α)
  | n, s =>
    match next s with
    | .error fault => .error fault
    | .ok none => .ok none
    | .ok (some (a, s)) =>
      match n with
      | 0 => .ok (some a)
      | n + 1 => get? n s

/-- The cursor delivers exactly the listed items, in that order, and then ends. -/
inductive Yields : σ → List α → Prop
  /-- Nothing is left. -/
  | done {s : σ} : next s = .ok none → Yields s []
  /-- One item is drawn and the others follow. -/
  | more {s s' : σ} {a : α} {l : List α} :
    next s = .ok (some (a, s')) → Yields s' l → Yields s (a :: l)

/-- What a cursor delivers is determined by its state. -/
theorem Yields.unique {s : σ} {l l' : List α} (h : Yields s l) (h' : Yields s l') : l = l' := by
  induction h generalizing l' with
  | done hn =>
    cases h' with
    | done => rfl
    | more hn' => rw [hn] at hn'; cases hn'
  | more hn _ ih =>
    cases h' with
    | done hn' => rw [hn] at hn'; cases hn'
    | more hn' hl =>
      rw [hn] at hn'
      cases hn'
      rw [ih hl]

end Cursor

end DecisionDiagram
