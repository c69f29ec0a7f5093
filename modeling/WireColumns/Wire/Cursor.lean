import WireColumns.Wire.Read

/-! # Cursors

A cursor is a position in a byte string. A read moves it behind the bytes it takes, also when it
fails. The position never passes the end.
-/

namespace WireColumns

/-- A position in a byte string. -/
structure Cursor where
  buffer : Bytes
  position : Nat
  position_le : position ≤ buffer.length

namespace Cursor

/-- The start of a byte string. -/
def start (buffer : Bytes) : Cursor := ⟨buffer, 0, Nat.zero_le _⟩

/-- The bytes from the position on. -/
def rest (c : Cursor) : Bytes := c.buffer.drop c.position

def remaining (c : Cursor) : Nat := c.buffer.length - c.position

def isAtEnd (c : Cursor) : Bool := c.buffer.length ≤ c.position

/-- Moves to a position, or to the end if that lies behind it. -/
def moveTo (c : Cursor) (position : Nat) : Cursor :=
  ⟨c.buffer, min position c.buffer.length, Nat.min_le_right ..⟩

/-- The bytes from `start` up to the position. -/
def sliceFrom (c : Cursor) (start : Nat) : Bytes :=
  (c.buffer.take c.position).drop (min start c.position)

/-- Reads from the position on and moves behind what was taken. -/
def run {α : Type} (c : Cursor) (r : Read α) : Except Corruption α × Cursor :=
  match r c.rest with
  | .ok a rest => (.ok a, c.moveTo (c.buffer.length - rest.length))
  | .error e rest => (.error e, c.moveTo (c.buffer.length - rest.length))

end Cursor

end WireColumns
