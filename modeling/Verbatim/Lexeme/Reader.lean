import Verbatim.Lexeme.Cursor

/-! # Readers

A reader hands out the tokens of a source text one at a time and shows the next one beforehand.
Its cursor is one token ahead of what was handed out.
-/

namespace Verbatim

structure Reader where
  next : Option Token
  cursor : Cursor
  deriving DecidableEq, Repr

namespace Reader

/-- A reader that has the next token of `c` at hand, if there is one. -/
def ofCursor (c : Cursor) : Reader :=
  if c.finished then ⟨none, c⟩ else ⟨some c.nextToken.1, c.nextToken.2⟩

def ofString (source : String) : Reader :=
  ofCursor (Cursor.ofString source)

variable (r : Reader)

def finished : Bool :=
  r.next.isNone

def peek : Option Token :=
  r.next

def consume : Option Token × Reader :=
  (r.next, ofCursor r.cursor)

def remaining : Nat :=
  r.cursor.rest.length + if r.finished then 0 else 1

theorem remaining_ofCursor_le (c : Cursor) : (ofCursor c).remaining ≤ c.rest.length := by
  by_cases h : c.finished
  · simp [ofCursor, remaining, finished, h]
  · have := c.length_rest_nextToken_lt h
    simp only [ofCursor, remaining, finished, h]
    simp
    omega

theorem remaining_consume_lt (h : ¬ r.finished) : r.consume.2.remaining < r.remaining := by
  have := remaining_ofCursor_le r.cursor
  have : r.remaining = r.cursor.rest.length + 1 := by simp [remaining, h]
  simp only [consume]
  omega

def drain (r : Reader) : List Token × Reader :=
  if r.finished then ([], r)
  else
    let (tokens, r') := r.consume.2.drain
    (r.next.toList ++ tokens, r')
termination_by r.remaining
decreasing_by exact r.remaining_consume_lt ‹_›

end Reader

end Verbatim
