/-!
# Spans

A span is a half-open range of character positions in one statement text.  Positions count
characters, so a span indexes the ledger of that text directly.
-/

namespace MethodLowering

/-- The half-open range of positions from `start` up to, not including, `stop`. -/
structure Span where
  /-- First position of the span. -/
  start : Nat
  /-- Position after the last one. -/
  stop : Nat
deriving DecidableEq, Repr, Inhabited

namespace Span

/-- Number of positions; a span that ends before it starts has none. -/
def length (span : Span) : Nat := span.stop - span.start

/-- The span holds no position. -/
def isEmpty (span : Span) : Bool := span.stop ≤ span.start

/-- Both ends of `inner` lie inside the span. -/
def covers (span inner : Span) : Bool :=
  span.start ≤ inner.start && inner.stop ≤ span.stop

/-- The position lies inside the span. -/
def contains (span : Span) (position : Nat) : Bool :=
  span.start ≤ position && position < span.stop

/-- The least span that covers both. -/
def join (left right : Span) : Span :=
  ⟨min left.start right.start, max left.stop right.stop⟩

/-- Written form, as in `2..7`. -/
def text (span : Span) : String :=
  toString span.start ++ ".." ++ toString span.stop

/-- The characters of `text` at the positions of the span. -/
def slice (span : Span) (text : List Char) : List Char :=
  (text.drop span.start).take span.length

theorem covers_iff (outer inner : Span) :
    outer.covers inner ↔ outer.start ≤ inner.start ∧ inner.stop ≤ outer.stop := by
  simp only [covers, Bool.and_eq_true, decide_eq_true_eq]

end Span
end MethodLowering
