import MethodLowering.Reader.Basic

/-!
# Turns of the reader

A run of the reader is a sequence of turns, one step of the top frame each, and ends when the top
frame waits or rejects its text.  A run that ends within its limit does not depend on the limit.
-/

namespace MethodLowering
namespace Reader

/-- What one step of the top frame does to the reader. -/
inductive Turn where
  /-- Nothing is open, or the top frame needs more text. -/
  | rest (reader : Reader)
  /-- The top frame rejects its text. -/
  | fail (failure : Failure) (reader : Reader)
  /-- The step is taken. -/
  | move (reader : Reader)

/-- The next turn. -/
def turn (finishing : Bool) (reader : Reader) : Turn :=
  match reader.stack with
  | [] => .rest reader
  | frame :: stack =>
      match step finishing frame (Text.trimStart reader.leftover) reader.body with
      | .error failure body => .fail failure { reader with body }
      | .ok .needMore body => .rest { reader with body }
      | .ok (.advance frame rest) body =>
          .move { body, stack := frame :: stack, leftover := rest }
      | .ok (.enter frame child rest) body =>
          .move { body, stack := child :: frame :: stack, leftover := rest }
      | .ok (.leave rest) body => .move { body, stack, leftover := rest }

/-- The reader comes to rest, or fails, in fewer than `count` steps taken. -/
def settles (finishing : Bool) : Nat → Reader → Bool
  | 0, _ => false
  | count + 1, reader =>
      match reader.turn finishing with
      | .move next => settles finishing count next
      | .rest _ | .fail _ _ => true

/-- The reader with one more line waiting. -/
def fed (reader : Reader) (line : List Char) : Reader :=
  { reader with
    leftover := if reader.leftover.isEmpty then line else reader.leftover ++ ' ' :: line }

/-- No line that is fed makes the reader take the largest allowed number of steps. -/
def settlesOn : List String → Reader → Bool
  | [], _ => true
  | line :: rest, reader =>
      settles false Limits.stepsPerFeed (reader.fed line.toList) &&
        match feed line.toList reader with
        | .ok _ next => settlesOn rest next
        | .error _ _ => true

theorem run_succ (finishing : Bool) (count : Nat) (reader : Reader) :
    run finishing (count + 1) reader = match reader.turn finishing with
      | .rest next => .ok () next
      | .fail failure next => .error failure next
      | .move next => run finishing count next := by
  obtain ⟨body, stack, leftover⟩ := reader
  cases stack with
  | nil => rfl
  | cons frame stack =>
      simp only [run, turn]
      cases step finishing frame (Text.trimStart leftover) body with
      | error failure after => rfl
      | ok outcome after => cases outcome <;> rfl

theorem feed_eq_run (line : List Char) (reader : Reader) :
    feed line reader = run false Limits.stepsPerFeed (reader.fed line) := rfl

theorem feedAll_cons (line : String) (rest : List String) (reader : Reader) :
    feedAll (line :: rest) reader = match feed line.toList reader with
      | .ok _ next => feedAll rest next
      | .error failure next => .error failure next := by
  rw [feedAll]
  cases outcome : feed line.toList reader with
  | ok result next => simp [bind, EStateM.bind, outcome]
  | error failure next => simp [bind, EStateM.bind, outcome]

theorem run_eq_of_settles {finishing : Bool} {first second : Nat} {reader : Reader}
    (left : settles finishing first reader) (right : settles finishing second reader) :
    run finishing first reader = run finishing second reader := by
  induction first generalizing second reader with
  | zero => simp [settles] at left
  | succ first induction =>
      cases second with
      | zero => simp [settles] at right
      | succ second =>
          rw [run_succ, run_succ]
          rw [settles] at left right
          cases taken : reader.turn finishing with
          | rest next => rfl
          | fail failure next => rfl
          | move next =>
              rw [taken] at left right
              exact induction left right

end Reader
end MethodLowering
