import MethodLowering.Body.Lifting
import MethodLowering.Reader.Construct
import MethodLowering.Reader.Paragraph

/-!
# Reading a body line by line

The reader takes one line at a time.  Text that the top frame cannot use yet waits for the next
line; when the text has ended, what is still open is closed or rejected.
-/

namespace MethodLowering

/-- A body being read. -/
structure Reader where
  body : Body
  /-- Open frames, the top one first. -/
  stack : List Frame
  /-- Text not used yet. -/
  leftover : List Char := []

namespace Reader

/-- Reading lines: a failure leaves the reader where it was, apart from the body. -/
abbrev LineM := EStateM Failure Reader

/-- A reader before its first line. -/
def initial (context : Context) (options : Options) : Reader :=
  { body := Body.initial context options, stack := [.ofParagraph Body.root .root] }

/-- Number of open frames. -/
def depth (reader : Reader) : Nat := reader.stack.length

/-- Only the method body is open, and no text waits. -/
def isIdle (reader : Reader) : Bool :=
  reader.stack.length == 1 && (Text.trim reader.leftover).isEmpty

/-- A step of any frame. -/
def step (finishing : Bool) (frame : Frame) (text : List Char) : ReadM Step :=
  match frame with
  | .paragraph frame => stepParagraph finishing frame text
  | .construct frame => stepConstruct finishing frame text

/-- Take steps until the top frame needs more text; at most `count` of them. -/
def run (finishing : Bool) : Nat → LineM Unit
  | 0 => fun reader =>
      .error (.malformed (.resolveStalled (String.ofList reader.leftover))) reader
  | count + 1 => fun reader =>
      match reader.stack with
      | [] => .ok () reader
      | frame :: stack =>
          match step finishing frame (Text.trimStart reader.leftover) reader.body with
          | .error failure body => .error failure { reader with body }
          | .ok .needMore body => .ok () { reader with body }
          | .ok (.advance frame rest) body =>
              run finishing count { body, stack := frame :: stack, leftover := rest }
          | .ok (.enter frame child rest) body =>
              run finishing count { body, stack := child :: frame :: stack, leftover := rest }
          | .ok (.leave rest) body => run finishing count { body, stack, leftover := rest }

/-- Feed one line.  Lines are joined with a blank. -/
def feed (line : List Char) : LineM Unit := do
  modify fun reader =>
    { reader with
      leftover := if reader.leftover.isEmpty then line else reader.leftover ++ ' ' :: line }
  run false Limits.stepsPerFeed

/-- Run after the end of the text until the reader is idle, with `retries` further attempts. -/
def drain : Nat → LineM Unit
  | 0 => run true Limits.stepsPerFeed
  | retries + 1 => do
      run true Limits.stepsPerFeed
      if (← get).isIdle then return () else drain retries

/-- What is left when the text has ended: the waiting text, or what the top frame waits for. -/
def unfinished (reader : Reader) : String :=
  let leftover := Text.trim reader.leftover
  if leftover.isEmpty then (reader.stack.head?.map Frame.describe).getD ""
  else String.ofList leftover

/-- Close the body and make types from its anonymous class bodies. -/
def finish : LineM Body := do
  drain Limits.finishRetries
  let reader ← get
  if reader.isIdle then return reader.body.lift
  else throw (.malformed (.unterminatedInput reader.unfinished))

/-- Feed several lines. -/
def feedAll : List String → LineM Unit
  | [] => return ()
  | line :: rest => do
      feed line.toList
      feedAll rest

end Reader

/-- The body that the lines of a method hold. -/
def Body.ofLines (context : Context) (options : Options) (lines : List String) :
    Except Failure Body :=
  match (do Reader.feedAll lines; Reader.finish) (Reader.initial context options) with
  | .ok body _ => .ok body
  | .error failure _ => .error failure

end MethodLowering
