import MethodLowering.Proofs.Reader.Stacking
import MethodLowering.Proofs.Reader.Growth

/-!
# Why reading stops

Reading lines fails only where a step does, or where text is left or a limit is reached.  So it
fails because the text is malformed, or because a tree that was just read asks for a member of a
class that is missing.
-/

namespace MethodLowering

open Body

namespace Reader

/-- Why the reader stops in this way: the text is malformed, or a step of a reader that it reaches
fails. -/
def Halts (reader : Reader) (failure : Failure) (last : Reader) : Prop :=
  (∃ error, failure = .malformed error) ∨ ∃ between finishing, Reaches reader between ∧
    between.turn finishing = .fail failure last

section

variable {reader between last : Reader} {failure : Failure} {finishing : Bool}

theorem Halts.before (reaches : Reaches reader between) (halts : between.Halts failure last) :
    reader.Halts failure last := by
  rcases halts with malformed | ⟨other, finishing, later, failed⟩
  · exact .inl malformed
  · exact .inr ⟨other, finishing, reaches.trans later, failed⟩

/-- A reader that stops at a question has the context it started with, and the question is about the
tree that was just read. -/
theorem Halts.stops {fault : Fault} {last : Reader} (halts : reader.Halts (.undefined fault) last)
    (same : ∀ next, Reaches reader next → next.body.context = reader.body.context) :
    last.body.context = reader.body.context ∧ Stops (.undefined fault) last.body := by
  rcases halts with ⟨_, malformed⟩ | ⟨between, finishing, reaches, failed⟩
  · contradiction
  · obtain ⟨-, frame, text, taken⟩ := turn_eq_fail failed
    obtain ⟨keeps, stops⟩ := step_declines frame _ _ _ taken
    exact ⟨keeps.context.trans (same between reaches), stops⟩

end

/-- Reading lines does not change the context. -/
theorem Reaches.context {context : Context} {options : Options} {reader : Reader}
    (reached : Reaches (Reader.initial context options) reader) :
    reader.body.context = (Reader.initial context options).body.context :=
  (reached.since (since_initial context options)).edits.extends.context

end Reader

end MethodLowering
