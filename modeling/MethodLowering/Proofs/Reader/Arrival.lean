import MethodLowering.Proofs.Reader.Sticking

/-!
# Reading up to the end of the text

Where no more text comes, the reader takes its steps in one run.  The run over a line and the run
behind the last line are together the same as this one: the first stops where the end of the text
matters, and the second goes on from there.
-/

namespace MethodLowering
namespace Reader

/-- The reader takes this number of steps at the end of the text and is then like `final`. -/
def Arrives : Nat → Reader → Reader → Prop
  | 0, reader, final => Alike reader final
  | count + 1, reader, final => ∃ next, reader.turn true = .move next ∧ Arrives count next final

section

variable {count further limit : Nat} {reader between final next : Reader}

theorem Alike.trans (first : Alike reader between) (second : Alike between final) :
    Alike reader final :=
  ⟨first.body.trans second.body, first.stack.trans second.stack,
    first.leftover.trans second.leftover⟩

theorem Arrives.nil (alike : Alike reader final) : Arrives 0 reader final := alike

theorem Arrives.of_alike (alike : Alike reader between) (arrives : Arrives count between final) :
    Arrives count reader final := by
  cases count with
  | zero => exact alike.trans arrives
  | succ count =>
      obtain ⟨next, moves, later⟩ := arrives
      have turns := turn_alike true alike
      rw [moves] at turns
      generalize taken : reader.turn true = turn at turns
      cases turns with
      | move next => exact ⟨next, taken, later⟩

theorem Arrives.trans (first : Arrives count reader between)
    (second : Arrives further between final) :
    Arrives (count + further) reader final := by
  induction count generalizing reader with
  | zero =>
      rw [Nat.zero_add]
      exact second.of_alike first
  | succ count induction =>
      obtain ⟨next, moves, later⟩ := first
      rw [Nat.add_right_comm]
      exact ⟨next, moves, induction later⟩

/-! ## Single steps -/

section

variable {body after : Body} {frame upper child : Frame} {stack : List Frame}
  {text rest : List Char}

theorem Arrives.advance (took : step true frame (Text.trimStart text) body =
      .ok (.advance upper rest) after) (later : Arrives count ⟨after, upper :: stack, rest⟩ final) :
    Arrives (count + 1) ⟨body, frame :: stack, text⟩ final :=
  ⟨_, by simp only [turn, took], later⟩

theorem Arrives.enter
    (took : step true frame (Text.trimStart text) body = .ok (.enter upper child rest) after)
    (later : Arrives count ⟨after, child :: upper :: stack, rest⟩ final) :
    Arrives (count + 1) ⟨body, frame :: stack, text⟩ final :=
  ⟨_, by simp only [turn, took], later⟩

theorem Arrives.leave (took : step true frame (Text.trimStart text) body = .ok (.leave rest) after)
    (later : Arrives count ⟨after, stack, rest⟩ final) :
    Arrives (count + 1) ⟨body, frame :: stack, text⟩ final :=
  ⟨_, by simp only [turn, took], later⟩

end

/-! ## Whole runs -/

/-- Blanks in front of the text do not matter. -/
theorem Arrives.blank {body : Body} {stack : List Frame} {text : List Char}
    (arrives : Arrives count ⟨body, stack, text⟩ final) :
    Arrives count ⟨body, stack, ' ' :: text⟩ final := by
  have alike : Alike ⟨body, stack, ' ' :: text⟩ ⟨body, stack, text⟩ :=
    ⟨rfl, rfl, Text.trimStart_space text⟩
  exact arrives.of_alike alike

/-- The blanks in front of the text may be gone. -/
theorem Arrives.trimmed {body : Body} {stack : List Frame} {text : List Char}
    (arrives : Arrives count ⟨body, stack, text⟩ final) :
    Arrives count ⟨body, stack, Text.trimStart text⟩ final := by
  have alike : Alike ⟨body, stack, Text.trimStart text⟩ ⟨body, stack, text⟩ :=
    ⟨rfl, rfl, Text.trimStart_trimStart text⟩
  exact arrives.of_alike alike

/-- A reader that arrives where it rests does so in one run. -/
theorem Arrives.run (arrives : Arrives count reader final) (rests : final.turn true = .rest final)
    (enough : count < limit) : ∃ last, run true limit reader = .ok () last ∧ Alike last final := by
  induction count generalizing reader limit with
  | zero =>
      obtain ⟨limit, rfl⟩ := Nat.exists_eq_succ_of_ne_zero (Nat.ne_of_gt enough)
      have turns := turn_alike true arrives
      rw [rests] at turns
      generalize taken : reader.turn true = turn at turns
      cases turns with
      | rest alike => exact ⟨_, by rw [Nat.succ_eq_add_one, run_succ, taken], alike⟩
  | succ count induction =>
      obtain ⟨limit, rfl⟩ := Nat.exists_eq_succ_of_ne_zero (Nat.ne_of_gt (Nat.zero_lt_of_lt enough))
      obtain ⟨next, moves, later⟩ := arrives
      rw [Nat.succ_eq_add_one, run_succ, moves]
      exact induction later (Nat.lt_of_succ_lt_succ enough)

/-- While more text may come, the reader either rests or does what it does at the end. -/
theorem turn_closes (reader : Reader) :
    reader.turn false = .rest reader ∨ reader.turn false = reader.turn true := by
  obtain ⟨body, stack, leftover⟩ := reader
  cases stack with
  | nil => exact .inl rfl
  | cons frame stack =>
      have closes : Closes (step false frame (Text.trimStart leftover))
          (step true frame (Text.trimStart leftover)) := by
        cases frame with
        | paragraph frame => exact stepParagraph_closes
        | construct frame => exact stepConstruct_closes
      rcases closes body with ⟨after, waits⟩ | same
      · left
        have rests : turn false ⟨body, frame :: stack, leftover⟩ =
            .rest ⟨after, frame :: stack, leftover⟩ := by
          simp only [turn, waits]
        rw [rests, turn_rest rests]
      · right
        simp only [turn, same]

/-- The run over the last line stops on the way, and a second run arrives. -/
theorem Arrives.run_false (arrives : Arrives count reader final)
    (rests : final.turn true = .rest final) (enough : count < limit) :
    ∃ middle, Reader.run false limit reader = .ok () middle ∧
      ∃ left, left ≤ count ∧ Arrives left middle final := by
  induction count generalizing reader limit with
  | zero =>
      obtain ⟨limit, rfl⟩ := Nat.exists_eq_succ_of_ne_zero (Nat.ne_of_gt enough)
      refine ⟨reader, ?_, 0, Nat.le_refl 0, arrives⟩
      rw [Nat.succ_eq_add_one, run_succ]
      rcases turn_closes reader with waits | same
      · rw [waits]
      · have turns := turn_alike true arrives
        rw [rests, ← same] at turns
        generalize taken : reader.turn false = turn at turns
        cases turns with
        | rest alike => rw [turn_rest taken]
  | succ count induction =>
      obtain ⟨limit, rfl⟩ := Nat.exists_eq_succ_of_ne_zero (Nat.ne_of_gt (Nat.zero_lt_of_lt enough))
      obtain ⟨next, moves, later⟩ := arrives
      rw [Nat.succ_eq_add_one, run_succ]
      rcases turn_closes reader with waits | same
      · rw [waits]
        exact ⟨reader, rfl, count + 1, Nat.le_refl _, next, moves, later⟩
      · rw [same, moves]
        obtain ⟨middle, ran, left, fewer, arrives⟩ :=
          induction later (Nat.lt_of_succ_lt_succ enough)
        exact ⟨middle, ran, left, Nat.le_succ_of_le fewer, arrives⟩

end
end Reader

/-- A text on one line gives the body with which the reader arrives, types lifted. -/
theorem Body.ofLines_of_arrives {context : Context} {options : Options}
    {text : String} {count : Nat} {final : Reader}
    (arrives : Reader.Arrives count ⟨Body.initial context options,
      [.ofParagraph Body.root .root], text.toList⟩ final)
    (rests : final.turn true = .rest final) (idle : final.isIdle = true)
    (enough : count < Limits.stepsPerFeed) :
    Body.ofLines context options [text] = .ok final.body.lift := by
  obtain ⟨middle, fed, left, fewer, later⟩ := arrives.run_false rests enough
  obtain ⟨last, ran, alike⟩ := later.run rests (Nat.lt_of_le_of_lt fewer enough)
  have idle' : last.isIdle = true := by rw [Reader.isIdle_alike alike, idle]
  have drained : Reader.drain Limits.finishRetries middle = .ok () last := by
    rw [Limits.finishRetries, Reader.drain]
    simp only [bind, EStateM.bind, ran, get_apply, idle', if_true]
    rfl
  have finished : Reader.finish middle = .ok last.body.lift last := by
    rw [Reader.finish]
    simp only [bind, EStateM.bind, drained, get_apply, idle', if_true]
    rfl
  have single : Reader.feedAll [text] (Reader.initial context options) = .ok () middle := by
    rw [Reader.feedAll_cons, Reader.feed_eq_run]
    have same : (Reader.initial context options).fed text.toList =
        ⟨Body.initial context options, [.ofParagraph Body.root .root], text.toList⟩ := rfl
    rw [same, fed]
    rfl
  rw [Body.ofLines]
  simp only [bind, EStateM.bind, single, finished]
  rw [alike.body]

end MethodLowering
