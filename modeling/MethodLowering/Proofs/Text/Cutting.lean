import MethodLowering.Proofs.Text.Growth

/-!
# Class bodies can be taken out

The class bodies that a cut lists lie in front of its end, one behind the other.  So they can always
be taken out of the statement.  Each of them reaches from one curly bracket to another and has more
than blanks between it and the class body before.
-/

namespace MethodLowering
namespace Text

/-- The spans lie between two positions, one behind the other. -/
def Ordered : Nat → Nat → List Span → Prop
  | low, high, [] => low ≤ high
  | low, high, span :: rest => low ≤ span.start ∧ span.start ≤ span.stop ∧
      Ordered span.stop high rest

section

variable {low middle high : Nat} {spans : List Span}

theorem Ordered.le (ordered : Ordered low high spans) : low ≤ high := by
  induction spans generalizing low with
  | nil => exact ordered
  | cons span rest induction =>
      exact Nat.le_trans (Nat.le_trans ordered.1 ordered.2.1) (induction ordered.2.2)

theorem Ordered.mono (ordered : Ordered low middle spans) (above : middle ≤ high) :
    Ordered low high spans := by
  induction spans generalizing low with
  | nil => exact Nat.le_trans ordered above
  | cons span rest induction => exact ⟨ordered.1, ordered.2.1, induction ordered.2.2⟩

/-- One more span behind the others. -/
theorem Ordered.snoc (ordered : Ordered low middle spans) (above : middle ≤ high) :
    Ordered low high (spans ++ [⟨middle, high⟩]) := by
  induction spans generalizing low with
  | nil => exact ⟨ordered, above, Nat.le_refl high⟩
  | cons span rest induction => exact ⟨ordered.1, ordered.2.1, induction ordered.2.2⟩

theorem removeFrom?_isSome {text : List Char} (ordered : Ordered low high spans)
    (inside : high ≤ text.length) : (removeFrom? text low spans).isSome := by
  induction spans generalizing low with
  | nil => simp [removeFrom?, Nat.le_trans ordered inside]
  | cons span rest induction =>
      obtain ⟨front, forward, behind⟩ := ordered
      have reached := Nat.le_trans forward (Nat.le_trans behind.le inside)
      simp [removeFrom?, front, reached, induction behind]

end

/-- The class bodies that are closed lie in front of the one being read, and that one starts in
front of the position. -/
def CutState.Fits (state : CutState) (position : Nat) : Prop :=
  match state.body with
  | none => Ordered 0 position state.bodies
  | some (start, _) => Ordered 0 start state.bodies ∧ start ≤ position

section

variable {state : CutState} {position : Nat}

/-- Only the class bodies matter. -/
theorem CutState.Fits.next {other : CutState} (fits : state.Fits position)
    (body : other.body = state.body) (bodies : other.bodies = state.bodies) :
    other.Fits (position + 1) := by
  unfold Fits at fits ⊢
  rw [body, bodies]
  split at fits
  · exact fits.mono (Nat.le_succ _)
  · exact ⟨fits.1, Nat.le_succ_of_le fits.2⟩

theorem CutState.Fits.openBrace (fits : state.Fits position) :
    (state.openBrace position).Fits (position + 1) := by
  by_cases starts : (state.body.isNone && state.last == some ')') = true
  · have outside : state.body = none := by
      rw [Bool.and_eq_true, Option.isNone_iff_eq_none] at starts
      exact starts.1
    have ordered : Ordered 0 position state.bodies := by simpa [Fits, outside] using fits
    simpa [Fits, CutState.openBrace, starts] using ordered
  · exact fits.next (if_neg starts) rfl

theorem CutState.Fits.close (fits : state.Fits position) (c : Char) :
    (state.close c position).Fits (position + 1) := by
  cases inside : state.body with
  | none => exact fits.next (by simp [CutState.close, inside]) (by simp [CutState.close, inside])
  | some entry =>
      obtain ⟨start, depth⟩ := entry
      by_cases ends : (c == '}' && depth == state.depth - 1) = true
      · have known : Ordered 0 start state.bodies ∧ start ≤ position := by
          simpa [Fits, inside] using fits
        have longer := known.1.snoc (Nat.le_succ_of_le known.2)
        simpa [Fits, CutState.close, inside, ends] using longer
      · exact fits.next (by simp [CutState.close, inside, ends])
          (by simp [CutState.close, inside, ends])

end

theorem CutState.Fits.ordered {state : CutState} {position : Nat} (fits : state.Fits position) :
    Ordered 0 position state.bodies := by
  unfold Fits at fits
  split at fits
  · exact fits
  · exact fits.1.mono fits.2

/-- The class bodies of a statement lie in front of its end. -/
theorem cutFrom_ordered {terminator : Char} {state : CutState} {position : Nat} {text : List Char}
    {cut : Cut} (fits : state.Fits position)
    (found : cutFrom terminator state position text = .found cut) :
    Ordered 0 cut.stop cut.classBodies := by
  induction text generalizing state position with
  | nil => contradiction
  | cons c rest induction =>
      unfold cutFrom at found
      split_ifs at found
      · refine induction (fits.next ?_ ?_) found <;> rfl
      · refine induction (fits.next ?_ ?_) found <;> rfl
      · obtain rfl := CutSearch.found.inj found
        exact fits.ordered
      · exact induction fits.openBrace found
      · refine induction (fits.next ?_ ?_) found <;> rfl
      · exact induction (fits.close c) found
      · refine induction (fits.next ?_ ?_) found <;> rfl

/-- The class bodies that a search finds can be taken out of the statement. -/
theorem removeSpans?_isSome {terminator : Char} {text : List Char} {cut : Cut}
    (found : findCut terminator text = .found cut) :
    (removeSpans? (text.take cut.stop) cut.classBodies).isSome := by
  have start : CutState.Fits {} 0 := Nat.le_refl 0
  have ordered := cutFrom_ordered start found
  have ends := cutFrom_endsWithin terminator {} 0 text
  rw [show cutFrom terminator {} 0 text = .found cut from found] at ends
  have inside : cut.stop < 0 + text.length := ends.2
  refine removeFrom?_isSome ordered ?_
  rw [List.length_take]
  omega

/-! ## Where class bodies stand -/

/-- A character that is not blank stands at one of the positions. -/
def SolidWithin (text : List Char) (low high : Nat) : Prop :=
  ∃ position c, low ≤ position ∧ position < high ∧ text[position]? = some c ∧ isBlank c = false

/-- The text at a span reaches from an opening curly bracket to another, closing one. -/
structure IsBraced (text : List Char) (span : Span) : Prop where
  opens : text[span.start]? = some '{'
  closes : text[span.stop - 1]? = some '}'
  long : span.start + 1 < span.stop

/-- Where the last of the spans ends; `low` when there is none. -/
def reached : Nat → List Span → Nat
  | low, [] => low
  | _, span :: rest => reached span.stop rest

/-- The spans are braced, and more than blanks stands in front of each. -/
def Apart (text : List Char) : Nat → List Span → Prop
  | _, [] => True
  | low, span :: rest =>
      SolidWithin text low span.start ∧ IsBraced text span ∧ Apart text span.stop rest

section

variable {text : List Char} {low middle high : Nat} {spans front back : List Span} {span : Span}

theorem SolidWithin.mono (solid : SolidWithin text low middle) (above : middle ≤ high) :
    SolidWithin text low high := by
  obtain ⟨position, c, after, before, here, visible⟩ := solid
  exact ⟨position, c, after, Nat.lt_of_lt_of_le before above, here, visible⟩

theorem Ordered.reached_le (ordered : Ordered low high spans) : reached low spans ≤ high := by
  induction spans generalizing low with
  | nil => exact ordered
  | cons span rest induction => exact induction ordered.2.2

theorem Apart.snoc (apart : Apart text low spans)
    (solid : SolidWithin text (reached low spans) span.start) (braced : IsBraced text span) :
    Apart text low (spans ++ [span]) := by
  induction spans generalizing low with
  | nil => exact ⟨solid, braced, trivial⟩
  | cons first rest induction => exact ⟨apart.1, apart.2.1, induction apart.2.2 solid⟩

theorem Apart.append_right (apart : Apart text low (front ++ back)) :
    Apart text (reached low front) back := by
  induction front generalizing low with
  | nil => exact apart
  | cons first rest induction => exact induction apart.2.2

theorem Apart.braced (apart : Apart text low spans) (member : span ∈ spans) :
    IsBraced text span := by
  induction spans generalizing low with
  | nil => contradiction
  | cons first rest induction =>
      rcases List.mem_cons.1 member with rfl | later
      · exact apart.2.1
      · exact induction apart.2.2 later

/-- What a braced span holds, brackets included. -/
theorem IsBraced.slice (braced : IsBraced text span) :
    ∃ inner, span.slice text = '{' :: inner ++ ['}'] := by
  obtain ⟨opens, closes, long⟩ := braced
  have start := (List.getElem?_eq_some_iff.1 opens).1
  have stop := (List.getElem?_eq_some_iff.1 closes).1
  refine ⟨(text.drop (span.start + 1)).take (span.stop - span.start - 2), ?_⟩
  have first : text.drop span.start = '{' :: text.drop (span.start + 1) := by
    rw [List.drop_eq_getElem_cons start, List.getElem?_eq_some_iff.1 opens |>.2]
  have length : span.length = span.stop - span.start - 2 + 1 + 1 := by
    rw [Span.length]
    omega
  have last : (text.drop (span.start + 1))[span.stop - span.start - 2]? = some '}' := by
    rw [List.getElem?_drop, ← closes]
    congr 1
    omega
  rw [Span.slice, first, length, List.take_succ_cons, List.take_add_one, last]
  rfl

end

/-- The class bodies that are closed stand apart, the one being read started at an opening bracket,
and a closing round bracket that was read last stands behind the class bodies. -/
def CutState.Sees (text : List Char) (state : CutState) (position : Nat) : Prop :=
  Apart text 0 state.bodies ∧ match state.body with
    | none => state.last = some ')' → SolidWithin text (reached 0 state.bodies) position
    | some (start, _) =>
        SolidWithin text (reached 0 state.bodies) start ∧ text[start]? = some '{'

section

variable {text : List Char} {state : CutState} {position : Nat} {c : Char}

section

variable (sees : state.Sees text position) (fits : state.Fits position)
include sees fits

/-- Reading a character that neither begins nor ends a class body. -/
theorem CutState.Sees.next {other : CutState} (here : text[position]? = some c)
    (body : other.body = state.body) (bodies : other.bodies = state.bodies)
    (last : other.last = some c ∨ other.last = state.last) :
    other.Sees text (position + 1) := by
  unfold Sees at sees ⊢
  rw [body, bodies]
  obtain ⟨apart, open_⟩ := sees
  refine ⟨apart, ?_⟩
  split at open_
  · rename_i outside
    intro closed
    rcases last with read | kept
    · obtain rfl : c = ')' := Option.some.inj (read.symm.trans closed)
      have reached := fits.ordered.reached_le
      exact ⟨position, ')', reached, Nat.lt_succ_self position, here, by decide⟩
    · exact (open_ (kept.symm.trans closed)).mono (Nat.le_succ position)
  · exact open_

theorem CutState.Sees.openBrace
    (here : text[position]? = some '{') : (state.openBrace position).Sees text (position + 1) := by
  by_cases starts : (state.body.isNone && state.last == some ')') = true
  · obtain ⟨outside, closed⟩ := Bool.and_eq_true_iff.1 starts
    rw [Option.isNone_iff_eq_none] at outside
    unfold Sees at sees
    rw [outside] at sees
    have solid := sees.2 (eq_of_beq closed)
    refine ⟨sees.1, ?_⟩
    simp only [CutState.openBrace, starts, if_true]
    exact ⟨solid, here⟩
  · exact sees.next fits here (if_neg starts) rfl (.inl rfl)

theorem CutState.Sees.close
    (here : text[position]? = some c) : (state.close c position).Sees text (position + 1) := by
  cases inside : state.body with
  | none =>
      exact sees.next fits here (by simp [CutState.close, inside])
        (by simp [CutState.close, inside])
        (.inl (by simp [CutState.close, inside]))
  | some entry =>
      obtain ⟨start, depth⟩ := entry
      by_cases ends : (c == '}' && depth == state.depth - 1) = true
      · obtain rfl : c = '}' := eq_of_beq (Bool.and_eq_true_iff.1 ends).1
        unfold Sees at sees
        unfold Fits at fits
        rw [inside] at sees fits
        obtain ⟨apart, solid, opens⟩ := sees
        have later : start ≠ position := fun same => by simp [← same, opens] at here
        have braced : IsBraced text ⟨start, position + 1⟩ :=
          ⟨opens, here, Nat.succ_lt_succ (Nat.lt_of_le_of_ne fits.2 later)⟩
        have longer : Apart text 0 (state.bodies ++ [⟨start, position + 1⟩]) :=
          apart.snoc solid braced
        have outer : state.close '}' position = { state with
              depth := state.depth - 1
              last := some '}'
              body := none
              bodies := state.bodies ++ [⟨start, position + 1⟩] } := by
          simp only [CutState.close, inside, ends, if_true]
        rw [outer]
        exact ⟨longer, fun closed => by simp at closed⟩
      · exact sees.next fits here (by simp [CutState.close, inside, ends])
          (by simp [CutState.close, inside, ends]) (.inl (by simp [CutState.close, inside, ends]))

end

/-- The class bodies of a statement stand apart. -/
theorem cutFrom_apart {terminator : Char} {rest : List Char} {cut : Cut}
    (fits : state.Fits position)
    (sees : state.Sees text position) (behind : text.drop position = rest)
    (found : cutFrom terminator state position rest = .found cut) :
    Apart text 0 cut.classBodies := by
  induction rest generalizing state position with
  | nil => contradiction
  | cons c rest induction =>
      have here : text[position]? = some c := by
        rw [← List.head?_drop, behind, List.head?_cons]
      have later : text.drop (position + 1) = rest := by
        rw [← List.drop_drop, behind, List.drop_one, List.tail_cons]
      unfold cutFrom at found
      split_ifs at found with literal blank ends opens
      · refine induction ?_ (sees.next fits here ?_ ?_ (.inl rfl)) later found
        · refine fits.next ?_ ?_ <;> rfl
        · rfl
        · rfl
      · refine induction ?_ (sees.next fits here ?_ ?_ (.inr rfl)) later found
        · refine fits.next ?_ ?_ <;> rfl
        · rfl
        · rfl
      · obtain rfl := CutSearch.found.inj found
        exact sees.1
      · obtain rfl := eq_of_beq opens
        exact induction fits.openBrace (sees.openBrace fits here) later found
      · refine induction ?_ (sees.next fits here ?_ ?_ (.inl rfl)) later found
        · refine fits.next ?_ ?_ <;> rfl
        · rfl
        · rfl
      · exact induction (fits.close c) (sees.close fits here) later found
      · refine induction ?_ (sees.next fits here ?_ ?_ (.inl rfl)) later found
        · refine fits.next ?_ ?_ <;> rfl
        · rfl
        · rfl

/-- The class bodies that a search finds are ordered and stand apart. -/
theorem findCut_bodies {terminator : Char} {cut : Cut}
    (found : findCut terminator text = .found cut) :
    Ordered 0 cut.stop cut.classBodies ∧ Apart text 0 cut.classBodies := by
  have start : CutState.Fits {} 0 := Nat.le_refl 0
  have sees : CutState.Sees text {} 0 := ⟨trivial, nofun⟩
  exact ⟨cutFrom_ordered start found, cutFrom_apart start sees rfl found⟩

end

/-! ## What is left in front of a class body -/

section

variable {text plain : List Char} {low high : Nat} {front back spans : List Span} {span : Span}

theorem Ordered.split (ordered : Ordered low high (front ++ span :: back)) :
    Ordered low span.start front ∧ span.start ≤ span.stop ∧ Ordered span.stop high back := by
  induction front generalizing low with
  | nil => exact ⟨ordered.1, ordered.2.1, ordered.2.2⟩
  | cons first rest induction =>
      obtain ⟨inside, behind⟩ := induction ordered.2.2
      exact ⟨⟨ordered.1, ordered.2.1, inside⟩, behind⟩

theorem slice_take {stop : Nat} (inside : span.stop ≤ stop) :
    span.slice (text.take stop) = span.slice text := by
  rw [Span.slice, Span.slice, List.drop_take, List.take_take, Span.length]
  congr 1
  omega

/-- The number of characters at the spans. -/
def covered : List Span → Nat
  | [] => 0
  | span :: rest => span.length + covered rest

theorem covered_snoc (spans : List Span) (span : Span) :
    covered (spans ++ [span]) = covered spans + span.length := by
  induction spans with
  | nil => exact Nat.add_comm span.length 0
  | cons first rest induction => rw [List.cons_append, covered, covered, induction, Nat.add_assoc]

/-- Taking out spans on both sides of one: what is left in front of it, and what is left behind. -/
theorem removeFrom?_append (ordered : Ordered low high (front ++ span :: back))
    (removed : removeFrom? text low (front ++ span :: back) = some plain) :
    ∃ first second, removeFrom? (text.take span.start) low front = some first ∧
      removeFrom? text span.stop back = some second ∧ plain = first ++ second ∧
      low + covered front + first.length = span.start := by
  induction front generalizing low plain with
  | nil =>
      rw [List.nil_append, removeFrom?] at removed
      split at removed
      · rename_i reaches
        simp only [Bool.and_eq_true, decide_eq_true_eq] at reaches
        obtain ⟨second, rest, rfl⟩ := Option.map_eq_some_iff.1 removed
        refine ⟨Span.slice ⟨low, span.start⟩ text, second, ?_, rest, rfl, ?_⟩
        · rw [removeFrom?, if_pos (by rw [List.length_take]; omega), List.drop_take]
          rfl
        · simp only [covered, Span.slice, Span.length, List.length_take,
            List.length_drop]
          omega
      · contradiction
  | cons entry rest induction =>
      obtain ⟨after, forward, behind⟩ := ordered
      have order := behind.split
      have below := order.1.le
      rw [List.cons_append, removeFrom?] at removed
      split at removed
      · rename_i reaches
        simp only [Bool.and_eq_true, decide_eq_true_eq] at reaches
        obtain ⟨tail, others, rfl⟩ := Option.map_eq_some_iff.1 removed
        obtain ⟨first, second, inFront, inBack, rfl, count⟩ := induction behind others
        refine ⟨Span.slice ⟨low, entry.start⟩ text ++ first, second, ?_, inBack, ?_, ?_⟩
        · rw [removeFrom?, if_pos, inFront, Option.map_some, slice_take]
          · exact Nat.le_trans forward below
          · simp only [Bool.and_eq_true, decide_eq_true_eq, List.length_take]
            omega
        · rw [List.append_assoc]
        · simp only [covered, List.length_append, Span.slice, Span.length,
            List.length_take, List.length_drop] at count ⊢
          omega
      · contradiction

/-- What stands behind the last span stays. -/
theorem mem_of_removeFrom? {c : Char} {position : Nat}
    (removed : removeFrom? text low spans = some plain) (behind : reached low spans ≤ position)
    (here : text[position]? = some c) : c ∈ plain := by
  induction spans generalizing low plain with
  | nil =>
      rw [removeFrom?] at removed
      split at removed
      · obtain rfl := Option.some.inj removed
        have start : low ≤ position := behind
        refine List.mem_iff_getElem?.2 ⟨position - low, ?_⟩
        rw [List.getElem?_drop, Nat.add_sub_cancel' start, here]
      · contradiction
  | cons span rest induction =>
      rw [removeFrom?] at removed
      split at removed
      · obtain ⟨tail, others, rfl⟩ := Option.map_eq_some_iff.1 removed
        exact List.mem_append_right _ (induction others behind)
      · contradiction

theorem SolidWithin.exists_mem (solid : SolidWithin text (reached low spans) high)
    (removed : removeFrom? (text.take high) low spans = some plain) :
    ∃ c ∈ plain, isBlank c = false := by
  obtain ⟨position, c, behind, before, here, visible⟩ := solid
  refine ⟨c, mem_of_removeFrom? removed behind ?_, visible⟩
  rw [List.getElem?_take_of_lt before, here]

theorem length_trimEnd_le (text : List Char) : (trimEnd text).length ≤ text.length := by
  have shorter := (List.dropWhile_suffix isBlank (l := text.reverse)).length_le
  rwa [List.length_reverse, ← List.length_reverse, ← trimEnd] at shorter

theorem trimEnd_isPrefix (text : List Char) : trimEnd text <+: text := by
  rw [trimEnd, ← List.reverse_suffix, List.reverse_reverse]
  exact List.dropWhile_suffix isBlank

/-- With something solid behind it, a text reaches further, trailing blanks aside. -/
theorem length_lt_trimEnd {first second : List Char} (solid : ∃ c ∈ second, isBlank c = false) :
    first.length < (trimEnd (first ++ second)).length := by
  obtain ⟨c, member, visible⟩ := solid
  have left : second.reverse.dropWhile isBlank ≠ [] := by
    rw [Ne, List.dropWhile_eq_nil_iff]
    exact fun blank => by simp [blank c (List.mem_reverse.2 member)] at visible
  rw [trimEnd, List.reverse_append, List.dropWhile_append, if_neg (by simpa using left)]
  have longer := List.length_pos_of_ne_nil left
  simp only [List.length_reverse, List.length_append]
  omega

end

end Text
end MethodLowering
