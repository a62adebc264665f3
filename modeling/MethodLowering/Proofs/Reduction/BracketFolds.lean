import MethodLowering.Proofs.Reduction.OperatorFolds

/-!
# Folding brackets over segments

Each fold of a pair of brackets over a range does what the fold over the segments of the range does.
-/

namespace MethodLowering

theorem Ledger.seek?_headAt? (ledger : Ledger) (op : Op) (start count : Nat) :
    Text.seek? (fun p => ledger.headAt? p == some op) start count =
      ((ledger.headsFrom start count).find? (·.2 == op)).map (·.1) := by
  induction count generalizing start with
  | zero => rfl
  | succ count induction =>
      rw [Text.seek?, headsFrom]
      cases ledger.headAt? start with
      | none =>
          rw [if_neg (by simp), induction]
      | some found =>
          by_cases same : found = op
          · subst same
            rw [if_pos (by simp), List.find?_cons_of_pos (by simp), Option.map_some]
          · rw [if_neg (by simpa using same), List.find?_cons_of_neg (by simpa using same),
              induction]

namespace Reduction

section

variable {bound : Nat} {operands : Operands} {onSegments : OnSegments.Operands}
  {state other : Reduction} {range : Span} {before after segments taken : List Segment}
  {segment : Segment} {op closing : Op} {start position : Nat}

theorem Shows.seek?_headAt? {stop : Nat} (shown : Shows state start stop segments) (op : Op) :
    Text.seek? (fun p => state.ledger.headAt? p == some op) start (stop - start) =
      ((headsOf segments).find? (·.2 == op)).map (·.1) := by
  rw [Ledger.seek?_headAt?, shown.headsFrom]

/-! ## The operand of a cast -/

theorem mem_of_closingHead? {depth close : Nat} {heads : List (Nat × Op)}
    (found : closingHead? op closing depth heads = some close) : (close, closing) ∈ heads := by
  induction heads generalizing depth with
  | nil => contradiction
  | cons head rest induction =>
      obtain ⟨place, next⟩ := head
      rw [closingHead?] at found
      split at found
      · exact List.mem_cons_of_mem _ (induction found)
      · split at found
        · next same =>
            split at found
            · obtain rfl := Option.some.inj found
              rw [eq_of_beq same]
              exact List.mem_cons_self
            · exact List.mem_cons_of_mem _ (induction found)
        · exact List.mem_cons_of_mem _ (induction found)

theorem closing?_ne (known : op.closing? = some closing) : op ≠ closing := by
  rintro rfl
  cases op <;> contradiction

theorem closing?_width (known : op.closing? = some closing) : closing.width = 1 := by
  cases op <;> first | contradiction | (obtain rfl := Option.some.inj known; rfl)

/-- The part of a list up to and including a segment is found by its position. -/
theorem takeWhile_le_eq {stop : Nat} {front back : List Segment}
    (shown : Shows state start stop (front ++ segment :: back)) :
    (front ++ segment :: back).takeWhile (·.span.start ≤ segment.span.start) = front ++ [segment] ∧
      (front ++ segment :: back).dropWhile (·.span.start ≤ segment.span.start) = back := by
  obtain ⟨left, stands, right⟩ := shows_append_cons.1 shown
  have earlier : ∀ other ∈ front ++ [segment],
      decide (other.span.start ≤ segment.span.start) = true := by
    intro other member
    rw [decide_eq_true_iff]
    rcases List.mem_append.1 member with inFront | last
    · exact Nat.le_of_lt (left.start_lt inFront).2
    · rw [List.mem_singleton.1 last]
  have later : ∀ next ∈ back.head?, decide (next.span.start ≤ segment.span.start) = false := by
    intro next first
    have bounds := right.start_lt (List.mem_of_mem_head? first)
    have nonempty := stands.nonempty
    rw [decide_eq_false_iff_not]
    omega
  rw [List.append_cons, List.takeWhile_append_of_pos earlier, List.dropWhile_append_of_pos earlier]
  cases back with
  | nil => simp
  | cons next back =>
      have last := later next rfl
      rw [List.takeWhile_cons_of_neg (by simp [last]), List.dropWhile_cons_of_neg (by simp [last]),
        List.append_nil]
      exact ⟨rfl, rfl⟩

/-- The bracket that closes the one at a segment. -/
theorem behindBracket?_eq (shown : Shows state segment.span.start range.stop (segment :: after)) :
    (behindBracket? state.ledger segment.span.start range = none ∧
        segment.op?.bind (OnSegments.bracketed? · segment after) = none) ∨
      ∃ inner rest behind, behindBracket? state.ledger segment.span.start range = some behind ∧
        segment.op?.bind (OnSegments.bracketed? · segment after) = some (inner, rest) ∧
        Shows state segment.span.stop behind inner ∧ Shows state behind range.stop rest := by
  have heads := shown.heads
  obtain ⟨-, stands, right⟩ := shown
  rw [behindBracket?, stands.headAt? (Nat.le_refl _) stands.nonempty, if_pos rfl]
  cases known : segment.op? with
  | none => exact .inl ⟨rfl, rfl⟩
  | some op =>
      rw [Option.bind_some, OnSegments.bracketed?, heads]
      dsimp only
      split
      · cases closes : op.closing? with
        | none => exact .inl ⟨rfl, rfl⟩
        | some closing =>
            rw [Option.bind_some, Option.bind_some]
            cases found : closingHead? op closing 0 (headsOf (segment :: after)) with
            | none => exact .inl ⟨rfl, rfl⟩
            | some close =>
                have member := mem_of_closingHead? found
                rw [headsOf_cons, List.mem_append] at member
                have inner : (close, closing) ∈ headsOf after := by
                  refine member.resolve_left fun first => ?_
                  simp only [headsOf, List.filterMap_cons, known, Option.map_some,
                    List.filterMap_nil, List.mem_singleton, Prod.mk.injEq] at first
                  exact closing?_ne closes first.2.symm
                obtain ⟨front, last, back, rfl, isClosing, rfl⟩ := exists_of_mem_headsOf inner
                obtain ⟨left, standsLast, rest⟩ := shows_append_cons.1 right
                have behind : last.span.start + 1 = last.span.stop := by
                  rw [standsLast.span_eq isClosing, opSpan, closing?_width closes]
                have ends := rest.le
                have inside := rest.stop_le_size
                obtain ⟨takes, drops⟩ := takeWhile_le_eq right
                refine .inr ⟨front ++ [last], back, last.span.stop, ?_, ?_, ?_, rest⟩
                · rw [Option.map_some, behind]
                · rw [Option.map_some, takes, drops]
                · exact shows_append_cons.2 ⟨left, standsLast, shows_nil_refl (by omega)⟩
      · exact .inl ⟨rfl, rfl⟩

theorem bracketed?_append {rest : List Segment}
    (found : OnSegments.bracketed? op segment segments = some (taken, rest)) :
    taken ++ rest = segments := by
  unfold OnSegments.bracketed? at found
  split at found
  · obtain ⟨closing, -, closed⟩ := Option.bind_eq_some_iff.1 found
    obtain ⟨close, -, same⟩ := Option.map_eq_some_iff.1 closed
    obtain ⟨rfl, rfl⟩ := Prod.mk.inj same
    exact List.takeWhile_append_dropWhile
  · contradiction

/-- The operand of a cast and what is left are all there is. -/
theorem castFrom_append (count : Nat) (taken segments : List Segment) :
    (OnSegments.castFrom count taken segments).1 ++ (OnSegments.castFrom count taken segments).2 =
      taken ++ segments := by
  induction count generalizing taken segments with
  | zero => rw [OnSegments.castFrom, List.append_assoc, firstOperands_append]
  | succ count induction =>
      have joined : taken ++ segments =
          taken ++ OnSegments.firstOperands segments ++ OnSegments.skipOperands segments := by
        rw [List.append_assoc, firstOperands_append]
      rw [OnSegments.castFrom, joined]
      cases OnSegments.skipOperands segments with
      | nil => rfl
      | cons next behind =>
          dsimp only
          split
          · rfl
          · split
            · rw [induction, List.append_assoc, List.singleton_append]
            · split
              · next inner rest found =>
                  obtain ⟨op, -, bracketed⟩ := Option.bind_eq_some_iff.1 found
                  rw [induction, ← bracketed?_append bracketed]
                  simp
              · rfl

/-- The operand of a cast ends where the segments found for it end. -/
theorem castStopFrom_eq (count : Nat) (shownTaken : Shows state start position taken)
    (shown : Shows state position range.stop segments) :
    ∃ middle, castStopFrom state.ledger start range count position = middle ∧
      Shows state start middle (OnSegments.castFrom count taken segments).1 ∧
      Shows state middle range.stop (OnSegments.castFrom count taken segments).2 := by
  induction count generalizing taken segments position with
  | zero =>
      obtain ⟨middle, first, rest, greedy, -⟩ := shown.firstOperands
      exact ⟨middle, greedy, shownTaken.append first, rest⟩
  | succ count induction =>
      obtain ⟨middle, first, rest, greedy, ends⟩ := shown.firstOperands
      have operand := shownTaken.append first
      rw [castStopFrom, OnSegments.castFrom, greedy, operand.isBlank]
      generalize taken ++ OnSegments.firstOperands segments = found at operand
      cases left : OnSegments.skipOperands segments with
      | nil =>
          rw [left] at rest ends
          rw [if_pos (by simp [ends])]
          exact ⟨middle, rfl, operand, rest⟩
      | cons next behind =>
          rw [left] at rest ends
          obtain rfl : middle = next.span.start := ends
          have nonempty := rest.2.1.nonempty
          have inside := rest.2.2.le
          have single := rest.2.2.stop_le_size
          have outside : decide (range.stop ≤ next.span.start) = false := by
            rw [decide_eq_false_iff_not]
            omega
          rw [outside, Bool.false_or]
          dsimp only
          cases empty : found.isEmpty with
          | true => exact ⟨_, if_pos rfl, operand, rest⟩
          | false =>
              rw [if_neg Bool.false_ne_true, if_neg Bool.false_ne_true,
                rest.2.1.headAt? (Nat.le_refl _) nonempty, if_pos rfl]
              by_cases isDot : next.op? = some .dot
              · have behindDot : next.span.start + 1 = next.span.stop := by
                  rw [rest.2.1.span_eq isDot]
                  rfl
                rw [if_pos (by simp [isDot]), if_pos (by simp [isDot]), behindDot]
                have upToDot : Shows state start next.span.stop (found ++ [next]) :=
                  shows_append_cons.2 ⟨operand, rest.2.1, shows_nil_refl (by omega)⟩
                exact induction upToDot rest.2.2
              · rw [if_neg (by simpa using isDot), if_neg (by simpa using isDot)]
                rcases behindBracket?_eq rest with ⟨ledger, list⟩ | ⟨inner, tail,
                  last, ledger, list,
                  shownInner, shownTail⟩
                · rw [ledger, list]
                  exact ⟨_, rfl, operand, rest⟩
                · rw [ledger, list]
                  have upToBracket : Shows state start last (found ++ next :: inner) :=
                    shows_append_cons.2 ⟨operand, rest.2.1, shownInner⟩
                  exact induction upToBracket shownTail

theorem castStop_eq (shown : Shows state start range.stop segments) :
    ∃ middle, castStop state.ledger start range = middle ∧
      Shows state start middle (OnSegments.castFrom range.length [] segments).1 ∧
      Shows state middle range.stop (OnSegments.castFrom range.length [] segments).2 := by
  have inside := shown.stop_le_size
  have bound := shown.le
  exact castStopFrom_eq range.length (shows_nil_refl (by omega)) shown

/-! ## Round brackets -/

theorem paren_tracks {close : Nat} (inner : Option Expr)
    (simulates : Simulates bound operands onSegments) (agrees : Agrees state other)
    (anchored : Anchored range ⟨position, close + 1⟩ before after state)
    (short : before.length + (after.length + 1) ≤ bound) :
    Tracks (Takes range (before.length + (after.length + 1)) state)
      (paren operands position close inner range state)
      (OnSegments.paren onSegments position close range.length inner before after other) := by
  have nonempty := anchored.nonempty
  have inside := anchored.left.stop_le_size
  have size := anchored.right.stop_le_size
  have bounds := anchored.right.le
  obtain ⟨low, shownFront, shownLeft, greedyLow⟩ := anchored.left.lastOperands
  have lengths := length_lastOperands before
  have leftNone : Shows state position position [] := shows_nil_refl inside
  have rightNone : Shows state (close + 1) (close + 1) [] :=
    shows_nil_refl (by dsimp only at *; omega)
  unfold paren OnSegments.paren
  refine Tracks.getLedger ?_
  rw [show Reduction.greedyStart state.ledger position range = low from greedyLow,
    show state.ledger.isBlank low position = _ from shownLeft.isBlank]
  dsimp only
  split
  · refine Tracks.bind (simulates state other _ _ _ (by omega) agrees shownLeft) ?_
    rintro first _ state₁ other₁ agrees₁ ⟨rfl, changes₁, covers₁⟩
    cases first with
    | none => exact rejectBracket_tracks _ _ agrees₁
    | some callee =>
        refine Tracks.bind (newNodeAround_tracks _ _ agrees₁) ?_
        rintro node _ state₂ other₂ agrees₂ ⟨⟨rfl, ledger₂, pending₂⟩, placed⟩
        refine Tracks.pure agrees₂ (Takes.around nonempty anchored.solid_start anchored.solid_last
          shownFront shownLeft rightNone anchored.right ?_ ?_ (by omega))
        · exact (changes₁.trans (Changes.of_eq ledger₂ pending₂)).mono (Nat.le_refl _)
            (Nat.le_of_lt nonempty)
        · have joined := joinNode_around shownLeft rightNone nonempty covers₁
            (show Covers [] none from rfl)
          rw [HasSpan, Expr.node?, Option.map_some, placed]
          exact congrArg some joined
  · obtain ⟨high, castLedger, shownRight, shownBack⟩ := castStop_eq anchored.right
    have all := castFrom_append range.length [] after
    rw [List.nil_append] at all
    dsimp only at castLedger shownRight
    rw [castLedger, shownRight.isBlank]
    generalize OnSegments.castFrom range.length [] after = split at shownRight shownBack all
    obtain ⟨operand, back⟩ := split
    have lengths' := congrArg List.length all
    rw [List.length_append] at lengths'
    dsimp only at shownRight shownBack lengths' ⊢
    cases typed : (if operand.isEmpty = true then none else inner.bind castType?) with
    | none =>
        refine Tracks.bind (newNode_tracks _ agrees) ?_
        rintro node _ state₁ other₁ agrees₁ ⟨⟨rfl, ledger₁, pending₁⟩, placed⟩
        refine Tracks.pure agrees₁ (Takes.around nonempty anchored.solid_start anchored.solid_last
          anchored.left leftNone rightNone anchored.right (Changes.of_eq ledger₁ pending₁) ?_
          (by omega))
        rw [HasSpan, Expr.node?, Option.map_some, placed]
        rfl
    | some typeName =>
        refine Tracks.bind (simulates state other _ _ _ (by omega) agrees shownRight) ?_
        rintro first _ state₁ other₁ agrees₁ ⟨rfl, changes₁, covers₁⟩
        cases first with
        | none => exact rejectBracket_tracks _ _ agrees₁
        | some target =>
            refine Tracks.bind (newNodeAround_tracks _ _ agrees₁) ?_
            rintro node _ state₂ other₂ agrees₂ ⟨⟨rfl, ledger₂, pending₂⟩, placed⟩
            refine Tracks.pure agrees₂ (Takes.around nonempty anchored.solid_start
              anchored.solid_last anchored.left leftNone shownRight shownBack ?_ ?_ (by omega))
            · exact (changes₁.trans (Changes.of_eq ledger₂ pending₂)).mono (Nat.le_of_lt nonempty)
                (Nat.le_refl _)
            · have joined := joinNode_around leftNone shownRight nonempty
                (show Covers [] none from rfl) covers₁
              rw [HasSpan, Expr.node?, Option.map_some, placed]
              exact congrArg some joined

/-! ## Square brackets -/

/-- What directly follows is found as pending when it is a finished expression. -/
theorem pendingFrom?_eq {stop : Nat} (shown : Shows state stop range.stop segments) :
    (pendingFrom? state stop range = none ∧ segments.head?.bind Segment.tree? = none) ∨
      ∃ id span expr rest, segments = ⟨span, .tree expr⟩ :: rest ∧
        pendingFrom? state stop range = some (id, ⟨span, expr⟩) ∧
        state.pending[id]? = some (some ⟨span, expr⟩) := by
  have size := shown.stop_le_size
  cases segments with
  | nil =>
      refine .inl ⟨?_, rfl⟩
      have nowhere :
          Text.seek? (fun p => !state.ledger.isSpace p) stop (range.stop - stop) = none := by
        refine Text.seek?_eq_none fun p low high => ?_
        rw [shown.1.isSpace low (by have := shown.1.1; omega), Bool.not_true]
      rw [pendingFrom?, nowhere]
  | cons segment rest =>
      obtain ⟨gap, stands, right⟩ := shown
      have nonempty := stands.nonempty
      have low := gap.1
      have high := right.le
      have found : Text.seek? (fun p => !state.ledger.isSpace p) stop (range.stop - stop) =
          some segment.span.start := by
        refine Text.seek?_eq_some low (by omega) (fun p above below => ?_) ?_
        · rw [gap.isSpace above below, Bool.not_true]
        · rw [stands.isSpace_start, Bool.not_false]
      rw [pendingFrom?, found]
      obtain ⟨span, piece⟩ := segment
      cases piece with
      | op op =>
          refine .inl ⟨?_, rfl⟩
          have first := stands.tagged.2.1
          dsimp only at first ⊢
          rw [first]
      | word =>
          refine .inl ⟨?_, rfl⟩
          dsimp only
          rw [stands.tagged span.start (Nat.le_refl _) nonempty]
      | tree expr =>
          obtain ⟨id, kept, first, -⟩ := stands.tagged
          refine .inr ⟨id, span, expr, rest, rfl, ?_, kept⟩
          dsimp only at first ⊢
          rw [first]
          simp [kept]

/-- What an index takes in is the front of what follows, up to its end. -/
theorem absorb_split (count : Nat) (indices : List Expr) (stop : Nat) (segments : List Segment) :
    ∃ taken, segments = taken ++ (OnSegments.absorb count indices stop segments).2 ∧
      (OnSegments.absorb count indices stop segments).1.2.2 =
        (taken.getLast?.map (·.span.stop)).getD stop := by
  induction count generalizing indices stop segments with
  | zero => exact ⟨[], rfl, rfl⟩
  | succ count induction =>
      cases segments with
      | nil => exact ⟨[], rfl, rfl⟩
      | cons segment rest =>
          rw [OnSegments.absorb]
          split
          · exact ⟨[], rfl, rfl⟩
          · split
            · exact ⟨[segment], rfl, rfl⟩
            · next further _ _ _ =>
                obtain ⟨taken, all, ends⟩ := induction (indices ++ further) segment.span.stop rest
                refine ⟨segment :: taken, by rw [List.cons_append, ← all], ends.trans ?_⟩
                rcases List.eq_nil_or_concat' taken with rfl | ⟨front, last, rfl⟩
                · rfl
                · rw [← List.cons_append, List.getLast?_concat, List.getLast?_concat]
                  rfl

/-- A list shown in a range is split behind its front. -/
theorem Shows.behind {start stop : Nat} {front back : List Segment}
    (shown : Shows state start stop (front ++ back)) :
    Shows state start ((front.getLast?.map (·.span.stop)).getD start) front ∧
      Shows state ((front.getLast?.map (·.span.stop)).getD start) stop back := by
  have inside := shown.stop_le_size
  have bound := shown.le
  rcases List.eq_nil_or_concat' front with rfl | ⟨rest, last, rfl⟩
  · exact ⟨shows_nil_refl (by omega), shown⟩
  · rw [List.append_assoc, List.singleton_append] at shown
    obtain ⟨left, stands, right⟩ := shows_append_cons.1 shown
    have high := right.le
    rw [List.getLast?_concat]
    exact ⟨shows_append_cons.2 ⟨left, stands, shows_nil_refl (show last.span.stop ≤ _ by omega)⟩,
      right⟩

theorem Changes.usePending {id : Nat} {span : Span} {expr : Expr}
    (kept : state.pending[id]? = some (some ⟨span, expr⟩)) (nonempty : span.start < span.stop) :
    Changes span.start span.stop state
      { state with pending := state.pending.modify id fun _ => none } := by
  refine ⟨rfl, fun p _ => rfl, fun p => rfl, fun number subtree known outside => ?_⟩
  dsimp only
  rw [Array.getElem?_modify]
  split
  · next same =>
      subst same
      rw [kept] at known
      obtain rfl := Option.some.inj (Option.some.inj known)
      dsimp only at outside
      omega
  · exact known

theorem absorb_eq (count : Nat) (indices : List Expr) {stop : Nat}
    (shown : Shows state stop range.stop segments) :
    ∃ final, absorb range count indices stop state =
        .ok (OnSegments.absorb count indices stop segments).1 final ∧
      (∀ other, Agrees state other → Agrees final other) ∧
      Changes stop (OnSegments.absorb count indices stop segments).1.2.2 state final := by
  induction count generalizing state indices stop segments with
  | zero => exact ⟨state, rfl, fun _ agrees => agrees, Changes.of_eq rfl rfl⟩
  | succ count induction =>
      have stays (unabsorbed : OnSegments.absorb (count + 1) indices stop segments =
            ((indices, .absent, stop), segments))
          (same : absorb range (count + 1) indices stop state =
            .ok (indices, .absent, stop) state) :
          ∃ final, absorb range (count + 1) indices stop state =
              .ok (OnSegments.absorb (count + 1) indices stop segments).1 final ∧
            (∀ other, Agrees state other → Agrees final other) ∧
            Changes stop (OnSegments.absorb (count + 1) indices stop segments).1.2.2 state final :=
        ⟨state, by rw [unabsorbed, same], fun _ agrees => agrees, Changes.of_eq rfl rfl⟩
      rcases pendingFrom?_eq shown with ⟨nothing, noTree⟩ | ⟨id, span, expr, rest, rfl, found, kept⟩
      · refine stays ?_ ?_
        · cases segments with
          | nil => rfl
          | cons segment rest =>
              rw [List.head?_cons, Option.bind_some] at noTree
              rw [OnSegments.absorb, noTree]
              rfl
        · simp only [absorb, bind, EStateM.bind, get_apply, nothing]
          rfl
      · have nonempty := shown.2.1.nonempty
        have low := shown.1.1
        have used := Changes.usePending kept nonempty
        have later := used.shows_ shown.2.2 (.inr (Nat.le_refl _))
        cases taken : absorbed? expr with
        | none =>
            refine stays ?_ ?_
            · simp [OnSegments.absorb, Segment.tree?, taken]
            · simp only [absorb, bind, EStateM.bind, get_apply, found, taken]
              rfl
        | some both =>
            obtain ⟨further, initializer⟩ := both
            have onList : OnSegments.absorb (count + 1) indices stop (⟨span, .tree expr⟩ :: rest) =
                if initializer.isPresent then ((indices ++ further, initializer, span.stop), rest)
                else OnSegments.absorb count (indices ++ further) span.stop rest := by
              simp [OnSegments.absorb, Segment.tree?, taken]
            have onLedger : absorb range (count + 1) indices stop state =
                if initializer.isPresent then
                  .ok (indices ++ further, initializer, span.stop)
                    { state with pending := state.pending.modify id fun _ => none }
                else absorb range count (indices ++ further) span.stop
                  { state with pending := state.pending.modify id fun _ => none } := by
              simp only [absorb, bind, EStateM.bind, get_apply, found, taken]
              cases initializer.isPresent <;> rfl
            rw [onList, onLedger]
            cases initializer.isPresent with
            | true =>
                exact ⟨_, rfl, fun other agrees =>
                  ⟨agrees.1, agrees.2, agrees.3, agrees.4, agrees.5⟩,
                  used.mono low (Nat.le_refl _)⟩
            | false =>
                obtain ⟨final, same, keeps, changes⟩ := induction (indices ++ further) later
                obtain ⟨front, all, ends⟩ :=
                  absorb_split count (indices ++ further) span.stop rest
                rw [all] at later
                have high := later.behind.1.le
                refine ⟨final, same, fun other agrees => keeps other
                  ⟨agrees.1, agrees.2, agrees.3, agrees.4, agrees.5⟩, ?_⟩
                dsimp only at low nonempty high
                exact (used.mono low (by rw [if_neg Bool.false_ne_true, ends]; exact high)).trans
                  (changes.mono (show stop ≤ span.stop by omega) (Nat.le_refl _))

theorem index_tracks {close : Nat} (inner : Option Expr)
    (simulates : Simulates bound operands onSegments) (agrees : Agrees state other)
    (anchored : Anchored range ⟨position, close + 1⟩ before after state)
    (short : before.length + (after.length + 1) ≤ bound) :
    Tracks (Takes range (before.length + (after.length + 1)) state)
      (index operands position close inner range state)
      (OnSegments.index onSegments position close range.length inner before after other) := by
  have nonempty := anchored.nonempty
  obtain ⟨low, shownFront, shownLeft, greedyLow⟩ := anchored.left.lastOperands
  have lengths := length_lastOperands before
  unfold index OnSegments.index
  refine Tracks.getLedger ?_
  rw [show Reduction.greedyStart state.ledger position range = low from greedyLow]
  refine Tracks.bind (simulates state other _ _ _ (by omega) agrees shownLeft) ?_
  rintro target _ state₁ other₁ agrees₁ ⟨rfl, changes₁, covers₁⟩
  have right₁ := changes₁.shows_ anchored.right (.inr (Nat.le_of_lt nonempty))
  obtain ⟨state₂, absorbed, keeps, changes₂⟩ :=
    absorb_eq range.length [inner.getD .absent] right₁
  obtain ⟨taken, all, ends⟩ :=
    absorb_split range.length [inner.getD .absent] (close + 1) after
  dsimp only at absorbed changes₂
  generalize OnSegments.absorb range.length [inner.getD .absent] (close + 1) after = result
    at absorbed changes₂ all ends ⊢
  obtain ⟨⟨indices, initializer, stop⟩, back⟩ := result
  dsimp only at absorbed changes₂ all ends ⊢
  have shownAfter := anchored.right
  rw [all] at shownAfter
  obtain ⟨shownTaken, shownBack⟩ := shownAfter.behind
  dsimp only at shownTaken shownBack
  rw [← ends] at shownTaken shownBack
  have bounds : low ≤ position ∧ close + 1 ≤ stop := ⟨shownLeft.le, shownTaken.le⟩
  have opens : position < close + 1 := nonempty
  have lengths' := congrArg List.length all
  rw [List.length_append] at lengths'
  refine Tracks.ok_left absorbed ?_
  refine Tracks.bind (newNode_tracks _ (keeps _ agrees₁)) ?_
  rintro node _ state₃ other₃ agrees₃ ⟨⟨rfl, ledger₃, pending₃⟩, placed⟩
  refine Tracks.pure agrees₃ (Takes.around nonempty anchored.solid_start anchored.solid_last
    shownFront shownLeft shownTaken shownBack ?_ ?_ (by omega))
  · exact ((changes₁.mono (Nat.le_refl _) (by omega)).trans
      (changes₂.mono (by omega) (Nat.le_refl _))).trans (Changes.of_eq ledger₃ pending₃)
  · rw [HasSpan, Expr.node?, Option.map_some, placed]
    refine congrArg some (congrArg₂ Span.mk ?_ ends)
    cases target with
    | none =>
        rw [show OnSegments.lastOperands before = [] from covers₁]
        rfl
    | some expr =>
        obtain ⟨node, known, same⟩ := Option.map_eq_some_iff.1 covers₁.2
        obtain ⟨first, rest, split⟩ := List.exists_cons_of_ne_nil covers₁.1
        rw [Option.getD_some, known, split]
        dsimp only
        rw [same, split]
        rfl

/-! ## All brackets -/

theorem bracket_tracks (simulates : Simulates bound operands onSegments)
    (agrees : Agrees state other)
    (shown : Shows state range.start range.stop (before ++ segment :: after))
    (isOp : segment.op? = some op) (opens : op.isOpening)
    (short : (before ++ segment :: after).length ≤ bound) :
    Tracks (Takes range (before ++ segment :: after).length state)
      (bracket operands op segment.span.start range state)
      (OnSegments.bracket onSegments op segment.span.start range.length before after other) := by
  have anchored := anchored_of_shows shown
  have width : segment.span.start + 1 = segment.span.stop := by
    rw [(shows_append_cons.1 shown).2.1.span_eq isOp]
    cases op <;> first | contradiction | rfl
  have nonempty := anchored.nonempty
  unfold bracket OnSegments.bracket
  refine Tracks.getLedger ?_
  cases closes : op.closing? with
  | none => exact rejectBracket_tracks _ _ agrees
  | some closing =>
      dsimp only
      rw [width, anchored.right.seek?_headAt? closing]
      cases found : (headsOf after).find? (·.2 == closing) with
      | none => exact rejectBracket_tracks _ _ agrees
      | some head =>
          obtain ⟨close, found'⟩ := head
          have same := List.find?_some found
          obtain rfl : found' = closing := eq_of_beq same
          obtain ⟨inner, last, rest, rfl, isClosing, rfl⟩ :=
            exists_of_mem_headsOf (List.mem_of_find?_eq_some found)
          obtain ⟨shownInner, standsLast, shownRest⟩ := shows_append_cons.1 anchored.right
          have widthLast : last.span.start + 1 = last.span.stop := by
            rw [standsLast.span_eq isClosing, opSpan, closing?_width closes]
          have bounds := anchored.left.le
          have bounds' := shownInner.le
          have nonempty' := standsLast.nonempty
          have bounds'' := shownRest.le
          dsimp only [Option.map_some]
          rw [splitAt_eq anchored.right]
          simp only [List.length_append, List.length_cons] at short ⊢
          refine Tracks.bind (blind_recordPair _ _ _ _ agrees) ?_
          rintro _ _ state₀ other₀ agrees₀ ⟨-, ledger₀, pending₀⟩
          refine Tracks.bind (simulates state₀ other₀ _ _ _ (by omega) agrees₀
            (shownInner.of_eq ledger₀ pending₀)) ?_
          rintro content _ state₁ other₁ agrees₁ ⟨rfl, inside₁, covers₁⟩
          have changes₁ := (Changes.of_eq ledger₀ pending₀).trans inside₁
          have changed := changes₁.mono (show range.start ≤ segment.span.stop by omega)
            (show last.span.start ≤ range.stop by omega)
          have anchored₁ : Anchored range ⟨segment.span.start, last.span.start + 1⟩ before rest
              state₁ := by
            refine ⟨changes₁.shows_ anchored.left (.inl (Nat.le_of_lt nonempty)), ?_, by
              dsimp only; omega, ?_, ?_⟩
            · rw [widthLast]
              exact changes₁.shows_ shownRest (.inr (Nat.le_of_lt nonempty'))
            · rw [changes₁.spaces]
              exact anchored.solid_start
            · rw [changes₁.spaces, widthLast]
              exact standsLast.isSpace_last
          have longer {expr : Expr} {folded : OnSegments.Folded} {final : Reduction}
              (takes : Takes range (before.length + (rest.length + 1)) state₁ expr folded final) :
              Takes range (before.length + (inner.length + (rest.length + 1) + 1)) state expr folded
                final := by
            have fewer := takes.shorter
            exact ⟨takes.same, by omega, changed.trans takes.changes, takes.placed⟩
          cases op with
          | openParen =>
              exact (paren_tracks content simulates agrees₁ anchored₁ (by omega)).imp
                fun _ _ _ => longer
          | openBracket =>
              exact (index_tracks content simulates agrees₁ anchored₁ (by omega)).imp
                fun _ _ _ => longer
          | openBrace =>
              refine Tracks.bind (newNode_tracks _ agrees₁) ?_
              rintro node _ state₂ other₂ agrees₂ ⟨⟨rfl, ledger₂, pending₂⟩, placed⟩
              have inside := anchored₁.left.stop_le_size
              have inside' := anchored₁.right.stop_le_size
              have bounds := anchored₁.right.le
              refine Tracks.pure agrees₂ (longer (Takes.around anchored₁.nonempty
                anchored₁.solid_start anchored₁.solid_last anchored₁.left (shows_nil_refl inside)
                (shows_nil_refl (by omega)) anchored₁.right (Changes.of_eq ledger₂ pending₂) ?_
                (by omega)))
              rw [HasSpan, Expr.node?, Option.map_some, placed]
              rfl
          | _ => contradiction

end

end Reduction
end MethodLowering
