import MethodLowering.Proofs.Reduction.BracketFolds

/-!
# The reduction follows the segments

Reducing a range of a ledger gives what reducing the segments it shows gives: the same expression,
or the same failure, and the same body.
-/

namespace MethodLowering
namespace Reduction

/-- Reduce a range with a way to reduce its operands. -/
def reduceBy (operands : Operands) (depth start stop : Nat) : ReduceM (Option Expr) := do
  modify fun state => { state with deepest := max state.deepest depth }
  let range := (← getLedger).trim start stop
  if range.isEmpty then return none
  else return some (← rounds operands range Limits.reductionRounds)

theorem reduce_succ (nesting depth : Nat) :
    reduce (nesting + 1) depth = reduceBy (reduce nesting (depth + 1)) depth := rfl

section

variable {bound : Nat} {operands : Operands} {onSegments : OnSegments.Operands}
  {state other : Reduction} {range : Span} {before after segments : List Segment}
  {segment : Segment} {op : Op}

/-! ## The next operator -/

theorem isSignPlace_eq (shown : Shows state range.start range.stop (before ++ segment :: after)) :
    isSignPlace state.ledger segment.span.start range =
      OnSegments.isSignBehind before.getLast? := by
  obtain ⟨left, stands, right⟩ := shows_append_cons.1 shown
  have bound := left.le
  rw [isSignPlace]
  rcases List.eq_nil_or_concat' before with rfl | ⟨rest, last, rfl⟩
  · have behind : Text.seekDown (fun p => !state.ledger.isSpace p) segment.span.start
        (segment.span.start - range.start) = range.start := by
      refine Text.seekDown_eq bound (by omega) (fun p low high => ?_) (.inl (by omega))
      rw [left.1.isSpace low high, Bool.not_true]
    simp [behind, OnSegments.isSignBehind]
  · obtain ⟨front, standsLast, gap⟩ := shows_append_cons.1 left
    have low := front.le
    have nonempty := standsLast.nonempty
    have behind : Text.seekDown (fun p => !state.ledger.isSpace p) segment.span.start
        (segment.span.start - range.start) = last.span.stop := by
      refine Text.seekDown_eq gap.1.1 (by omega) (fun p low high => ?_) (.inr ?_)
      · rw [gap.1.isSpace low high, Bool.not_true]
      · rw [standsLast.isSpace_last, Bool.not_false]
    obtain ⟨tag, known, -, isOp⟩ := standsLast.tag?_last
    have notFirst : (last.span.stop == range.start) = false := by
      rw [beq_eq_false_iff_ne]
      omega
    rw [behind, notFirst, Bool.false_or, known, Option.bind_some, isOp, List.getLast?_concat,
      OnSegments.isSignBehind]
    cases last.op? <;> rfl

theorem bestCandidate?_eq (shown : Shows state range.start range.stop segments) :
    bestCandidate? state.ledger range = OnSegments.best? segments := by
  have step (front rest : List Segment) (all : segments = front ++ rest)
      (best : Option Candidate) :
      (headsOf rest).foldl
          (fun best head =>
            if head.2.isClosing then best
            else some (Candidate.better best (candidateAt state.ledger range head.1 head.2))) best =
        (OnSegments.candidatesFrom front.getLast? rest).foldl
          (fun best next => some (Candidate.better best next)) best := by
    induction rest generalizing front best with
    | nil => rfl
    | cons segment rest induction =>
        have later := induction (front ++ [segment]) (by simp [all])
        rw [List.getLast?_concat] at later
        rw [headsOf_cons, OnSegments.candidatesFrom]
        cases known : segment.op? with
        | none =>
            simp only [headsOf, List.filterMap_cons, known, Option.map_none, List.filterMap_nil,
              List.nil_append]
            exact later best
        | some op =>
            have same : candidateAt state.ledger range segment.span.start op =
                OnSegments.candidateOf front.getLast? segment op := by
              rw [candidateAt, OnSegments.candidateOf, isSignPlace_eq (all ▸ shown)]
            simp only [headsOf, List.filterMap_cons, known, Option.map_some, List.filterMap_nil,
              List.singleton_append, List.foldl_cons]
            cases closing : op.isClosing with
            | true => exact later best
            | false =>
                simp only [Bool.false_eq_true, if_false, List.foldl_cons, same]
                exact later _
  rw [bestCandidate?, Ledger.foldHeads_eq_foldl, shown.heads, OnSegments.best?]
  exact step [] segments rfl none

theorem nextCandidate_tracks (agrees : Agrees state other)
    (shown : Shows state range.start range.stop segments) :
    Tracks (fun left right final => left = right ∧ final = state ∧ left = OnSegments.best? segments)
      (nextCandidate range state) (OnSegments.next segments other) := by
  unfold nextCandidate OnSegments.next
  refine Tracks.getLedger ?_
  rw [bestCandidate?_eq shown, shown.heads]
  cases OnSegments.best? segments with
  | some candidate => exact ⟨agrees, rfl, rfl, rfl⟩
  | none =>
      cases (headsOf segments).head? with
      | some head => exact rejectBracket_tracks _ _ agrees
      | none => exact ⟨agrees, rfl, rfl, rfl⟩

/-! ## Text without operators -/

theorem classify_tracks (span : Span) (text : List Char) (agrees : Agrees state other) :
    Tracks (fun left right final => SameQuietly state left right final ∧ HasSpan left span)
      (classify span text state) (classify span text other) := by
  have leafAt (form : LeafForm) :
      Tracks (fun left right final => SameQuietly state left right final ∧ HasSpan left span)
        ((do return .leaf (← newNode span) form : ReduceM Expr) state)
        ((do return .leaf (← newNode span) form : ReduceM Expr) other) := by
    refine Tracks.bind (newNode_tracks span agrees) ?_
    rintro node _ state₁ other₁ agrees₁ ⟨⟨rfl, ledger₁, pending₁⟩, placed⟩
    exact Tracks.pure agrees₁ ⟨⟨rfl, ledger₁, pending₁⟩, congrArg some placed⟩
  unfold classify
  cases leafForm? text with
  | some form => exact leafAt form
  | none =>
      cases declared? (Text.words text) with
      | none => exact ⟨rfl, agrees⟩
      | some declared =>
          match declared with
          | .nothing => exact leafAt .verbatim
          | .variable name typeName isFinal isStatic =>
              refine Tracks.get ?_
              rw [agrees.body, agrees.scope]
              refine Tracks.bind (blind_modifyBody _ _ _ agrees) ?_
              rintro _ _ state₁ other₁ agrees₁ ⟨-, ledger₁, pending₁⟩
              refine Tracks.bind (newNode_tracks span agrees₁) ?_
              rintro node _ state₂ other₂ agrees₂ ⟨⟨rfl, ledger₂, pending₂⟩, placed⟩
              exact Tracks.pure agrees₂
                ⟨⟨rfl, ledger₂.trans ledger₁, pending₂.trans pending₁⟩, congrArg some placed⟩

/-- A pending character stands where a finished expression stands. -/
theorem Shows.isPending {start stop p : Nat} (shown : Shows state start stop segments)
    (low : start ≤ p) (high : p < stop) (pending : (state.ledger.tag? p).any Tag.isPending = true) :
    segments.any (·.tree?.isSome) = true := by
  induction segments generalizing start with
  | nil =>
      rw [shown.1.2 p low high] at pending
      contradiction
  | cons segment rest induction =>
      obtain ⟨gap, stands, later⟩ := shown
      rw [List.any_cons, Bool.or_eq_true]
      by_cases before : p < segment.span.start
      · rw [gap.2 p low before] at pending
        contradiction
      · by_cases inside : p < segment.span.stop
        · left
          obtain ⟨span, piece⟩ := segment
          obtain ⟨nonempty, tagged⟩ := stands
          dsimp only at before inside tagged
          cases piece with
          | op op =>
              by_cases first : p = span.start
              · rw [first, tagged.2.1] at pending
                contradiction
              · rw [tagged.2.2 p (by omega) inside] at pending
                contradiction
          | word =>
              rw [tagged p (by omega) inside] at pending
              contradiction
          | tree expr => rfl
        · exact .inr (induction later (by omega))

theorem Shows.hasPending {start stop : Nat} (shown : Shows state start stop segments) :
    (Text.seek? (fun p => (state.ledger.tag? p).any Tag.isPending) start (stop - start)).isSome =
      segments.any (·.tree?.isSome) := by
  rw [Bool.eq_iff_iff, Text.seek?_isSome]
  constructor
  · rintro ⟨p, low, high, pending⟩
    exact shown.isPending low (by omega) pending
  · intro tree
    obtain ⟨⟨span, piece⟩, member, isTree⟩ := List.any_eq_true.1 tree
    have bounds := shown.start_lt member
    obtain ⟨front, back, rfl⟩ := List.append_of_mem member
    have stands := (shows_append_cons.1 shown).2.1
    cases piece with
    | op op => contradiction
    | word => contradiction
    | tree expr =>
        obtain ⟨id, -, first, -⟩ := stands.tagged
        dsimp only at bounds first
        exact ⟨span.start, bounds.1, by omega, by rw [first]; rfl⟩

theorem leaf_tracks (agrees : Agrees state other)
    (shown : Shows state (hull segments).start (hull segments).stop segments) :
    Tracks (fun left right final => SameQuietly state left right final ∧
        HasSpan left (hull segments))
      (leaf (hull segments) state) (OnSegments.leaf segments other) := by
  unfold leaf OnSegments.leaf
  refine Tracks.getLedger ?_
  rw [Span.length, shown.hasPending]
  split
  · refine Tracks.bind (newNode_tracks _ agrees) ?_
    rintro node _ state₁ other₁ agrees₁ ⟨⟨rfl, ledger₁, pending₁⟩, placed⟩
    exact Tracks.pure agrees₁ ⟨⟨rfl, ledger₁, pending₁⟩, congrArg some placed⟩
  · have text : state.ledger.slice (hull segments) = other.ledger.slice (hull segments) := by
      rw [Ledger.slice_eq, Ledger.slice_eq, agrees.chars]
    rw [text]
    exact classify_tracks _ _ agrees

/-! ## Rounds -/

theorem fold_tracks (simulates : Simulates bound operands onSegments) (agrees : Agrees state other)
    (shown : Shows state range.start range.stop (before ++ segment :: after))
    {candidate : Candidate} (isOp : segment.op? = some candidate.op)
    (position : candidate.position = segment.span.start)
    (short : (before ++ segment :: after).length ≤ bound) :
    Tracks (Takes range (before ++ segment :: after).length state)
      (fold operands candidate range state)
      (OnSegments.fold onSegments candidate range.length before after other) := by
  obtain ⟨place, op, isSign⟩ := candidate
  dsimp only at isOp position
  subst position
  have full : Tracks (Takes range (before ++ segment :: after).length state)
      ((if isSign then unary operands op segment.span.start range
        else if op.isAssignment then assignment operands op segment.span.start range
        else if op.isClosing then rejectBracket op segment.span.start
        else binary operands op segment.span.start range) state)
      ((if isSign then OnSegments.unary onSegments op segment.span.start before after
        else if op.isAssignment then
          OnSegments.assignment onSegments op segment.span.start before after
        else if op.isClosing then rejectBracket op segment.span.start
        else OnSegments.binary onSegments op segment.span.start before after) other) := by
    split
    · exact unary_tracks simulates agrees shown short isOp
    · split
      · exact assignment_tracks simulates agrees shown short isOp
      · split
        · exact rejectBracket_tracks _ _ agrees
        · exact binary_tracks simulates agrees shown short isOp
  cases op with
  | openParen => exact bracket_tracks simulates agrees shown isOp rfl short
  | openBracket => exact bracket_tracks simulates agrees shown isOp rfl short
  | openBrace => exact bracket_tracks simulates agrees shown isOp rfl short
  | question => exact conditional_tracks simulates agrees shown short isOp
  | dot => exact access_tracks simulates agrees shown short isOp
  | instanceOf => exact typeTest_tracks simulates agrees shown short isOp
  | increment => exact unary_tracks simulates agrees shown short isOp
  | decrement => exact unary_tracks simulates agrees shown short isOp
  | not => exact unary_tracks simulates agrees shown short isOp
  | _ => exact full

theorem pendingAt?_eq (shown : Shows state range.start range.stop segments)
    (spans : hull segments = range) (present : segments ≠ []) :
    pendingAt? state range = OnSegments.whole? segments := by
  obtain ⟨⟨span, piece⟩, rest, rfl⟩ := List.exists_cons_of_ne_nil present
  have first : range.start = span.start := by rw [← spans]; rfl
  obtain ⟨-, stands, later⟩ := shown
  have nonempty := stands.nonempty
  rw [pendingAt?, first]
  cases piece with
  | op op =>
      rw [show state.ledger.tag? span.start = _ from stands.tagged.2.1]
      cases rest <;> rfl
  | word =>
      rw [stands.tagged span.start (Nat.le_refl _) nonempty]
      cases rest <;> rfl
  | tree expr =>
      obtain ⟨id, kept, head, -⟩ := stands.tagged
      rw [show state.ledger.tag? span.start = _ from head]
      dsimp only
      rw [kept, Option.join_some]
      dsimp only
      cases rest with
      | nil =>
          obtain rfl : span = range := spans
          rw [if_pos (beq_self_eq_true span)]
          rfl
      | cons next rest =>
          have low := later.1.1
          have inner := later.2.1.nonempty
          have high := later.2.2.le
          have other : (span == range) = false := by
            rw [beq_eq_false_iff_ne]
            rintro rfl
            dsimp only at low
            omega
          rw [if_neg (by rw [other]; exact Bool.false_ne_true)]
          rfl

/-- A range with solid ends is the hull of what it shows. -/
theorem Shows.hull_eq (shown : Shows state range.start range.stop segments)
    (present : segments ≠ []) (first : state.ledger.isSpace range.start = false)
    (last : state.ledger.isSpace (range.stop - 1) = false) : Reduction.hull segments = range := by
  obtain ⟨gap, -, gap', nonempty⟩ := shown.hull present
  have starts : (Reduction.hull segments).start = range.start := by
    refine Nat.le_antisymm (Nat.le_of_not_lt fun later => ?_) gap.1
    rw [gap.isSpace (Nat.le_refl _) later] at first
    contradiction
  have stops : (Reduction.hull segments).stop = range.stop := by
    refine Nat.le_antisymm gap'.1 (Nat.le_of_not_lt fun earlier => ?_)
    rw [gap'.isSpace (by omega) (by omega)] at last
    contradiction
  exact congrArg₂ Span.mk starts stops

theorem mem_of_foldl_better {candidates : List Candidate} {best : Option Candidate}
    {found : Candidate}
    (folded : candidates.foldl (fun best next => some (Candidate.better best next)) best =
      some found) : found ∈ candidates ∨ best = some found := by
  induction candidates generalizing best with
  | nil => exact .inr folded
  | cons next rest induction =>
      rcases induction folded with member | same
      · exact .inl (List.mem_cons_of_mem _ member)
      · obtain rfl := Option.some.inj same
        cases best with
        | none => exact .inl List.mem_cons_self
        | some best =>
            rw [Candidate.better]
            split
            · exact .inl List.mem_cons_self
            · exact .inr rfl

theorem exists_of_mem_candidatesFrom {candidate : Candidate} {last : Option Segment}
    (member : candidate ∈ OnSegments.candidatesFrom last segments) :
    ∃ before segment after, segments = before ++ segment :: after ∧
      segment.op? = some candidate.op ∧ candidate.position = segment.span.start := by
  induction segments generalizing last with
  | nil => contradiction
  | cons segment rest induction =>
      have later (inRest : candidate ∈ OnSegments.candidatesFrom (some segment) rest) :
          ∃ before found after, segment :: rest = before ++ found :: after ∧
            found.op? = some candidate.op ∧ candidate.position = found.span.start := by
        obtain ⟨before, found, after, rfl, isOp, position⟩ := induction inRest
        exact ⟨segment :: before, found, after, rfl, isOp, position⟩
      rw [OnSegments.candidatesFrom] at member
      split at member
      · exact later member
      · next op isOp =>
          split at member
          · exact later member
          · rcases List.mem_cons.1 member with rfl | inRest
            · exact ⟨[], segment, rest, rfl, isOp, rfl⟩
            · exact later inRest

theorem exists_of_best? {candidate : Candidate}
    (best : OnSegments.best? segments = some candidate) :
    ∃ before segment after, segments = before ++ segment :: after ∧
      segment.op? = some candidate.op ∧ candidate.position = segment.span.start := by
  rcases mem_of_foldl_better best with member | same
  · exact exists_of_mem_candidatesFrom member
  · contradiction

/-- Keeping an expression as pending puts it where its segments were. -/
theorem keepPending_shows {span : Span} {expr : Expr} (has : HasSpan expr span)
    (nonempty : span.start < span.stop) (first : state.ledger.isSpace span.start = false)
    (last : state.ledger.isSpace (span.stop - 1) = false)
    (left : Shows state range.start span.start before)
    (right : Shows state span.stop range.stop after) :
    ∃ final, keepPending span expr state = .ok () final ∧
      (∀ other, Agrees state other → Agrees final other) ∧
      Changes range.start range.stop state final ∧
      Shows final range.start range.stop (before ++ ⟨span, .tree expr⟩ :: after) := by
  have low := left.le
  have high := right.le
  have size := right.stop_le_size
  have changes : Changes span.start span.stop state
      { state with
        pending := state.pending.push (some ⟨span, expr⟩)
        ledger := state.ledger.mark span (.pending state.pending.size) } := by
    have marked := Changes.mark state span (show (Tag.pending state.pending.size).isSpace = false
      from rfl)
    refine ⟨marked.chars, marked.tags, marked.spaces, fun id subtree known _ => ?_⟩
    have inside : id < state.pending.size := (Array.getElem?_eq_some_iff.1 known).1
    dsimp only
    rw [Array.getElem?_push, if_neg (by omega), known]
  have tag (p : Nat) (above : span.start ≤ p) (below : p < span.stop) :
      (state.ledger.mark span (.pending state.pending.size)).tag? p =
        if state.ledger.isSpace p then some .space else some (.pending state.pending.size) := by
    rw [Ledger.tag?_mark, if_pos ⟨above, below⟩]
    cases known : state.ledger.tag? p with
    | none =>
        have outside := Ledger.tag?_eq_none.1 known
        omega
    | some found =>
        rw [Option.map_some, Ledger.markedTag, Ledger.isSpace, known, Option.any_some]
        cases found <;> rfl
  refine ⟨_, rfl, fun other agrees => ?_, changes.mono low high, shows_append_cons.2 ⟨?_, ?_, ?_⟩⟩
  · exact ⟨(Ledger.chars_mark ..).trans agrees.chars, agrees.scope, agrees.deepest, agrees.pairs,
      agrees.body⟩
  · exact changes.shows_ left (.inl (Nat.le_refl _))
  · refine ⟨nonempty, ⟨state.pending.size, ?_, ?_, ?_, fun p above below => ?_⟩, ?_⟩
    · simp
    · rw [tag _ (Nat.le_refl _) nonempty, first]
      rfl
    · have inside : span.start ≤ span.stop - 1 ∧ span.stop - 1 < span.stop := by omega
      rw [tag _ inside.1 inside.2, last]
      rfl
    · dsimp only
      rw [tag p above below]
      cases state.ledger.isSpace p
      · exact .inr rfl
      · exact .inl rfl
    · intro other same
      obtain rfl := Piece.tree.inj same
      exact has
  · exact changes.shows_ right (.inr (Nat.le_refl _))

theorem whole?_hasSpan {start stop : Nat} (shown : Shows state start stop segments) {expr : Expr}
    (whole : OnSegments.whole? segments = some expr) : HasSpan expr (hull segments) := by
  unfold OnSegments.whole? at whole
  split at whole
  · next segment =>
      obtain ⟨span, piece⟩ := segment
      cases piece with
      | op op => contradiction
      | word => contradiction
      | tree other =>
          obtain rfl := Option.some.inj whole
          exact shown.2.1.placed other rfl
  · contradiction

/-- A fold covers a range with solid ends when nothing is left around it. -/
theorem span_eq_iff {span : Span} (left : Shows state range.start span.start before)
    (right : Shows state span.stop range.stop after)
    (first : state.ledger.isSpace range.start = false)
    (last : state.ledger.isSpace (range.stop - 1) = false) :
    span = range ↔ before = [] ∧ after = [] := by
  constructor
  · rintro rfl
    constructor
    · refine List.eq_nil_iff_forall_not_mem.2 fun segment member => ?_
      have bounds := left.start_lt member
      omega
    · refine List.eq_nil_iff_forall_not_mem.2 fun segment member => ?_
      have bounds := right.start_lt member
      omega
  · rintro ⟨rfl, rfl⟩
    have starts : span.start = range.start := by
      refine Nat.le_antisymm (Nat.le_of_not_lt fun later => ?_) left.1.1
      rw [left.1.isSpace (Nat.le_refl _) later] at first
      contradiction
    have stops : span.stop = range.stop := by
      refine Nat.le_antisymm right.1.1 (Nat.le_of_not_lt fun earlier => ?_)
      rw [right.1.isSpace (by omega) (by omega)] at last
      contradiction
    exact congrArg₂ Span.mk starts stops

theorem rounds_tracks (simulates : Simulates bound operands onSegments) (count : Nat)
    (agrees : Agrees state other) (shown : Shows state range.start range.stop segments)
    (spans : hull segments = range) (present : segments ≠ []) (short : segments.length ≤ bound) :
    Tracks (fun left right final => left = right ∧ Changes range.start range.stop state final ∧
        HasSpan left range)
      (rounds operands range count state) (OnSegments.rounds onSegments count segments other) := by
  induction count generalizing state other segments with
  | zero =>
      unfold rounds OnSegments.rounds
      rw [spans]
      refine Tracks.bind (blind_textAt _ _ _ agrees) ?_
      rintro text _ state₁ other₁ agrees₁ ⟨rfl, -, -⟩
      exact ⟨rfl, agrees₁⟩
  | succ count induction =>
      unfold rounds OnSegments.rounds
      refine Tracks.bind (blind_modifyBody _ _ _ agrees) ?_
      rintro _ _ state₁ other₁ agrees₁ ⟨-, ledger₁, pending₁⟩
      have counted : Changes range.start range.stop state state₁ := Changes.of_eq ledger₁ pending₁
      have shown₁ := shown.of_eq ledger₁ pending₁
      have first := shown₁.isSpace_hull_start present
      have last := shown₁.isSpace_hull_stop present
      rw [spans] at first last
      refine Tracks.ok_left (show (get : ReduceM Reduction) state₁ = .ok state₁ state₁ from rfl) ?_
      rw [pendingAt?_eq shown₁ spans present]
      have marked (expr : Expr) {final : Reduction} {after : Reduction}
          (agrees : Agrees final after)
          (changes : Changes range.start range.stop state final) (has : HasSpan expr range) :
          Tracks (fun left right final => left = right ∧
              Changes range.start range.stop state final ∧ HasSpan left range)
            ((do markSpan range .resolved; return expr : ReduceM Expr) final)
            ((pure expr : ReduceM Expr) after) :=
        Tracks.markSpan (Tracks.pure (agrees.mark _ _)
          ⟨rfl, changes.trans (Changes.mark _ _ rfl), has⟩)
      cases whole : OnSegments.whole? segments with
      | some expr =>
          refine marked expr agrees₁ counted ?_
          rw [← spans]
          exact whole?_hasSpan shown₁ whole
      | none =>
          refine Tracks.bind (nextCandidate_tracks agrees₁ shown₁) ?_
          rintro candidate _ state₂ other₂ agrees₂ ⟨rfl, same, best⟩
          subst same
          cases candidate with
          | none =>
              have tracks := leaf_tracks agrees₂ (spans.symm ▸ shown₁)
              rw [spans] at tracks
              rw [← bind_pure (OnSegments.leaf segments)]
              refine Tracks.bind tracks ?_
              rintro expr _ state₃ other₃ agrees₃ ⟨⟨rfl, ledger₃, pending₃⟩, has⟩
              exact marked expr agrees₃ (counted.trans (Changes.of_eq ledger₃ pending₃)) has
          | some candidate =>
              obtain ⟨before, segment, after, rfl, isOp, position⟩ := exists_of_best? best.symm
              dsimp only
              rw [position, splitAt_eq shown₁, spans]
              refine Tracks.bind (fold_tracks simulates agrees₂ shown₁ isOp position short) ?_
              rintro expr ⟨front, _, back⟩ state₃ other₃ agrees₃ ⟨rfl, shorter, changes₃, span, has,
                nonempty, solid, solid', left, right⟩
              have changes := counted.trans changes₃
              have low := left.le
              have high := right.le
              have covers : range.covers span = true := (Span.covers_iff _ _).2 ⟨low, high⟩
              have ends : (span == range) = (front.isEmpty && back.isEmpty) := by
                rw [Bool.eq_iff_iff, beq_iff_eq, Bool.and_eq_true, List.isEmpty_iff,
                  List.isEmpty_iff]
                exact span_eq_iff left right ((changes₃.spaces _).trans first)
                  ((changes₃.spaces _).trans last)
              dsimp only
              rw [has, Option.getD_some, covers, Bool.not_true,
                if_neg Bool.false_ne_true, ends]
              cases all : front.isEmpty && back.isEmpty with
              | true =>
                  rw [all, beq_iff_eq] at ends
                  rw [ends] at has
                  exact marked expr agrees₃ changes has
              | false =>
                  obtain ⟨state₄, kept, keeps, changes₄, shown₄⟩ :=
                    keepPending_shows has nonempty solid solid' left right
                  refine Tracks.ok_left kept ?_
                  have spaces (p : Nat) : state₄.ledger.isSpace p = state₂.ledger.isSpace p :=
                    (changes₄.spaces p).trans (changes₃.spaces p)
                  have spans₄ := shown₄.hull_eq (by simp) ((spaces _).trans first)
                    ((spaces _).trans last)
                  simp only [List.length_append, List.length_cons] at short shorter
                  refine (induction (keeps _ agrees₃) shown₄ spans₄ (by simp) ?_).imp ?_
                  · simp only [List.length_append, List.length_cons]
                    omega
                  · rintro left right final ⟨same, changes₅, has₅⟩
                    exact ⟨same, (changes.trans changes₄).trans changes₅, has₅⟩

/-- A range is reduced as its segments are, when its operands are. -/
theorem reduceBy_simulates {nesting depth : Nat}
    (simulates : Simulates nesting operands (OnSegments.reduce nesting (depth + 1))) :
    Simulates (nesting + 1) (reduceBy operands depth) (OnSegments.reduce (nesting + 1) depth) := by
  intro state other start stop segments short agrees shown
  unfold reduceBy OnSegments.reduce
  refine Tracks.bind (blind_deepen depth state other agrees) ?_
  rintro _ _ state₁ other₁ agrees₁ ⟨-, ledger₁, pending₁⟩
  have shown₁ := shown.of_eq ledger₁ pending₁
  refine Tracks.getLedger ?_
  rw [shown₁.trim_isEmpty]
  cases empty : segments.isEmpty with
  | true =>
      exact Tracks.pure agrees₁ ⟨rfl, Changes.of_eq ledger₁ pending₁, List.isEmpty_iff.1 empty⟩
  | false =>
      have present := List.isEmpty_eq_false_iff.1 empty
      obtain ⟨gap, inner, gap', -⟩ := shown₁.hull present
      rw [shown₁.trim present, if_neg Bool.false_ne_true, if_neg Bool.false_ne_true]
      refine Tracks.bind (rounds_tracks simulates Limits.reductionRounds agrees₁ inner rfl present
        (by omega)) ?_
      rintro expr _ state₂ other₂ agrees₂ ⟨rfl, changes₂, has⟩
      exact Tracks.pure agrees₂ ⟨rfl, (Changes.of_eq ledger₁ pending₁).trans
        (changes₂.mono gap.1 gap'.1), present, has⟩

theorem reduce_simulates (nesting depth : Nat) :
    Simulates nesting (reduce nesting depth) (OnSegments.reduce nesting depth) := by
  induction nesting generalizing depth with
  | zero =>
      intro state other start stop segments short
      exact absurd short (Nat.not_lt_zero _)
  | succ nesting induction => exact reduceBy_simulates (induction (depth + 1))

/-- Every segment has a position of its own. -/
theorem Shows.length_le {start stop : Nat} (shown : Shows state start stop segments) :
    start + segments.length ≤ stop := by
  induction segments generalizing start with
  | nil => exact shown.1.1
  | cons segment rest induction =>
      have low := shown.1.1
      have nonempty := shown.2.1.nonempty
      have high := induction shown.2.2
      rw [List.length_cons]
      omega

/-- A statement is reduced as its segments are. -/
theorem statement_tracks (agrees : Agrees state other)
    (shown : Shows state 0 state.ledger.size segments) :
    Tracks (fun left right _ => left = right) (statement state)
      (OnSegments.statement (state.ledger.size + 2) segments other) := by
  have counted := shown.length_le
  unfold statement OnSegments.statement
  refine Tracks.bind (blind_modifyBody _ _ _ agrees) ?_
  rintro _ _ state₁ other₁ agrees₁ ⟨-, ledger₁, pending₁⟩
  refine Tracks.getLedger ?_
  rw [ledger₁]
  refine Tracks.bind (reduce_simulates (state.ledger.size + 2) 1 state₁ other₁ 0 _ segments
    (by omega) agrees₁ (shown.of_eq ledger₁ pending₁)) ?_
  rintro expr _ state₂ other₂ agrees₂ ⟨rfl, -, -⟩
  refine ⟨⟨agrees₂.chars, agrees₂.scope, agrees₂.deepest, agrees₂.pairs, ?_⟩, rfl⟩
  simp only [agrees₂.body, agrees₂.deepest]

end

end Reduction
end MethodLowering
