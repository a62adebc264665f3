import MethodLowering.Proofs.Ledger.Scanning
import MethodLowering.Proofs.Reduction.Lossless

/-!
# Reducing a scanned text

A scan leaves nothing but segments of the text, so a statement is reduced over them: its tree is
faithful to the text and covers it up to the blanks around it.
-/

namespace MethodLowering

open Text

namespace Text

section

variable {text : List Char} {p : Nat}

/-! ## Literals and blanks -/

/-- The delimiter of a literal is a quotation mark. -/
def Quote.IsMarked : Quote → Prop
  | .outside => True
  | .inside delimiter _ => isQuoteMark delimiter = true

theorem Quote.IsMarked.after {quote : Quote} (marked : quote.IsMarked) (text : List Char) :
    (quote.after text).IsMarked := by
  induction text generalizing quote with
  | nil => exact marked
  | cons c rest induction =>
      refine induction ?_
      cases quote with
      | outside =>
          rw [Quote.next]
          split
          · next mark => exact mark
          · trivial
      | inside delimiter escaped =>
          cases escaped with
          | true => exact marked
          | false =>
              rw [Quote.next]
              split
              · exact marked
              · split
                · trivial
                · exact marked

/-- Without quotation marks, no literal is opened or closed. -/
theorem Quote.IsMarked.isInside_after {quote : Quote} (marked : quote.IsMarked)
    (unmarked : ∀ c ∈ text, isQuoteMark c = false) :
    (quote.after text).isInside = quote.isInside := by
  induction text generalizing quote with
  | nil => rfl
  | cons c rest induction =>
      have plain := unmarked c List.mem_cons_self
      have later := fun other member => unmarked other (List.mem_cons_of_mem c member)
      have stays : (quote.next c).isInside = quote.isInside := by
        cases quote with
        | outside => rw [Quote.next, if_neg (Bool.eq_false_iff.1 plain)]
        | inside delimiter escaped =>
            cases escaped with
            | true => rfl
            | false =>
                have open_ : (c == delimiter) = false := by
                  rw [beq_eq_false_iff_ne]
                  rintro rfl
                  rw [show isQuoteMark c = true from marked] at plain
                  contradiction
                rw [Quote.next, open_]
                split
                · rfl
                · rfl
      have nextMarked : (quote.next c).IsMarked := marked.after [c]
      rw [Quote.after_cons, induction nextMarked later, stays]

/-- A blank that nothing but blanks follow is in a literal only when the text ends inside it. -/
theorem isInside_of_inLiteral (literal : InLiteral text p)
    (blank : ∀ c ∈ text.drop p, isBlank c = true) : (Quote.outside.after text).isInside = true := by
  have marked : (Quote.outside.after (text.take p)).IsMarked :=
    Quote.IsMarked.after (show Quote.outside.IsMarked from trivial) _
  have same := marked.isInside_after fun c member => isQuoteMark_of_isBlank (blank c member)
  rw [← Quote.after_append, List.take_append_drop] at same
  rw [same]
  cases here : text[p]? with
  | none =>
      rw [InLiteral, here] at literal
      contradiction
  | some c =>
      have member : c ∈ text.drop p := List.mem_iff_getElem?.2 ⟨0, by simpa using here⟩
      have plain := isQuoteMark_of_isBlank (blank c member)
      rw [InLiteral, here, Option.any_some] at literal
      cases quote : Quote.outside.after (text.take p) with
      | outside =>
          rw [quote] at literal
          exact absurd (plain.symm.trans literal) Bool.false_ne_true
      | inside delimiter escaped => rfl

/-- A blank that only blanks precede is in no literal. -/
theorem not_inLiteral_of_blank (blank : ∀ c ∈ text.take p, isBlank c = true)
    (here : text[p]?.any isBlank = true) : ¬ InLiteral text p := by
  intro literal
  rw [InLiteral, Quote.after_of_plain fun c member => isQuoteMark_of_isBlank (blank c member)]
    at literal
  cases known : text[p]? with
  | none =>
      rw [known] at here
      contradiction
  | some c =>
      rw [known] at here literal
      exact Bool.false_ne_true ((isQuoteMark_of_isBlank here).symm.trans literal)

/-! ## Trimming -/

theorem squeeze_of_blank (blank : ∀ c ∈ text, isBlank c = true) : squeeze text = [] := by
  rw [squeeze, List.filter_eq_nil_iff]
  intro c member
  rw [blank c member]
  exact Bool.false_ne_true

/-- Blanks around a span do not count. -/
theorem between_eq_squeeze {start stop : Nat} (front : ∀ c ∈ text.take start, isBlank c = true)
    (back : ∀ c ∈ text.drop stop, isBlank c = true) (order : start ≤ stop) :
    between text start stop = squeeze text := by
  have split : text = text.take start ++ Span.slice ⟨start, stop⟩ text ++ text.drop stop := by
    have later := List.take_append_drop (stop - start) (text.drop start)
    rw [List.drop_drop, Nat.add_sub_cancel' order] at later
    rw [Span.slice, Span.length, List.append_assoc, later, List.take_append_drop]
  calc between text start stop
      _ = squeeze (text.take start) ++ between text start stop ++ squeeze (text.drop stop) := by
          rw [squeeze_of_blank front, squeeze_of_blank back, List.nil_append, List.append_nil]
      _ = squeeze text := by
          rw [between, ← squeeze_append, ← squeeze_append, ← split]

theorem length_takeWhile_isBlank (blank : ∀ c ∈ text.take p, isBlank c = true)
    (solid : text[p]?.any isBlank = false) (inside : p ≤ text.length) :
    (text.takeWhile isBlank).length = p := by
  have behind : (text.drop p).takeWhile isBlank = [] := by
    cases rest : text.drop p with
    | nil => rfl
    | cons c later =>
        have here : text[p]? = some c := by
          rw [← List.head?_drop, rest, List.head?_cons]
        rw [here, Option.any_some] at solid
        rw [List.takeWhile_cons_of_neg (Bool.eq_false_iff.1 solid)]
  rw [← List.take_append_drop p text, List.takeWhile_append_of_pos blank, behind, List.append_nil,
    List.length_take, Nat.min_eq_left inside]

theorem trim_eq_slice {span : Span} (front : ∀ c ∈ text.take span.start, isBlank c = true)
    (back : ∀ c ∈ text.drop span.stop, isBlank c = true) (order : span.start < span.stop)
    (inside : span.stop ≤ text.length) (first : text[span.start]?.any isBlank = false)
    (last : text[span.stop - 1]?.any isBlank = false) : span.slice text = trim text := by
  have split : text.drop span.start = span.slice text ++ text.drop span.stop := by
    have length : span.start + span.length = span.stop := by
      rw [Span.length]
      omega
    rw [Span.slice, ← length, ← List.drop_drop, List.take_append_drop]
  have startsSolid : trimStart (text.drop span.start) = text.drop span.start := by
    refine trimStart_eq_self ?_
    rw [List.head?_drop, first]
    exact Bool.false_ne_true
  have endsSolid : ¬ (span.slice text).getLast?.any isBlank = true := by
    intro blank
    cases known : (span.slice text).getLast? with
    | none =>
        rw [known] at blank
        contradiction
    | some c =>
        rw [known, Option.any_some] at blank
        rw [List.getLast?_eq_getElem?] at known
        simp only [Span.slice, Span.length, List.getElem?_take, List.getElem?_drop,
          List.length_take, List.length_drop] at known
        split at known
        · rw [show span.start + (min (span.stop - span.start) (text.length - span.start) - 1) =
            span.stop - 1 by omega] at known
          rw [known, Option.any_some, blank] at last
          contradiction
        · contradiction
  calc span.slice text
      _ = trimEnd (span.slice text) := (trimEnd_eq_self endsSolid).symm
      _ = trimEnd (span.slice text ++ text.drop span.stop) := by
          rw [trimEnd, trimEnd, List.reverse_append, List.dropWhile_append_of_pos]
          simpa using back
      _ = trimEnd (trimStart (text.drop span.start)) := by rw [startsSolid, split]
      _ = trim text := by
          rw [trim, trimStart, trimStart, ← List.dropWhile_append_of_pos front,
            List.take_append_drop]

end

end Text

namespace Ledger.WellTagged

variable {text : List Char} {ledger : Ledger} {p : Nat} {op : Op}

/-- No operator reaches behind a position that is not part of one. -/
theorem not_tail_succ (well : WellTagged text ledger)
    (first : ∀ op, ledger.tag? p ≠ some (.operatorTail op))
    (other : ∀ op, ledger.tag? p ≠ some (.operator op)) (tail : Op) :
    ledger.tag? (p + 1) ≠ some (.operatorTail tail) := by
  intro known
  obtain ⟨start, low, high, head⟩ := well.tail _ _ known
  rcases Nat.lt_succ_iff_lt_or_eq.1 low with before | rfl
  · exact first tail ((well.head start tail head).2 p before (by omega))
  · exact other tail head

/-- No operator reaches behind the end of another one. -/
theorem not_tail_behind (well : WellTagged text ledger)
    (head : ledger.tag? p = some (.operator op)) (tail : Op) :
    ledger.tag? (p + op.width) ≠ some (.operatorTail tail) := by
  intro known
  obtain ⟨start, low, high, other⟩ := well.tail _ _ known
  rcases Nat.lt_trichotomy start p with before | rfl | behind
  · have inTail := (well.head start tail other).2 p before (by omega)
    rw [head] at inTail
    cases inTail
  · rw [head] at other
    obtain rfl : op = tail := by simpa using other
    omega
  · have inTail := (well.head p op head).2 start behind low
    rw [other] at inTail
    cases inTail

end Ledger.WellTagged

namespace Reduction

section

variable {text : List Char} {state : Reduction} {start stop p : Nat} {segments : List Segment}

theorem portrays_of_wellTagged (well : Ledger.WellTagged text state.ledger) : Portrays text state :=
  ⟨well.chars, fun p space => well.blank p (isSpace_iff.1 space)⟩

/-- From any position that no operator reaches across, the ledger shows segments of the text. -/
theorem exists_shows (well : Ledger.WellTagged text state.ledger) (inside : p ≤ text.length)
    (first : ∀ op, state.ledger.tag? p ≠ some (.operatorTail op)) :
    ∃ segments, Shows state p text.length segments ∧ ∀ segment ∈ segments, segment.Fits text := by
  obtain ⟨count, length⟩ : ∃ count, text.length - p = count := ⟨_, rfl⟩
  induction count using Nat.strongRecOn generalizing p with
  | ind count induction =>
      cases known : state.ledger.tag? p with
      | none =>
          have size := Ledger.tag?_eq_none.1 known
          rw [well.size] at size
          refine ⟨[], ⟨⟨inside, fun q low high => ?_⟩, Nat.le_of_eq well.size.symm⟩, nofun⟩
          omega
      | some tag =>
          have present : p < text.length := by
            rw [← well.size]
            exact Ledger.lt_size_of_tag? known
          have raw := well.raw p tag known
          cases tag with
          | space =>
              obtain ⟨segments, shown, fits⟩ := induction _ (by omega) (p := p + 1) present
                (well.not_tail_succ first (by simp [known])) rfl
              refine ⟨segments, Shows.behindGap ⟨Nat.le_succ p, fun q low high => ?_⟩ shown, fits⟩
              rw [show q = p by omega]
              exact known
          | unresolved =>
              obtain ⟨segments, shown, fits⟩ := induction _ (by omega) (p := p + 1) present
                (well.not_tail_succ first (by simp [known])) rfl
              refine ⟨⟨⟨p, p + 1⟩, .word⟩ :: segments, ⟨⟨Nat.le_refl _, fun q low high => ?_⟩,
                ⟨Nat.lt_succ_self p, fun q low high => ?_, nofun⟩, shown⟩, ?_⟩
              · dsimp only at high
                omega
              · dsimp only at low high
                rw [show q = p by omega]
                exact known
              · simpa [Segment.Fits] using fits
          | operator op =>
              obtain ⟨spelled, tails⟩ := well.head p op known
              have positive := Ledger.width_pos op
              have last := Ledger.le_length_of_slice (congrArg List.length spelled) positive
              obtain ⟨segments, shown, fits⟩ := induction _ (by omega) (p := p + op.width) last
                (well.not_tail_behind known) rfl
              refine ⟨⟨⟨p, p + op.width⟩, .op op⟩ :: segments,
                ⟨⟨Nat.le_refl _, fun q low high => ?_⟩,
                ⟨?_, ⟨rfl, known, tails⟩, nofun⟩, shown⟩, ?_⟩
              · dsimp only at high
                omega
              · dsimp only
                omega
              · have solid : between text p (p + op.width) = op.spelling := by
                  rw [between, spelled, squeeze, List.filter_eq_self]
                  intro c member
                  rw [Op.isBlank_of_mem member]
                  rfl
                simpa [Segment.Fits, solid] using fits
          | operatorTail op => exact absurd known (first op)
          | resolved => exact absurd rfl raw.1
          | pending id => exact absurd rfl (raw.2 id)

theorem exists_depicts (well : Ledger.WellTagged text state.ledger) :
    ∃ segments, Depicts text state 0 text.length segments := by
  have first (op : Op) : state.ledger.tag? 0 ≠ some (.operatorTail op) := by
    intro known
    obtain ⟨p, low, -, -⟩ := well.tail 0 op known
    contradiction
  obtain ⟨segments, shown, fits⟩ := exists_shows well (Nat.zero_le _) first
  exact ⟨segments, portrays_of_wellTagged well, shown, fits⟩

/-- The segments of a text reach from its first character that is no blank to its last one. -/
theorem Depicts.hull_trims (depicts : Depicts text state 0 text.length segments)
    (literal : ∀ p, text[p]?.any isBlank = true → state.ledger.tag? p = some .space ∨
      InLiteral text p) (present : segments ≠ []) :
    (hull segments).start = (text.takeWhile isBlank).length ∧
      (∀ c ∈ text.drop (hull segments).stop, isBlank c = true) ∧
      ((Quote.outside.after text).isInside = false → (hull segments).slice text = trim text) := by
  obtain ⟨before, shown, behind, order⟩ := depicts.shown.hull present
  have size := depicts.portrays.size
  have inside : (hull segments).stop ≤ text.length := behind.1
  have blankAt {p : Nat} {c : Char} (space : state.ledger.tag? p = some .space)
      (here : text[p]? = some c) : isBlank c = true := by
    have blank := depicts.portrays.blank p (isSpace_iff.2 space)
    rwa [here] at blank
  have front : ∀ c ∈ text.take (hull segments).start, isBlank c = true := by
    intro c member
    obtain ⟨i, here⟩ := List.mem_iff_getElem?.1 member
    rw [List.getElem?_take] at here
    split at here
    · next low => exact blankAt (before.2 i (Nat.zero_le _) low) here
    · contradiction
  have back : ∀ c ∈ text.drop (hull segments).stop, isBlank c = true := by
    intro c member
    obtain ⟨i, here⟩ := List.mem_iff_getElem?.1 member
    rw [List.getElem?_drop] at here
    have low := (List.getElem?_eq_some_iff.1 here).1
    exact blankAt (behind.2 _ (Nat.le_add_right _ _) low) here
  have notSpace {p : Nat} (solid : state.ledger.isSpace p = false) :
      state.ledger.tag? p ≠ some .space := by
    intro space
    rw [isSpace_iff.2 space] at solid
    contradiction
  have first : text[(hull segments).start]?.any isBlank = false := by
    rw [Bool.eq_false_iff]
    intro blank
    rcases literal _ blank with space | within
    · exact notSpace (depicts.shown.isSpace_hull_start present) space
    · exact not_inLiteral_of_blank front blank within
  refine ⟨(length_takeWhile_isBlank front first (by omega)).symm, back, fun closed => ?_⟩
  refine trim_eq_slice front back order inside first ?_
  rw [Bool.eq_false_iff]
  intro blank
  rcases literal _ blank with space | within
  · exact notSpace (depicts.shown.isSpace_hull_stop present) space
  · -- the last character would be a blank of a literal that is still open
    have later : ∀ c ∈ text.drop ((hull segments).stop - 1), isBlank c = true := by
      have bound : (hull segments).stop - 1 < text.length := by omega
      rw [List.drop_eq_getElem_cons bound, Nat.sub_add_cancel (by omega : 1 ≤ _)]
      rw [List.getElem?_eq_getElem bound] at blank
      intro c member
      rcases List.mem_cons.1 member with rfl | behindIt
      · exact blank
      · exact back c behindIt
    rw [isInside_of_inLiteral within later] at closed
    contradiction

/-- The reduction of a scanned text tracks that of the segments it shows. -/
theorem scan_tracks (text : List Char) (scope : ParagraphId) (body : Body) :
    ∃ segments, Depicts text { ledger := Ledger.scan text, scope, body } 0 text.length segments ∧
      Tracks (fun left right _ => left = right)
        (statement { ledger := Ledger.scan text, scope, body })
        (OnSegments.statement (text.length + 2) segments
          { ledger := Ledger.scan text, scope, body }) := by
  have well := (Ledger.scan_sound text).1
  let state : Reduction := { ledger := Ledger.scan text, scope, body }
  have wellTagged : Ledger.WellTagged text state.ledger := well
  obtain ⟨segments, depicts⟩ := exists_depicts wellTagged
  have size : state.ledger.size = text.length := well.size
  have shown : Shows state 0 state.ledger.size segments := by
    rw [size]
    exact depicts.shown
  have tracks := statement_tracks ⟨rfl, rfl, rfl, rfl, rfl⟩ shown
  rw [size] at tracks
  exact ⟨segments, depicts, tracks⟩

/-- A scanned text is reduced to what its segments are reduced to. -/
theorem exists_onSegments {scope : ParagraphId} {body : Body} {expr : Expr} {after : Reduction}
    (reduces : statement { ledger := Ledger.scan text, scope, body } = .ok expr after) :
    ∃ segments last, Depicts text { ledger := Ledger.scan text, scope, body } 0
      text.length segments ∧
      OnSegments.statement (text.length + 2) segments { ledger := Ledger.scan text, scope, body } =
        .ok expr last ∧ Agrees after last := by
  obtain ⟨segments, depicts, tracks⟩ := scan_tracks text scope body
  rw [reduces] at tracks
  cases result : OnSegments.statement (text.length + 2) segments
    { ledger := Ledger.scan text, scope, body } with
  | error failure other =>
      rw [result] at tracks
      exact tracks.elim
  | ok other last =>
      rw [result] at tracks
      obtain ⟨agrees, rfl⟩ := tracks
      exact ⟨segments, last, depicts, result, agrees⟩

/-- Reducing a scanned text fails only for what is wrong with the text; no span strays from it. -/
theorem statement_malformed {scope : ParagraphId} {body : Body} {failure : Failure}
    {after : Reduction}
    (fails : statement { ledger := Ledger.scan text, scope, body } = .error failure after) :
    ∃ error, failure = .malformed error := by
  obtain ⟨segments, depicts, tracks⟩ := scan_tracks text scope body
  have ensures := statement_ensures (text.length + 2) depicts depicts.portrays.chars
  rw [fails] at tracks
  cases result : OnSegments.statement (text.length + 2) segments
    { ledger := Ledger.scan text, scope, body } with
  | ok value other =>
      rw [result] at tracks
      exact tracks.elim
  | error other last =>
      rw [result] at tracks ensures
      obtain ⟨rfl, -⟩ := tracks
      exact ensures

/-- A text without segments is blank. -/
theorem Depicts.isBlank (depicts : Depicts text state 0 text.length []) :
    ∀ c ∈ text, isBlank c = true := by
  intro c member
  obtain ⟨position, here⟩ := List.mem_iff_getElem?.1 member
  have inside := (List.getElem?_eq_some_iff.1 here).1
  have space := depicts.shown.1.2 position (Nat.zero_le _) inside
  have blank := depicts.portrays.blank position (isSpace_iff.2 space)
  rwa [here] at blank

/-- Reducing a scanned text gives a faithful tree that covers the text; for no tree the text is
blank. -/
theorem statement_scan {scope : ParagraphId} {body : Body} {expr : Expr} {after : Reduction}
    (reduces : statement { ledger := Ledger.scan text, scope, body } = .ok expr after) :
    expr.Faithful text ∧ (expr.isPresent = false → ∀ c ∈ text, isBlank c = true) ∧
    (expr.isPresent = true → ∃ span, HasSpan expr span ∧
      span.start = (text.takeWhile isBlank).length ∧ (∀ c ∈ text.drop span.stop, isBlank c = true) ∧
      ((Quote.outside.after text).isInside = false → span.slice text = trim text)) := by
  obtain ⟨well, literal⟩ := Ledger.scan_sound text
  obtain ⟨segments, last, depicts, result, -⟩ := exists_onSegments reduces
  have ensures := statement_ensures (text.length + 2) depicts
    (show (Reduction.ledger { ledger := Ledger.scan text, scope, body }).chars =
      text from well.chars)
  rw [result] at ensures
  obtain ⟨-, faithful, ⟨absent, rfl⟩ | ⟨present, span⟩⟩ := ensures
  · exact ⟨faithful, fun _ => depicts.isBlank, fun written => absurd written (by simp [absent])⟩
  · refine ⟨faithful, fun absent => ?_, fun _ => ⟨_, span, depicts.hull_trims literal present⟩⟩
    obtain ⟨node, known, -⟩ := Option.map_eq_some_iff.1 span
    rw [Expr.isPresent_iff.2 ⟨node, known⟩] at absent
    contradiction

end

end Reduction

namespace Body

open MethodLowering.Expr

/-- An expression is read as its statement is reduced. -/
theorem exists_statement {scope : ParagraphId} {text : List Char} {before after : Body}
    {placed : Placed} (reads : readExpression scope text before = .ok placed after) :
    ∃ expr final, Reduction.statement { ledger := Ledger.scan text, scope, body := before } =
      .ok expr final ∧ placed = ⟨expr, final.body.sightFrom scope⟩ ∧ after = final.body := by
  rw [readExpression] at reads
  split at reads
  · next expr final reduces =>
      obtain ⟨rfl, rfl⟩ : _ ∧ _ := by simpa using reads
      exact ⟨expr, final, reduces, rfl, rfl⟩
  · contradiction

/-- A tree loses nothing of the text it is read from: it covers the text up to the blanks around it,
every node has the text at its span, its parts lie inside in their order, and what stands between
the parts is the tokens of the node. -/
theorem readExpression_lossless {scope : ParagraphId} {text : List Char} {body after : Body}
    {placed : Placed} (reads : readExpression scope text body = .ok placed after)
    (present : placed.expr.isPresent = true) :
    (∃ root, placed.expr.node? = some root ∧ root.span.start = (text.takeWhile isBlank).length ∧
      (∀ c ∈ text.drop root.span.stop, isBlank c = true) ∧
      ((Quote.outside.after text).isInside = false → root.span.slice text = trim text)) ∧
    (∀ inner ∈ placed.expr.preorder, ∃ node, inner.node? = some node ∧
      node.text = String.ofList (node.span.slice text) ∧ (∀ span ∈ spansOf inner.children,
        node.span.start ≤ span.start ∧ span.start < span.stop ∧ span.stop ≤ node.span.stop) ∧
      ((spansOf inner.children).Pairwise fun left right => left.stop ≤ right.start) ∧
      Laid text node.span.start node.span.stop inner.parts) ∧
    Expr.Reads placed.expr.parts (squeeze text) := by
  obtain ⟨expr, final, reduces, rfl, rfl⟩ := exists_statement reads
  obtain ⟨faithful, -, covers⟩ := Reduction.statement_scan reduces
  obtain ⟨span, has, first, last, trims⟩ := covers present
  obtain ⟨root, known, rfl⟩ := Option.map_eq_some_iff.1 has
  refine ⟨⟨root, known, first, last, trims⟩, fun inner member => ?_, ?_⟩
  · obtain ⟨node, exact_⟩ := faithful inner member
    have spans := exact_.laid.spans
    rw [writtenIn_parts] at spans
    exact ⟨node, exact_.node?, exact_.text_eq, spans.1, spans.2, exact_.laid⟩
  · have blank : text.take root.span.start = text.takeWhile isBlank := by
      rw [first]
      exact (List.prefix_iff_eq_take.1 (List.takeWhile_prefix _)).symm
    have front : ∀ c ∈ text.take root.span.start, isBlank c = true := by
      rw [blank]
      exact fun c member => List.mem_takeWhile_imp member
    obtain ⟨⟨_, exact_⟩, -⟩ := (faithful_iff present).1 faithful
    obtain rfl := Option.some.inj (known.symm.trans exact_.node?)
    rw [← between_eq_squeeze front last (Nat.le_of_lt exact_.nonempty)]
    exact faithful.reads _ root known

theorem exists_of_isPresent {result : EStateM.Result Failure Body Placed}
    (succeeds : (match result with
      | .ok placed _ => placed.expr.isPresent
      | .error .. => false) = true) :
    ∃ placed after, result = .ok placed after ∧ placed.expr.isPresent = true := by
  cases result with
  | ok placed after => exact ⟨placed, after, rfl, succeeds⟩
  | error failure after => contradiction

/-- The blank behind a literal that is never closed belongs to the literal, and so to the root. -/
theorem readExpression_lossless_unclosed : ∃ placed after node,
    readExpression root "\"a ".toList (initial {} {}) = .ok placed after ∧
      placed.expr.node? = some node ∧ node.span.slice "\"a ".toList ≠ trim "\"a ".toList := by
  have found : (match readExpression root "\"a ".toList (initial {} {}) with
      | .ok placed _ => placed.expr.node?.map (·.span)
      | .error .. => none) = some ⟨0, 3⟩ := by decide +kernel
  cases reads : readExpression root "\"a ".toList (initial {} {}) with
  | error failure after =>
      rw [reads] at found
      contradiction
  | ok placed after =>
      rw [reads] at found
      obtain ⟨node, known, span⟩ := Option.map_eq_some_iff.1 found
      refine ⟨placed, after, node, rfl, known, ?_⟩
      rw [span]
      decide

/-- A qualified construction with an initializer. -/
theorem readExpression_lossless_qualified : ∃ placed after,
    readExpression root " a . new int[2] { 1 } ".toList (initial {} {}) = .ok placed after ∧
      placed.expr.isPresent = true ∧
      Expr.Reads placed.expr.parts (squeeze " a . new int[2] { 1 } ".toList) := by
  have succeeds : ∃ placed after,
      readExpression root " a . new int[2] { 1 } ".toList (initial {} {}) = .ok placed after ∧
        placed.expr.isPresent = true := exists_of_isPresent (by decide +kernel)
  obtain ⟨placed, after, reads, present⟩ := succeeds
  exact ⟨placed, after, reads, present, (readExpression_lossless reads present).2.2⟩

end Body
end MethodLowering
