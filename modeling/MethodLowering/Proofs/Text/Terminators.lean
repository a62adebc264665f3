import Mathlib.Order.Bounds.Basic
import MethodLowering.Proofs.Brackets.Partners
import MethodLowering.Proofs.Text.Cutting
import MethodLowering.Proofs.Text.Shutting

/-!
# Terminators and class bodies

A statement ends at the first terminator that stands outside literals where the net depth is zero,
unless a closing bracket without partner comes first.  The class bodies in front of it are curly
brackets behind a round one, each up to the first closing curly bracket that takes the depth back;
where brackets are well nested these are partners.  Without the class bodies the statement still has
net depth zero.
-/

namespace MethodLowering
namespace Text

/-! ## What the search looks for -/

/-- The terminator stands where the net depth is zero. -/
def IsEnd (terminator : Char) (text : List Char) (position : Nat) : Prop :=
  UnquotedAt text position terminator ∧ depthAt text position = 0

/-- A closing bracket stands where the net depth is zero. -/
def IsStray (text : List Char) (position : Nat) : Prop :=
  ∃ c, UnquotedAt text position c ∧ isClosing c = true ∧ depthAt text position = 0

/-- The terminator stands where the net depth is zero, and no closing bracket without partner stands
in front of it. -/
def EndsAt (terminator : Char) (text : List Char) (position : Nat) : Prop :=
  IsEnd terminator text position ∧ ∀ earlier < position, ¬ IsStray text earlier

/-- The last character in front of the position, blanks outside literals aside. -/
def IsBehind (c : Char) (text : List Char) (position : Nat) : Prop :=
  ∃ earlier < position, UnquotedAt text earlier c ∧
    ∀ between, earlier < between → between < position → text[between]?.any isBlank = true

/-- A class body of a text. -/
structure IsClassBody (text : List Char) (span : Span) : Prop where
  opens : UnquotedAt text span.start '{'
  behind : IsBehind ')' text span.start
  closes : UnquotedAt text (span.stop - 1) '}'
  long : span.start + 1 < span.stop
  /-- Its brackets are as many opening as closing ones. -/
  level : netDepth (span.slice text) = 0
  /-- It ends at the first closing curly bracket that takes the depth back. -/
  first : ∀ position, span.start < position → position < span.stop - 1 →
    UnquotedAt text position '}' → depthAt text (position + 1) ≠ depthAt text span.start

section

variable {text front behind : List Char} {position stop : Nat} {c terminator : Char} {span : Span}
  {opening : Op} {pairs : List (Nat × Nat)}

/-! ## Class bodies and partners -/

theorem brackets_pairwise (text : List Char) : (brackets text).Pairwise (·.1 < ·.1) := by
  rw [brackets, List.pairwise_filterMap]
  refine List.pairwise_lt_range.imp fun low first found second found' => ?_
  obtain ⟨_, -, rfl⟩ := Option.map_eq_some_iff.1 found
  obtain ⟨_, -, rfl⟩ := Option.map_eq_some_iff.1 found'
  exact low

/-- The brackets in front of a position. -/
theorem brackets_take (text : List Char) (position : Nat) :
    brackets (text.take position) = (brackets text).filter (·.1 < position) := by
  rw [brackets, brackets, List.filter_filterMap, List.length_take]
  rcases Nat.le_total text.length position with outside | inside
  · rw [List.take_of_length_le outside, Nat.min_eq_right outside]
    refine List.filterMap_congr fun p among => ?_
    have low : p < position := Nat.lt_of_lt_of_le (List.mem_range.1 among) outside
    cases bracketAt? text p <;> simp [Option.filter, low]
  · rw [Nat.min_eq_left inside]
    obtain ⟨count, length⟩ := Nat.exists_eq_add_of_le inside
    have within (p : Nat) (low : p < position) :
        bracketAt? (text.take position) p = bracketAt? text p := by
      have whole := @bracketAt?_append_left (text.take position) (text.drop position) p
        (by rw [List.length_take_of_le inside]; exact low)
      rwa [List.take_append_drop, eq_comm] at whole
    rw [length, List.range_add, List.filterMap_append, ← List.append_nil (List.filterMap _ _)]
    congr 1
    · refine List.filterMap_congr fun p among => ?_
      have low := List.mem_range.1 among
      rw [within p low]
      cases bracketAt? text p <;> simp [Option.filter, low]
    · symm
      rw [List.filterMap_eq_nil_iff]
      intro p among
      obtain ⟨distance, -, rfl⟩ := List.mem_map.1 among
      cases bracketAt? text (position + distance) <;> simp

/-- The depth in front of a bracket is what the brackets in front of it add. -/
theorem depthAt_of_split {before after : List (Nat × Op)}
    (split : brackets text = before ++ (position, opening) :: after) :
    depthAt text position = netWeight before := by
  have sorted := brackets_pairwise text
  rw [split, List.pairwise_append] at sorted
  obtain ⟨-, sortedAfter, across⟩ := sorted
  have low : ∀ head ∈ before, decide (head.1 < position) = true := fun head member =>
    decide_eq_true (across head member _ List.mem_cons_self)
  have high : ∀ head ∈ (position, opening) :: after, ¬ decide (head.1 < position) = true := by
    intro head member
    rcases List.mem_cons.1 member with rfl | later
    · simp
    · have above := (List.pairwise_cons.1 sortedAfter).1 head later
      dsimp only at above
      simp only [decide_eq_true_eq]
      omega
  rw [depthAt, netDepth, brackets_take, split, List.filter_append, List.filter_eq_self.2 low,
    List.filter_eq_nil_iff.2 high, List.append_nil]

/-- Where the brackets of the text are well nested by kind, a class body ends at the partner of the
bracket at which it starts. -/
theorem IsClassBody.mem_pairs (body : IsClassBody text span)
    (known : bracketPairs? (brackets text) = some pairs) : (span.start, span.stop - 1) ∈ pairs := by
  have isOpening : (span.start, Op.openBrace) ∈ brackets text := mem_brackets.2 ⟨_, body.opens, rfl⟩
  obtain ⟨inner, close, closing, rest, inside, split, nested, fits, pair, -⟩ :=
    exists_partner known isOpening rfl
  obtain rfl : Op.closeBrace = closing := Option.some.inj fits
  have start : depthAt text span.start = netWeight (brackets (text.take span.start)) := rfl
  have sorted := brackets_pairwise text
  -- the partner is a closing curly bracket that takes the depth back
  have partner : UnquotedAt text close '}' ∧ depthAt text (close + 1) =
      depthAt text span.start := by
    have member : (close, Op.closeBrace) ∈ brackets text := by
      rw [split]
      simp
    obtain ⟨c, stands, bracket⟩ := mem_brackets.1 member
    obtain rfl : c = '}' := ofBracket?_inj bracket rfl
    have before :
        brackets text = (brackets (text.take span.start) ++ (span.start, Op.openBrace) :: inner) ++
        (close, Op.closeBrace) :: rest := by
      rw [split, List.append_assoc, List.cons_append]
    have depth := depthAt_of_split before
    rw [netWeight_append, netWeight_cons, nested.netWeight_eq] at depth
    refine ⟨stands, ?_⟩
    rw [stands.depthAt_succ, depth, start, Op.weight_of_isOpening rfl,
      show weight '}' = -1 from rfl]
    omega
  -- and so is the bracket at which the class body ends
  have ends : (span.stop - 1, Op.closeBrace) ∈ brackets text := mem_brackets.2 ⟨_, body.closes, rfl⟩
  have back : depthAt text (span.stop - 1 + 1) = depthAt text span.start := by
    have level := body.level
    have order := body.long
    rw [netDepth_slice body.opens.outside.1 (by omega)] at level
    rw [show span.stop - 1 + 1 = span.stop by omega]
    omega
  rw [split] at ends sorted
  rw [List.pairwise_append, List.pairwise_cons, List.pairwise_append, List.pairwise_cons] at sorted
  obtain ⟨-, ⟨fromStart, -, ⟨fromClose, -⟩, -⟩, toStart⟩ := sorted
  rcases List.mem_append.1 ends with before | others
  · have low := toStart _ before _ List.mem_cons_self
    have order := body.long
    dsimp only at low
    omega
  rcases List.mem_cons.1 others with same | others
  · cases (Prod.mk.inj same).2
  rcases List.mem_append.1 others with within | others
  · obtain ⟨first, second, rfl⟩ := List.append_of_mem within
    have before :
        brackets text = (brackets (text.take span.start) ++ (span.start, Op.openBrace) :: first) ++
        (span.stop - 1, Op.closeBrace) :: (second ++ (close, Op.closeBrace) :: rest) := by
      rw [split]
      simp only [List.append_assoc, List.cons_append]
    have depth := depthAt_of_split before
    have nested' : Nested ((first ++ [(span.stop - 1, Op.closeBrace)]) ++ second) inside := by
      rw [List.append_assoc, List.singleton_append]
      exact nested
    have low := nested'.netWeight_front
    rw [body.closes.depthAt_succ, depth] at back
    simp only [netWeight_append, netWeight_cons, netWeight_nil, Op.weight,
      Op.isOpening, Op.isClosing,
      weight, start] at back low
    simp [isClosing] at back low
    omega
  rcases List.mem_cons.1 others with same | after
  · rw [(Prod.mk.inj same).1]
    exact pair
  · have low := fromStart _ (List.mem_append_right _ List.mem_cons_self)
    have high := fromClose _ after
    exact absurd partner.2 (body.first close low high partner.1)

/-! ## The beginning of a text -/

theorem depthAt_take (low : position ≤ stop) :
    depthAt (text.take stop) position = depthAt text position := by
  rw [depthAt, List.take_take, Nat.min_eq_left low, depthAt]

theorem unquotedAt_take (low : position < stop) :
    UnquotedAt (text.take stop) position c ↔ UnquotedAt text position c := by
  rw [UnquotedAt, UnquotedAt, List.getElem?_take_of_lt low, List.take_take,
    Nat.min_eq_left (Nat.le_of_lt low)]

theorem IsClassBody.take (body : IsClassBody text span) (inside : span.stop ≤ stop) :
    IsClassBody (text.take stop) span := by
  have order := body.long
  refine ⟨(unquotedAt_take (by omega)).2 body.opens, ?_, (unquotedAt_take (by omega)).2
    body.closes, order, ?_,
    fun position low high stands => ?_⟩
  · obtain ⟨earlier, low, stands, blank⟩ := body.behind
    refine ⟨earlier, low, (unquotedAt_take (by omega)).2 stands, fun between above below => ?_⟩
    rw [List.getElem?_take_of_lt (by omega)]
    exact blank between above below
  · rw [slice_take inside]
    exact body.level
  · rw [depthAt_take (by omega), depthAt_take (by omega)]
    exact body.first position low high ((unquotedAt_take (by omega)).1 stands)

/-- Class bodies that are taken out do not change the net depth. -/
theorem netDepth_removeFrom? {low high : Nat} {spans : List Span} {left : List Char}
    (bodies : ∀ span ∈ spans, IsClassBody text span) (ordered : Ordered low high spans)
    (outside : Quote.outside.after (text.take low) = .outside)
    (removed : removeFrom? text low spans = some left) :
    netDepth left = netDepth text - depthAt text low := by
  induction spans generalizing low left with
  | nil =>
      rw [removeFrom?] at removed
      split at removed
      · obtain rfl := Option.some.inj removed
        have whole := netDepth_append outside (text.drop low)
        rw [List.take_append_drop] at whole
        rw [whole, depthAt]
        omega
      · contradiction
  | cons span rest induction =>
      rw [removeFrom?] at removed
      split at removed
      · obtain ⟨tail, others, rfl⟩ := Option.map_eq_some_iff.1 removed
        have body := bodies span List.mem_cons_self
        have order := body.long
        have closed : Quote.outside.after (text.take span.stop) = .outside := by
          rw [show span.stop = span.stop - 1 + 1 by omega]
          exact body.closes.outside.2
        have piece : Quote.outside.after (Span.slice ⟨low, span.start⟩ text) = .outside := by
          have whole : text.take span.start =
              text.take low ++ Span.slice ⟨low, span.start⟩ text := by
            rw [Span.slice, Span.length, ← List.take_add, Nat.add_sub_cancel' ordered.1]
          have before := body.opens.outside.1
          rwa [whole, Quote.after_append, outside] at before
        have level := body.level
        rw [netDepth_slice body.opens.outside.1 (by omega)] at level
        rw [netDepth_append piece, netDepth_slice outside ordered.1,
          induction (fun other member => bodies other (List.mem_cons_of_mem _ member))
          ordered.2.2 closed
            others]
        omega
      · contradiction

end

/-! ## Steps of the search -/

/-- The search knows where it stands: the literal and the net depth there, whether a closing round
bracket was read last, the class body that it reads, and those that it has read. -/
structure CutState.Knows (text : List Char) (state : CutState) (position : Nat) : Prop where
  quote : state.quote = Quote.outside.after (text.take position)
  depth : (state.depth : Int) = depthAt text position
  last : state.quote = .outside → state.last = some ')' → IsBehind ')' text position
  body : ∀ start depth, state.body = some (start, depth) →
    start < position ∧ UnquotedAt text start '{' ∧ IsBehind ')' text start ∧
      depthAt text start = depth ∧ ∀ earlier, start < earlier → earlier < position →
        UnquotedAt text earlier '}' → depthAt text (earlier + 1) ≠ depthAt text start
  bodies : ∀ span ∈ state.bodies, IsClassBody text span

/-- What a search that starts at a position has found: the first terminator or closing bracket where
the net depth is zero. -/
def CutSearch.IsFirst (terminator : Char) (text : List Char) (position : Nat) : CutSearch → Prop
  | .found cut => IsEnd terminator text cut.stop ∧
      (∀ earlier, position ≤ earlier → earlier < cut.stop →
        ¬ IsEnd terminator text earlier ∧ ¬ IsStray text earlier) ∧
      ∀ span ∈ cut.classBodies, IsClassBody text span
  | .strayClose close => IsStray text close ∧
      ∀ earlier, position ≤ earlier → earlier < close → ¬ IsEnd terminator text earlier
  | .incomplete => ∀ earlier, position ≤ earlier → ¬ IsEnd terminator text earlier

section

variable {text rest : List Char} {state other : CutState} {position : Nat} {c terminator : Char}
  {search : CutSearch}

theorem CutSearch.IsFirst.pass (isFirst : search.IsFirst terminator text (position + 1))
    (noEnd : ¬ IsEnd terminator text position) (noStray : ¬ IsStray text position) :
    search.IsFirst terminator text position := by
  have here {earlier : Nat} (low : position ≤ earlier) :
      earlier = position ∨ position + 1 ≤ earlier := by
    omega
  cases search with
  | found cut =>
      obtain ⟨ends, before, bodies⟩ := isFirst
      refine ⟨ends, fun earlier low high => ?_, bodies⟩
      rcases here low with rfl | later
      · exact ⟨noEnd, noStray⟩
      · exact before earlier later high
  | incomplete =>
      intro earlier low
      rcases here low with rfl | later
      · exact noEnd
      · exact isFirst earlier later
  | strayClose close =>
      refine ⟨isFirst.1, fun earlier low high => ?_⟩
      rcases here low with rfl | later
      · exact noEnd
      · exact isFirst.2 earlier later high

/-- A literal ends with a quotation mark. -/
theorem isQuoteMark_of_next {quote : Quote} (marked : quote.IsMarked)
    (covers : quote.covers c = true) (ends : quote.next c = .outside) : isQuoteMark c = true := by
  cases quote with
  | outside => exact covers
  | inside delimiter escaped =>
      cases escaped with
      | true => contradiction
      | false =>
          rw [Quote.next] at ends
          split at ends
          · contradiction
          · split at ends
            · rename_i same
              obtain rfl := eq_of_beq same
              exact marked
            · contradiction

theorem isBehind_succ (stands : UnquotedAt text position c) : IsBehind c text (position + 1) :=
  ⟨position, Nat.lt_succ_self _, stands, fun between above below => by omega⟩

/-- A blank does not matter to what stands behind it. -/
theorem IsBehind.blank (isBehind : IsBehind c text position)
    (blank : text[position]?.any isBlank = true) : IsBehind c text (position + 1) := by
  obtain ⟨earlier, low, stands, others⟩ := isBehind
  refine ⟨earlier, Nat.lt_succ_of_lt low, stands, fun between above below => ?_⟩
  rcases Nat.lt_or_eq_of_le (Nat.le_of_lt_succ below) with before | rfl
  · exact others between above before
  · exact blank

namespace CutState

/-- Reading a character that neither begins nor ends a class body. -/
theorem Knows.next (knows : state.Knows text position) (here : text[position]? = some c)
    (quote : other.quote = state.quote.next c)
    (depth : (other.depth : Int) = depthAt text (position + 1))
    (last : other.quote = .outside → other.last = some ')' → IsBehind ')' text (position + 1))
    (body : other.body = state.body) (bodies : other.bodies = state.bodies)
    (goesOn : ∀ start depth, state.body = some (start, depth) → UnquotedAt text position '}' →
      depthAt text (position + 1) ≠ depthAt text start) :
    other.Knows text (position + 1) := by
  refine ⟨?_, depth, last, fun start base reading => ?_, fun span member => knows.bodies span ?_⟩
  · rw [quote, knows.quote, after_take_succ here]
  · rw [body] at reading
    obtain ⟨low, stands, isBehind, level, first⟩ := knows.body start base reading
    refine ⟨Nat.lt_succ_of_lt low, stands, isBehind, level, fun earlier above below closes => ?_⟩
    rcases Nat.lt_or_eq_of_le (Nat.le_of_lt_succ below) with before | rfl
    · exact first earlier above before closes
    · exact goesOn start base reading closes
  · rwa [bodies] at member

theorem Knows.covered (knows : state.Knows text position) (here : text[position]? = some c)
    (covers : state.quote.covers c = true) :
    ({ state with quote := state.quote.next c, last := some c } : CutState).Knows text
      (position + 1) := by
  have inLiteral := covers
  rw [knows.quote] at inLiteral
  have marked : state.quote.IsMarked := by
    rw [knows.quote]
    exact Quote.IsMarked.after (show Quote.outside.IsMarked from trivial) _
  refine knows.next here rfl ?_ (fun outside closed => ?_) rfl rfl fun start depth _ stands => ?_
  · rw [depthAt_succ_of_covers here inLiteral]
    exact knows.depth
  · have mark := isQuoteMark_of_next marked covers outside
    rw [Option.some.inj closed] at mark
    contradiction
  · obtain rfl := Option.some.inj (here.symm.trans stands.1)
    have plain := stands.2
    rw [inLiteral] at plain
    contradiction

variable (knows : state.Knows text position) (stands : UnquotedAt text position c)
include knows stands

theorem Knows.outside : state.quote = .outside ∧ state.quote.next c = state.quote := by
  have plain := stands.2
  rw [← knows.quote] at plain
  obtain ⟨outside, stays⟩ := Quote.next_of_not_covers plain
  exact ⟨outside, stays.trans outside.symm⟩

theorem Knows.blank (blank : isBlank c = true) : state.Knows text (position + 1) := by
  have weightless : weight c = 0 := by
    obtain ⟨-, noOpening, noClosing⟩ := isPlain_eq (isPlain_of_isBlank blank)
    rw [weight, noOpening, noClosing]
    rfl
  refine knows.next stands.1 (knows.outside stands).2.symm ?_ (fun outside closed => ?_) rfl rfl
    fun start depth _ closes => ?_
  · rw [stands.depthAt_succ, weightless, Int.add_zero]
    exact knows.depth
  · refine (knows.last outside closed).blank ?_
    rw [stands.1]
    exact blank
  · rw [stands.eq closes] at blank
    exact absurd blank (by decide)

/-- Reading a solid character of a given weight, where no class body ends. -/
theorem Knows.solid {depth : Nat} (net : (depth : Int) = state.depth + weight c)
    (goesOn : ∀ start depth, state.body = some (start, depth) → c = '}' →
      depthAt text (position + 1) ≠ depthAt text start) :
    ({ state with depth, last := some c } : CutState).Knows text (position + 1) := by
  refine knows.next stands.1 (knows.outside stands).2.symm ?_ (fun _ closed => ?_) rfl rfl
    fun start depth reading closes => goesOn start depth reading (stands.eq closes)
  · rw [stands.depthAt_succ, ← knows.depth]
    exact net
  · obtain rfl := Option.some.inj closed
    exact isBehind_succ stands

omit stands in
theorem Knows.openBrace (stands : UnquotedAt text position '{') :
    (state.openBrace position).Knows text (position + 1) := by
  have read : ({ state with depth := state.depth + 1, last := some '{' } : CutState).Knows text
      (position + 1) :=
    knows.solid stands (by simp [weight, isOpening]) fun _ _ _ other => absurd other (by decide)
  by_cases starts : (state.body.isNone && state.last == some ')') = true
  · obtain ⟨outside, closed⟩ := Bool.and_eq_true_iff.1 starts
    refine ⟨read.quote, read.depth, read.last, fun start depth reading => ?_, read.bodies⟩
    rw [CutState.openBrace, if_pos starts] at reading
    obtain ⟨rfl, rfl⟩ := Prod.mk.inj (Option.some.inj reading)
    refine ⟨Nat.lt_succ_self _, stands, knows.last (knows.outside stands).1 (eq_of_beq closed),
      knows.depth.symm, fun earlier above below => ?_⟩
    omega
  · rw [CutState.openBrace, if_neg starts]
    exact read

theorem Knows.close (closes : isClosing c = true) (deep : state.depth ≠ 0) :
    (state.close c position).Knows text (position + 1) := by
  have weighs : weight c = -1 := by
    rw [weight, if_neg, if_pos closes]
    intro opens
    simp only [isOpening, isClosing, Bool.or_eq_true, beq_iff_eq] at opens closes
    rcases opens with (rfl | rfl) | rfl <;> simp at closes
  have net : ((state.depth - 1 : Nat) : Int) = state.depth + weight c := by
    rw [weighs]
    omega
  have after : depthAt text (position + 1) = ((state.depth - 1 : Nat) : Int) := by
    rw [stands.depthAt_succ, ← knows.depth, net]
  have read := knows.solid stands net
  rw [CutState.close]
  cases reading : state.body with
  | none =>
      rw [reading] at read
      refine read fun start depth found => ?_
      contradiction
  | some entry =>
      obtain ⟨start, depth⟩ := entry
      obtain ⟨low, opens, isBehind, level, first⟩ := knows.body start depth reading
      dsimp only
      split
      · rename_i ends
        obtain ⟨isBrace, back⟩ := Bool.and_eq_true_iff.1 ends
        obtain rfl := eq_of_beq isBrace
        obtain rfl := eq_of_beq back
        have body : IsClassBody text ⟨start, position + 1⟩ := by
          refine ⟨opens, isBehind, stands, Nat.succ_lt_succ low, ?_, first⟩
          rw [netDepth_slice opens.outside.1 (Nat.le_succ_of_le (Nat.le_of_lt low)), after, level]
          omega
        refine ⟨?_, after.symm, fun _ closed => absurd closed (by simp),
          fun start depth found => ?_, ?_⟩
        · rw [after_take_succ stands.1, ← knows.quote, (knows.outside stands).2]
        · contradiction
        · exact List.forall_mem_append.2 ⟨knows.bodies, List.forall_mem_singleton.2 body⟩
      · rename_i goesOn
        rw [reading] at read
        refine read fun start' depth' known isBrace same => goesOn ?_
        obtain ⟨rfl, rfl⟩ := Prod.mk.inj (Option.some.inj known)
        rw [after, level] at same
        simp only [isBrace, beq_self_eq_true, Bool.true_and, beq_iff_eq]
        omega

end CutState

/-! ## The whole search -/

/-- The search finds the first terminator or closing bracket where the net depth is zero. -/
theorem cutFrom_isFirst (symbol : isPlain terminator = true) (solid : isBlank terminator = false)
    (knows : state.Knows text position) (behind : text.drop position = rest) :
    (cutFrom terminator state position rest).IsFirst terminator text position := by
  induction rest generalizing state position with
  | nil =>
      rw [cutFrom]
      intro earlier low isEnd
      have outside : text.length ≤ position := List.drop_eq_nil_iff.1 behind
      have inside := (List.getElem?_eq_some_iff.1 isEnd.1.1).1
      omega
  | cons c rest induction =>
      have here := getElem?_of_drop behind
      have later := drop_succ_of_drop behind
      obtain ⟨-, noOpening, noClosing⟩ := isPlain_eq symbol
      unfold cutFrom
      by_cases covers : state.quote.covers c = true
      · have hidden {d : Char} : ¬ UnquotedAt text position d := by
          rintro ⟨same, plain⟩
          obtain rfl := Option.some.inj (here.symm.trans same)
          rw [← knows.quote, covers] at plain
          contradiction
        rw [if_pos covers]
        refine (induction (knows.covered here covers) later).pass (fun isEnd => hidden isEnd.1) ?_
        rintro ⟨_, stands, -⟩
        exact hidden stands
      have stands : UnquotedAt text position c := by
        refine ⟨here, ?_⟩
        rw [← knows.quote]
        exact Bool.eq_false_iff.2 covers
      have noStray (opens : isClosing c = false) : ¬ IsStray text position := by
        rintro ⟨other, stands', closes, -⟩
        rw [← stands.eq stands', opens] at closes
        contradiction
      have noEnd (other : c ≠ terminator) : ¬ IsEnd terminator text position :=
        fun isEnd => other (stands.eq isEnd.1)
      rw [if_neg covers]
      split_ifs with blank ends isBrace opens closes stray
      · refine (induction (knows.blank stands blank) later).pass (noEnd ?_) (noStray ?_)
        · rintro rfl
          rw [solid] at blank
          contradiction
        · rw [Bool.eq_false_iff]
          intro closes
          simp only [isClosing, Bool.or_eq_true, beq_iff_eq] at closes
          rcases closes with (rfl | rfl) | rfl <;> exact absurd blank (by decide)
      · obtain ⟨same, top⟩ := Bool.and_eq_true_iff.1 ends
        obtain rfl := eq_of_beq same
        refine ⟨⟨stands, ?_⟩, fun earlier low high =>
          absurd high (Nat.not_lt_of_le low), knows.bodies⟩
        rw [← knows.depth, eq_of_beq top]
        rfl
      · obtain rfl := eq_of_beq isBrace
        refine (induction (knows.openBrace stands) later).pass (noEnd ?_) (noStray rfl)
        rintro rfl
        contradiction
      · refine (induction (knows.solid stands ?_ ?_) later).pass (noEnd ?_) (noStray ?_)
        · simp [weight, opens]
        · rintro start depth - rfl
          contradiction
        · rintro rfl
          rw [noOpening] at opens
          contradiction
        · simp only [isOpening, Bool.or_eq_true, beq_iff_eq] at opens
          rcases opens with (rfl | rfl) | rfl <;> rfl
      · refine ⟨⟨c, stands, closes, ?_⟩, fun earlier low high => absurd high (Nat.not_lt_of_le low)⟩
        rw [← knows.depth, eq_of_beq stray]
        rfl
      · refine (induction (knows.close stands closes (by simpa using stray)) later).pass
          (noEnd ?_) ?_
        · rintro rfl
          rw [noClosing] at closes
          contradiction
        · rintro ⟨-, -, -, level⟩
          rw [← knows.depth] at level
          exact stray (by simpa using level)
      · have weightless : weight c = 0 := by rw [weight, if_neg opens, if_neg closes]
        refine (induction (knows.solid stands (by rw [weightless, Int.add_zero]) ?_) later).pass ?_
          (noStray (Bool.eq_false_iff.2 closes))
        · rintro start depth - rfl
          exact absurd rfl closes
        · rintro ⟨stands', level⟩
          rw [← knows.depth] at level
          refine ends ?_
          simp only [stands.eq stands', beq_self_eq_true, Bool.true_and, beq_iff_eq]
          omega

theorem findCut_isFirst (symbol : isPlain terminator = true) (solid : isBlank terminator = false)
    (text : List Char) : (findCut terminator text).IsFirst terminator text 0 := by
  have knows : ({} : CutState).Knows text 0 := ⟨rfl, rfl, nofun, nofun, List.forall_mem_nil _⟩
  exact cutFrom_isFirst symbol solid knows rfl

/-- A terminator that is found is the first one. -/
theorem CutSearch.IsFirst.isLeast {cut : Cut}
    (isFirst : (CutSearch.found cut).IsFirst terminator text 0) :
    IsLeast {position | EndsAt terminator text position} cut.stop := by
  obtain ⟨isEnd, before, -⟩ := isFirst
  refine ⟨⟨isEnd, fun earlier low => (before earlier (Nat.zero_le _) low).2⟩,
    fun position ends => ?_⟩
  by_contra low
  exact (before position (Nat.zero_le _) (Nat.lt_of_not_le low)).1 ends.1

/-- Where a statement ends, the search finds an end. -/
theorem CutSearch.IsFirst.exists_found (isFirst : search.IsFirst terminator text 0)
    (symbol : isPlain terminator = true) (ends : EndsAt terminator text position) :
    ∃ cut, search = .found cut := by
  cases search with
  | found cut => exact ⟨cut, rfl⟩
  | incomplete => exact absurd ends.1 (isFirst position (Nat.zero_le _))
  | strayClose close =>
      obtain ⟨stray, before⟩ := isFirst
      rcases Nat.lt_trichotomy close position with low | rfl | high
      · exact absurd stray (ends.2 close low)
      · obtain ⟨c, stands, closes, -⟩ := stray
        rw [stands.eq ends.1.1, (isPlain_eq symbol).2.2] at closes
        contradiction
      · exact absurd ends.1 (before position (Nat.zero_le _) high)

end

/-- What is true of the class bodies of a statement that ends at a position. -/
structure Cut.IsExact (text : List Char) (cut : Cut) : Prop where
  /-- They stand one behind the other in front of the end. -/
  ordered : Ordered 0 cut.stop cut.classBodies
  bodies : ∀ span ∈ cut.classBodies, IsClassBody text span
  /-- Where the brackets of the statement are well nested by kind, they end at partners. -/
  partners : ∀ pairs, bracketPairs? (brackets (text.take cut.stop)) = some pairs →
    ∀ span ∈ cut.classBodies, (span.start, span.stop - 1) ∈ pairs
  /-- They can be taken out, and what is left has net depth zero. -/
  removable : ∃ left, removeSpans? (text.take cut.stop) cut.classBodies = some left ∧
    netDepth left = 0

/-- **Cutting statements.**  A statement is found just where one ends, and is the first one; its
class bodies are exact; and a search that does not wait for more text has the same answer when more
text follows. -/
theorem findCut_exact (terminator : Char) (symbol : isPlain terminator = true)
    (solid : isBlank terminator = false) (text : List Char) :
    ((∃ cut, findCut terminator text = .found cut) ↔ ∃ position, EndsAt terminator text position) ∧
      (∀ cut, findCut terminator text = .found cut →
        IsLeast {position | EndsAt terminator text position} cut.stop ∧ cut.IsExact text) ∧
      (findCut terminator text ≠ .incomplete →
        ∀ more, findCut terminator (text ++ more) = findCut terminator text) := by
  have isFirst := findCut_isFirst symbol solid text
  refine ⟨⟨fun ⟨cut, found⟩ => ?_, fun ⟨position, ends⟩ => isFirst.exists_found symbol ends⟩,
    fun cut found => ?_, fun decided more => cutFrom_append terminator {} 0 text more decided⟩
  · rw [found] at isFirst
    exact ⟨cut.stop, isFirst.isLeast.1⟩
  · rw [found] at isFirst
    obtain ⟨ordered, -⟩ := findCut_bodies found
    have bodies := isFirst.2.2
    have within : ∀ span ∈ cut.classBodies, IsClassBody (text.take cut.stop) span := by
      intro span member
      obtain ⟨front, back, split⟩ := List.append_of_mem member
      rw [split] at ordered
      exact (bodies span member).take ordered.split.2.2.le
    obtain ⟨left, removed⟩ := Option.isSome_iff_exists.1 (removeSpans?_isSome found)
    refine ⟨isFirst.isLeast, ordered, bodies, fun pairs known span member =>
      (within span member).mem_pairs known, left, removed, ?_⟩
    rw [netDepth_removeFrom? within ordered rfl removed, depthAt_zero, Int.sub_zero]
    exact isFirst.1.2

/-- Two class bodies, one of them among the arguments of a call. -/
theorem findCut_exact_nested :
    isPlain ';' = true ∧ isBlank ';' = false ∧
      ∃ cut, findCut ';' "f(new A() \x7b b(); \x7d, ';') + new C()\x7b\x7d;".toList = .found cut ∧
        IsLeast {position |
          EndsAt ';' "f(new A() \x7b b(); \x7d, ';') + new C()\x7b\x7d;".toList position} cut.stop ∧
        cut.IsExact "f(new A() \x7b b(); \x7d, ';') + new C()\x7b\x7d;".toList ∧
        cut.classBodies ≠ [] := by
  have exact_ := findCut_exact ';' (by decide) (by decide)
    "f(new A() \x7b b(); \x7d, ';') + new C()\x7b\x7d;".toList
  have found : findCut ';' "f(new A() \x7b b(); \x7d, ';') + new C()\x7b\x7d;".toList =
      .found ⟨36, [⟨10, 18⟩, ⟨34, 36⟩]⟩ := by
    decide
  obtain ⟨least, isExact⟩ := exact_.2.1 _ found
  exact ⟨by decide, by decide, _, found, least, isExact, by decide⟩

end Text
end MethodLowering
