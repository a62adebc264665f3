import MethodLowering.Proofs.Roundtrip.Casting
import MethodLowering.Proofs.Roundtrip.Framing
import MethodLowering.Proofs.Roundtrip.Operand

/-!
# Casts in a text

A primitive type in round brackets, with an operand behind it, is scanned as the brackets, the type
and a copy of what is scanned in the operand by itself.  So the operand is reduced as it is alone,
and the cast covers it.
-/

namespace MethodLowering

open Text

namespace Reduction

/-- A segment further on. -/
def Segment.shift (count : Nat) (segment : Segment) : Segment :=
  ⟨segment.span.shift count, segment.piece⟩

section

variable {state other : Reduction} {shift start stop limit : Nat} {segment : Segment}
  {segments : List Segment}

section

variable (unfinished : state.pending = #[])
  (same : ∀ p < limit, other.ledger.tag? (p + shift) = state.ledger.tag? p)
include unfinished same

theorem Segment.StandsIn.copied (stands : segment.StandsIn state)
    (within : segment.span.stop ≤ limit) :
    (segment.shift shift).StandsIn other ∧ segment.Copies shift limit (segment.shift shift) := by
  obtain ⟨⟨start, stop⟩, piece⟩ := segment
  obtain ⟨nonempty, tagged, placed⟩ := stands
  dsimp only at nonempty within
  have behind {property : Nat → Prop} (holds : ∀ p, start ≤ p → p < stop →
      property (p + shift)) (p : Nat)
      (low : start + shift ≤ p) (high : p < stop + shift) : property p := by
    obtain ⟨q, rfl⟩ := Nat.exists_eq_add_of_le' (Nat.le_trans (Nat.le_add_left shift start) low)
    exact holds q (by omega) (by omega)
  cases piece with
  | op op =>
      obtain ⟨width, head, tails⟩ := tagged
      dsimp only at width head tails
      refine ⟨⟨Nat.add_lt_add_right nonempty shift, ⟨?_, ?_, fun p low high => ?_⟩, nofun⟩, rfl,
        within, .op width⟩
      · change stop + shift = start + shift + op.width
        omega
      · exact (same start (by omega)).trans head
      · refine @behind (fun p => start + shift < p →
          other.ledger.tag? p = some (.operatorTail op))
            (fun q _ inside after => ?_) p (Nat.le_of_lt low) high low
        rw [same q (by omega), tails q (by omega) inside]
  | word =>
      refine ⟨⟨Nat.add_lt_add_right nonempty shift, behind fun q low high => ?_, nofun⟩, rfl,
        within, .word⟩
      rw [same q (by omega)]
      exact tagged q low high
  | tree expr =>
      obtain ⟨id, known, -⟩ := tagged
      rw [unfinished] at known
      contradiction

theorem Shows.copied (shown : Shows state start stop segments) (within : stop ≤ limit)
    (room : limit + shift ≤ other.ledger.size) :
    Shows other (start + shift) (stop + shift) (segments.map (·.shift shift)) ∧
      AllCopy shift limit segments (segments.map (·.shift shift)) := by
  have gap {low high : Nat} (gap : IsGap state low high) (inside : high ≤ limit) :
      IsGap other (low + shift) (high + shift) := by
    refine ⟨Nat.add_le_add_right gap.1 shift, fun p first last => ?_⟩
    obtain ⟨q, rfl⟩ := Nat.exists_eq_add_of_le' (Nat.le_trans (Nat.le_add_left shift low) first)
    rw [same q (by omega), gap.2 q (by omega) (by omega)]
  induction segments generalizing start with
  | nil => exact ⟨⟨gap shown.1 within, by omega⟩, .nil⟩
  | cons segment rest induction =>
      obtain ⟨before, stands, later⟩ := shown
      have nonempty := stands.nonempty
      have inside := later.le
      obtain ⟨stands', copied⟩ := stands.copied unfinished same (by omega)
      obtain ⟨shown, all⟩ := induction later
      exact ⟨⟨gap before (by omega), stands', shown⟩, .cons copied all⟩

end

/-- The state in which a statement is reduced. -/
def begun (state : Reduction) : Reduction :=
  { state with
    body := { state.body with effort := { state.body.effort
      with statements := state.body.effort.statements + 1 } } }

end

namespace OnSegments

variable {nesting depth : Nat} {segments : List Segment} {left final : Reduction}
  {result : Option Expr}

/-- Operands that are there are reduced to an expression. -/
theorem exists_of_reduce (filled : segments ≠ [])
    (reads : reduce (nesting + 1) depth segments left = .ok result final) :
    ∃ expr, result = some expr := by
  rw [reduce_eq_map filled, map_eq_ok] at reads
  obtain ⟨expr, -, same⟩ := reads
  exact ⟨expr, same.symm⟩

end OnSegments

end Reduction

namespace Body

open Reduction

/-- An expression is read as what its segments are reduced to. -/
theorem readExpression_eq_ok {text : List Char} {segments : List Segment}
    {scope : ParagraphId} {body : Body} {expr : Expr}
    (shown : Shows { ledger := Ledger.scan text, scope, body } 0 (Ledger.scan text).size segments)
    (filled : segments ≠ []) :
    (∃ placed after, readExpression scope text body = .ok placed after ∧ placed.expr = expr) ↔
      ∃ after, OnSegments.reduce ((Ledger.scan text).size + 2) 1 segments
        (begun { ledger := Ledger.scan text, scope, body }) = .ok (some expr) after := by
  have reads : (∃ placed after, readExpression scope text body = .ok placed after ∧
      placed.expr = expr) ↔ ∃ after, OnSegments.statement ((Ledger.scan text).size + 2) segments
        (body.startOf scope text) = .ok expr after := by
    cases result : OnSegments.statement ((Ledger.scan text).size + 2) segments
      (body.startOf scope text) with
    | ok found after =>
        rw [readExpression_of_statement shown result]
        simp
    | error failure after =>
        obtain ⟨after', failed⟩ := readExpression_of_statement shown result
        rw [failed]
        simp
  rw [reads]
  unfold OnSegments.statement
  constructor
  · rintro ⟨after, reduces⟩
    obtain ⟨_, _, counted, later⟩ := bind_eq_ok.1 reduces
    obtain rfl := (EStateM.Result.ok.inj counted).2
    obtain ⟨result, between, reduced, rest⟩ := bind_eq_ok.1 later
    obtain ⟨found, rfl⟩ := OnSegments.exists_of_reduce filled reduced
    obtain ⟨rfl, -⟩ := EStateM.Result.ok.inj rest
    exact ⟨between, reduced⟩
  · rintro ⟨between, reduced⟩
    exact ⟨_, bind_eq_ok.2 ⟨(), begun (body.startOf scope text), rfl,
      bind_eq_ok.2 ⟨some expr, between, reduced, rfl⟩⟩⟩

/-- A reduction that strays would make that of the statement stray. -/
theorem not_strays_reduce {text : List Char} {segments : List Segment} {scope : ParagraphId}
    {body : Body}
    (shown : Shows { ledger := Ledger.scan text, scope, body } 0 (Ledger.scan text).size
      segments) :
    ¬ Tree.Strays (OnSegments.reduce ((Ledger.scan text).size + 2) 1 segments
      (begun { ledger := Ledger.scan text, scope, body })) :=
  fun ⟨after, strays⟩ => not_strays shown
    ⟨after, bind_eq_error.2 (.inr ⟨(), _, rfl, bind_eq_error.2 (.inl strays)⟩)⟩

end Body

/-! ## The text of a cast -/

namespace Token

open Scanner Reduction

/-- What stands in front of the operand of a cast. -/
def castLead (type : String) : List Token :=
  [.op .openParen, .word type.toList, .op .closeParen, .blank]

/-- A further factor behind a cast. -/
def castFactor (name : List Char) : List Token := [.blank, .op .times, .blank, .word name]

/-- A type in round brackets in front of an operand, with tokens behind it. -/
def castText (type : String) (operand : List Char) (back : List Token) : List Char :=
  text (castLead type) ++ operand ++ text back

section

variable {type : String} {name rest : List Char}

theorem isWordChar_of_primitive : ∀ type ∈ TypeName.primitives,
    (∀ c ∈ type.toList, isWordChar c = true) ∧ type.toList ≠ [] ∧
    type.toList ≠ Op.instanceOf.spelling := by
  decide

theorem reads_castLead (primitive : type ∈ TypeName.primitives) : Reads (castLead type) rest := by
  obtain ⟨letters, -, other⟩ := isWordChar_of_primitive type primitive
  have alone {op : Op} (bracket : op = .openParen ∨ op = .closeParen) (behind : List Char) :
      behind.head?.any op.absorbs = false := by
    have never := @Op.not_absorbs op (by rcases bracket with rfl | rfl <;> decide)
    cases behind.head? with
    | none => rfl
    | some c => exact never c
  have opens (behind : List Char) : Reads [.op .openParen] behind :=
    reads_symbol (by decide) (alone (.inl rfl) behind) nofun
  have closes (behind : List Char) : Reads [.op .closeParen] behind :=
    reads_symbol (by decide) (alone (.inr rfl) behind) nofun
  have ends : (text [.op .closeParen, .blank] ++ rest).head?.any isWordChar = false := by
    change isWordChar ')' = false
    decide
  have named : Reads [.word type.toList] (text [.op .closeParen, .blank] ++ rest) :=
    reads_word letters fun _ starts => not_isBlank_behind letters other ends starts
  exact (opens _).cons (named.cons ((closes _).cons (reads_blank rest)))

theorem reads_castFactor (isName : isVariableName name = true)
    (other : name ≠ Op.instanceOf.spelling) :
    Reads (castFactor name) [] := by
  have letters := isWordChar_of_isVariableName isName
  have alone : (text [.blank, .word name] ++ []).head?.any Op.times.absorbs = false := by
    have blank : (text [.blank, .word name] ++ []).head? = some ' ' := rfl
    rw [blank, Option.any_some, Op.not_absorbs_blank]
  have product : Reads [.op .times] (text [.blank, .word name] ++ []) :=
    reads_symbol (by decide) alone nofun
  have named : Reads [.word name] [] :=
    reads_word letters fun _ starts => not_isBlank_behind letters other rfl starts
  exact (reads_blank _).cons (product.cons ((reads_blank _).cons named))

/-- Tokens that may stand behind the operand of a cast. -/
structure Trails (back : List Token) : Prop where
  reads : Reads back []
  filled : ∀ chars, .word chars ∈ back → chars ≠ []
  blank : (text back).head?.all isBlank = true
  follows : ∀ c ∈ ((text back).dropWhile isBlank).head?, c ≠ ']' ∧ c ≠ '{'

theorem trails_nil : Trails [] := ⟨reads_nil [], nofun, rfl, nofun⟩

theorem text_castLead : text (castLead type) = '(' :: type.toList ++ [')', ' '] := by
  simp [castLead, Token.chars, Op.spelling, Op.text, Op.row]

theorem text_castFactor : text (castFactor name) = [' ', '*', ' '] ++ name := by
  simp [castFactor, Token.chars, Op.spelling, Op.text, Op.row]

theorem trails_castFactor (isName : isVariableName name = true)
    (other : name ≠ Op.instanceOf.spelling) :
    Trails (castFactor name) := by
  refine ⟨reads_castFactor isName other, fun chars among => ?_, ?_, ?_⟩
  · obtain rfl : chars = name := by simpa [castFactor] using among
    obtain ⟨first, rest, rfl, -⟩ := exists_of_isVariableName isName
    exact List.cons_ne_nil _ _
  · rw [text_castFactor]
    rfl
  · rw [text_castFactor]
    rintro c ⟨⟩
    decide

theorem segments_castLead : segments 0 (castLead type) =
      OnSegments.typeSegments type.toList.length := by
  have last : 1 + type.toList.length + 1 = 2 + type.toList.length := by omega
  simp [castLead, segments, OnSegments.typeSegments, show Op.openParen.width = 1 from rfl,
    show Op.closeParen.width = 1 from rfl, last]

theorem segments_castFactor (position : Nat) :
    segments position (castFactor name) = OnSegments.factorSegments (position + 1) name.length := by
  simp [castFactor, segments, OnSegments.factorSegments, show Op.times.width = 1 from rfl]

@[simp]
theorem length_castLead : (text (castLead type)).length = type.toList.length + 3 := by
  simp [text_castLead]

theorem length_castText {operand : List Char} {back : List Token} :
    (castText type operand back).length =
      type.toList.length + 3 + operand.length + (text back).length := by
  rw [castText, List.length_append, List.length_append, length_castLead]

theorem slice_castText {operand : List Char} {back : List Token} :
    Span.slice ⟨1, 1 + type.toList.length⟩ (castText type operand back) = type.toList := by
  rw [castText, text_castLead]
  simp [Span.slice, Span.length]

theorem slice_castFactor {operand : List Char} {position : Nat}
    (behind : position = operand.length + (type.toList.length + 3) + 3) :
    Span.slice ⟨position, position + name.length⟩ (castText type operand (castFactor name)) =
      name := by
  have split : castText type operand (castFactor name) =
      text (castLead type) ++ operand ++ [' ', '*', ' '] ++ name ++ [] := by
    rw [castText, text_castFactor, List.append_nil, ← List.append_assoc]
  have front : (text (castLead type) ++ operand ++ [' ', '*', ' ']).length = position := by
    rw [List.length_append, List.length_append, length_castLead, behind,
      Nat.add_comm operand.length]
    rfl
  rw [split, ← front]
  exact slice_word _ name []

theorem shows_castLead {state : Reduction} (primitive : type ∈ TypeName.primitives)
    (tagged : ∀ p < type.toList.length + 3, state.ledger.tag? p =
      ((castLead type).flatMap tags)[p]?) (inside : type.toList.length + 3 ≤ state.ledger.size) :
    Shows state 0 (type.toList.length + 3) (OnSegments.typeSegments type.toList.length) := by
  have filled (chars : List Char) (among : .word chars ∈ castLead type) : chars ≠ [] := by
    obtain rfl : chars = type.toList := by simpa [castLead] using among
    exact (isWordChar_of_primitive type primitive).2.1
  have shown := @shows_of_tags (castLead type) state 0
  rw [Nat.zero_add, length_castLead, segments_castLead] at shown
  exact shown (fun p low => by rw [Nat.zero_add]; exact tagged p low) filled inside

end

end Token

namespace Span

/-- A span of a text that stands further on in another one has the same characters. -/
theorem slice_shift (front text back : List Char) {span : Span} (within : span.stop ≤ text.length) :
    (span.shift front.length).slice (front ++ text ++ back) = span.slice text := by
  obtain ⟨start, stop⟩ := span
  rw [Span.slice, Span.slice, Span.shift, Span.length, Span.length, Nat.add_sub_add_right,
    List.append_assoc,
    Nat.add_comm, ← List.drop_drop, List.drop_left]
  dsimp only at within ⊢
  by_cases inside : start ≤ text.length
  · rw [List.drop_append_of_le_length inside, List.take_append_of_le_length
      (by rw [List.length_drop]; omega)]
  · rw [show stop - start = 0 by omega, List.take_zero, List.take_zero]

end Span

namespace Reduction

open Scanner OnSegments

section

variable {type : String} {operand : List Char} {back : List Token}

/-- The segments of a cast are those of the type, copies of the segments of its operand, and those
behind. -/
theorem exists_chainCopy (scope : ParagraphId) (body : Body)
    (primitive : type ∈ TypeName.primitives)
    (isOperand : IsCastOperand operand) (trails : Token.Trails back) :
    let left : Reduction := { ledger := Ledger.scan operand, scope, body }
    let right : Reduction :=
      { ledger := Ledger.scan (Token.castText type operand back), scope, body }
    ∃ segments copies, Shows left 0 left.ledger.size segments ∧
      ChainCopy operand (Token.castText type operand back) ⟨0, operand.length⟩
        (type.toList.length + 3)
        operand.length segments copies (begun left) (begun right) ∧
      Shows right 0 right.ledger.size (OnSegments.typeSegments type.toList.length ++ copies ++
        Token.segments (operand.length + (type.toList.length + 3)) back) := by
  intro left right
  have well := (Ledger.scan_sound operand).1
  have chars : right.ledger.chars = Token.castText type operand back :=
    (Ledger.scan_sound _).1.chars
  have size : right.ledger.size =
      type.toList.length + 3 + operand.length + (Token.text back).length := by
    rw [(Ledger.scan_sound _).1.size, Token.length_castText]
  have apart : StandsApart (Token.text (Token.castLead type)) operand (Token.text back) := by
    refine isOperand.isLinked.standsApart isOperand.first ?_ trails.blank trails.follows
    rw [Token.text_castLead, List.getLast?_append]
    rfl
  obtain ⟨before, inside, behind⟩ :=
    Ledger.tag?_scan_between apart isOperand.isLinked.closed.literals
    (Token.reads_castLead primitive) trails.reads
  rw [Token.length_castLead] at before inside behind
  obtain ⟨segments, depicts⟩ := @exists_depicts operand left well
  have present : segments ≠ [] := by
    rintro rfl
    have space := depicts.shown.1.2 0 (Nat.le_refl 0) (List.length_pos_of_ne_nil isOperand.ne_nil)
    have blank := well.blank 0 space
    rw [not_isBlank_of_first isOperand.first] at blank
    contradiction
  have same (p : Nat) (low : p < operand.length) :
      right.ledger.tag? (p + (type.toList.length + 3)) = left.ledger.tag? p := by
    rw [Nat.add_comm]
    exact inside p low
  obtain ⟨shown, all⟩ :=
    depicts.shown.copied (rfl : left.pending = #[]) same (Nat.le_refl _) (by omega)
  have typed := @Token.shows_castLead type right primitive before (by omega)
  have trail :=
    @Token.shows_of_tags back right (type.toList.length + 3 + operand.length) behind trails.filled
    (Nat.le_of_eq size.symm)
  rw [← size, Nat.add_comm _ operand.length] at trail
  rw [Nat.zero_add] at shown
  refine ⟨segments, _,
    by rw [well.size]; exact depicts.shown, ⟨⟨chars, fun span within => ?_, rfl, _, _, rfl⟩,
    all, present, ?_, ⟨left, depicts⟩, well.chars⟩, (typed.append shown).append trail⟩
  · constructor
    · change (span.shift _).slice right.ledger.chars = span.slice left.ledger.chars
      rw [chars, well.chars, ← @Token.length_castLead type]
      exact Span.slice_shift _ _ _ within
    · intro inside
      have order := (Ledger.holds_iff.1 inside).1
      refine Ledger.holds_iff.2 ⟨Nat.add_le_add_right order _, ?_⟩
      change span.stop + _ ≤ right.ledger.size
      omega
  · exact isChain_of_isLinked isOperand.isLinked isOperand.first rfl depicts.shown

end

end Reduction

namespace Body

open Reduction Scanner

section

variable {type : String} {operand : List Char} {scope : ParagraphId} {body after : Body}
  {placed : Placed}

section

variable (primitive : type ∈ TypeName.primitives) (isOperand : IsCastOperand operand)
  (few : operand.count '(' + 2 ≤ Limits.reductionRounds)
  (reads : readExpression scope operand body = .ok placed after)
include primitive isOperand few reads

/-- The segments of an operand that is read, and of a text in which it is cast. -/
theorem exists_reduced {back : List Token} (trails : Token.Trails back) :
    let whole := Token.castText type operand back
    let right : Reduction := { ledger := Ledger.scan whole, scope, body }
    ∃ segments copies left final,
      OnSegments.ChainCopy operand whole ⟨0, operand.length⟩ (type.toList.length + 3)
      operand.length segments
        copies left (begun right) ∧
      Shows right 0 right.ledger.size (OnSegments.typeSegments type.toList.length ++ copies ++
        Token.segments (operand.length + (type.toList.length + 3)) back) ∧
      OnSegments.roundCount segments + 2 ≤ Limits.reductionRounds ∧
      OnSegments.reduce (operand.length + 2) 1 segments left = .ok (some placed.expr) final := by
  intro whole right
  obtain ⟨segments, copies, shown, both, shown'⟩ :=
    exists_chainCopy scope body primitive isOperand trails
  obtain ⟨final, reduces⟩ := (readExpression_eq_ok shown both.filled).1 ⟨placed, after, reads, rfl⟩
  rw [(Ledger.scan_sound operand).1.size] at shown reduces
  have rounds := OnSegments.roundCount_le_count rfl shown
  exact ⟨segments, copies, _, final, both, shown', by omega, reduces⟩

/-- A type in brackets in front of an operand is read as a cast of the operand's tree. -/
theorem readExpression_castText :
    ∃ cast after', readExpression scope (Token.castText type operand []) body = .ok cast after' ∧
    OnSegments.IsCastOf type (type.toList.length + 3) operand.length placed.expr cast.expr := by
  obtain ⟨segments, copies, left, final, both, shown, rounds, reduces⟩ :=
    exists_reduced primitive isOperand few reads Token.trails_nil
  have size := (Ledger.scan_sound (Token.castText type operand [])).1.size
  rw [Token.length_castText] at size
  rw [Token.segments, List.append_nil] at shown
  have deep : operand.length + 1 ≤ (Ledger.scan (Token.castText type operand [])).size := by omega
  obtain ⟨cast, after', casts, isCast⟩ :=
    (OnSegments.reduce_cast primitive Token.slice_castText rfl both deep rounds
      reduces).resolve_left (not_strays_reduce shown)
  obtain ⟨placed', final', again, rfl⟩ :=
    (readExpression_eq_ok shown (by simp [OnSegments.typeSegments])).2
    ⟨after', casts⟩
  exact ⟨placed', final', again, isCast⟩

/-- A cast in front of a further factor is the first factor of the product. -/
theorem readExpression_castFactor {name : List Char} (isName : isVariableName name = true)
    (other : name ≠ Op.instanceOf.spelling) (noValue : String.ofList name ∉ valueWords) :
    ∃ product after' node cast factor,
      readExpression scope (Token.castText type operand (Token.castFactor name)) body =
        .ok product after' ∧ product.expr = .operation node .times cast factor ∧
      OnSegments.IsCastOf type (type.toList.length + 3) operand.length placed.expr cast ∧
      IsLeaf .identifier name factor := by
  obtain ⟨segments, copies, left, final, both, shown, rounds, reduces⟩ :=
    exists_reduced primitive isOperand few reads (Token.trails_castFactor isName other)
  have size := (Ledger.scan_sound (Token.castText type operand (Token.castFactor name))).1.size
  rw [Token.length_castText] at size
  rw [Token.segments_castFactor] at shown
  have slice := @Token.slice_castFactor type name operand _ rfl
  have deep :
      operand.length + 1 ≤
        (Ledger.scan (Token.castText type operand (Token.castFactor name))).size := by
    omega
  have isForm := leafForm?_of_isVariableName isName noValue
  obtain ⟨node, cast, factor, after', casts, isCast, isFactor⟩ :=
    (OnSegments.reduce_cast_product primitive Token.slice_castText rfl both deep rounds reduces
      (Nat.le_succ _) (by rw [slice, isForm])).resolve_left (not_strays_reduce shown)
  obtain ⟨product, final', again, same⟩ :=
    (readExpression_eq_ok shown (by simp [OnSegments.typeSegments])).2
    ⟨after', casts⟩
  rw [slice] at isFactor
  exact ⟨product, final', node, cast, factor, again, same, isCast, isFactor⟩

end

/-- **Casts.**  A primitive type in round brackets casts all of the name or group behind it, with
the members, arguments and indices that follow it, or the cast there; and the cast is one factor of
a product. -/
theorem readExpression_cast (primitive : type ∈ TypeName.primitives)
    (isOperand : IsCastOperand operand) (few : operand.count '(' + 2 ≤ Limits.reductionRounds)
    (reads : readExpression scope operand body = .ok placed after) :
    (∃ cast after', readExpression scope ('(' :: type.toList ++ [')', ' '] ++ operand) body =
      .ok cast after' ∧
      OnSegments.IsCastOf type (type.toList.length + 3) operand.length placed.expr cast.expr) ∧
    ∀ name, isVariableName name = true → name ≠ Op.instanceOf.spelling →
    String.ofList name ∉ valueWords →
      ∃ product after' node cast factor,
        readExpression scope ('(' :: type.toList ++ [')', ' '] ++ operand ++
          [' ', '*', ' '] ++ name) body = .ok product after' ∧
        product.expr = .operation node .times cast factor ∧
        OnSegments.IsCastOf type (type.toList.length + 3) operand.length placed.expr cast ∧
        IsLeaf .identifier name factor := by
  have lead (back : List Token) : Token.castText type operand back =
      '(' :: type.toList ++ [')', ' '] ++ operand ++ Token.text back := by
    rw [Token.castText, Token.text_castLead]
  constructor
  · have cast := readExpression_castText primitive isOperand few reads
    rwa [lead, Token.text_nil, List.append_nil] at cast
  · intro name isName other noValue
    have product := readExpression_castFactor primitive isOperand few reads isName other noValue
    rwa [lead, Token.text_castFactor, ← List.append_assoc] at product

/-- A cast of what a member returns, at an index. -/
theorem readExpression_cast_chain : ∃ placed after,
    readExpression root "a.f(b)[0]".toList (initial {} {}) = .ok placed after ∧
    ∃ product after' node cast factor,
      readExpression root "(int) a.f(b)[0] * x".toList (initial {} {}) = .ok product after' ∧
      product.expr = .operation node .times cast factor ∧
      OnSegments.IsCastOf "int" 6 9 placed.expr cast ∧ IsLeaf .identifier "x".toList factor := by
  have split : "a.f(b)[0]".toList = "a".toList ++ ([] ++ '.' :: [] ++ "f".toList) ++
      ([] ++ ('(' :: "b".toList ++ [')'])) ++ ([] ++ ('[' :: "0".toList ++ [']'])) := by decide
  have member : IsCastOperand ("a".toList ++ ([] ++ '.' :: [] ++ "f".toList)) :=
    .member (.name (by decide) (by decide)) nofun (by decide) (by decide)
  have chain : IsCastOperand "a.f(b)[0]".toList := by
    rw [split]
    exact .index (.call member nofun (isClosed_plain (by decide +kernel))) nofun
      (isClosed_plain (by decide +kernel))
  obtain ⟨placed, after, reads, -⟩ :=
    @exists_of_isPresent (readExpression root "a.f(b)[0]".toList (initial {} {}))
      (by decide +kernel)
  have whole : "(int) a.f(b)[0] * x".toList =
      '(' :: "int".toList ++ [')', ' '] ++ "a.f(b)[0]".toList ++ [' ', '*', ' '] ++ "x".toList :=
        by decide
  rw [whole]
  exact ⟨placed, after, reads, (readExpression_cast (by decide) chain (by decide +kernel) reads).2
    "x".toList
    (by decide) (by decide) (by decide)⟩

/-- Something is read that is not a cast. -/
def readsNoCast : EStateM.Result Failure Body Placed → Bool
  | .ok ⟨.cast .., _⟩ _ => false
  | .ok .. => true
  | .error .. => false

theorem exists_of_readsNoCast {result : EStateM.Result Failure Body Placed}
    (reads : readsNoCast result = true) :
    ∃ placed after, result = .ok placed after ∧ ∀ shift stop expr,
      ¬OnSegments.IsCastOf type shift stop expr placed.expr := by
  cases result with
  | ok placed after =>
      refine ⟨placed, after, rfl, ?_⟩
      rintro shift stop expr ⟨node, copy, isCast, -⟩
      obtain ⟨found, sight⟩ := placed
      obtain rfl : found = .cast node type copy := isCast
      contradiction
  | error failure after => contradiction

/-- With a sign in front of it or behind it, a name is read by itself, but not as the operand of a
cast. -/
theorem readExpression_cast_signs :
    ["a++", "a--", "++a", "--a", "+a", "-a", "!a"].Forall fun operand =>
    (∃ placed after, readExpression root operand.toList (initial {} {}) = .ok placed after ∧
      ∀ shift stop expr, ¬OnSegments.IsCastOf "int" shift stop expr placed.expr) ∧
    ∃ placed after, readExpression root ("(int) ".toList ++ operand.toList)
    (initial {} {}) = .ok placed after ∧
      ∀ shift stop expr, ¬OnSegments.IsCastOf "int" shift stop expr placed.expr := by
  have reads : ∀ operand ∈ ["a++", "a--", "++a", "--a", "+a", "-a", "!a"],
      readsNoCast (readExpression root operand.toList (initial {} {})) = true ∧
        readsNoCast (readExpression root ("(int) ".toList ++ operand.toList) (initial {} {})) =
          true := by
    decide +kernel
  refine List.forall_iff_forall_mem.2 fun operand among => ?_
  obtain ⟨alone, cast⟩ := reads operand among
  exact ⟨exists_of_readsNoCast alone, exists_of_readsNoCast cast⟩

end

end Body
end MethodLowering
