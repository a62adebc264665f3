import MethodLowering.Proofs.Reduction.Scanned
import MethodLowering.Proofs.Roundtrip.Lexing
import MethodLowering.Proofs.Roundtrip.Reading

/-!
# Printed expressions are read back

The tokens of a well-formed tree do not join, so a scan of its text finds them, and the segments it
shows spell the tree.  Reducing them gives the expression that the tree is written for.
-/

namespace MethodLowering

open Text Reduction

namespace Tree

/-! ## The tokens of a tree do not join -/

/-- The tokens start with a character that can follow any opening bracket. -/
def StartsSolid (tokens : List Token) : Prop :=
  ∃ c rest, Token.text tokens = c :: rest ∧ isBlank c = false ∧ c ≠ ']'

theorem StartsSolid.append {tokens : List Token} (starts : StartsSolid tokens) (more : List Token) :
    StartsSolid (tokens ++ more) := by
  obtain ⟨c, rest, text, solid⟩ := starts
  exact ⟨c, rest ++ Token.text more, by rw [Token.text_append, text, List.cons_append], solid⟩

theorem startsSolid_word {chars : List Char} (name : isName chars = true) (more : List Token) :
    StartsSolid (.word chars :: more) := by
  obtain ⟨first, rest, rfl, lower⟩ := exists_of_isName name
  refine ⟨first, rest ++ Token.text more, rfl,
    (isNameChar_plain (isNameChar_of_isLower lower)).2.1, ?_⟩
  rintro rfl
  contradiction

theorem startsSolid_tokens : ∀ {tree : Tree}, tree.isWellFormed = true → StartsSolid tree.tokens
  | .name _, well => startsSolid_word well []
  | .group _, _ => ⟨'(', _, rfl, rfl, by decide⟩
  | .call _ _, well => by
      rw [isWellFormed, Bool.and_eq_true] at well
      exact startsSolid_word well.1 _
  | .index target _, well => by
      simp only [isWellFormed, Bool.and_eq_true] at well
      exact (startsSolid_tokens well.1.1.2).append _
  | .member subject _, well => by
      simp only [isWellFormed, Bool.and_eq_true] at well
      exact (startsSolid_tokens well.1.1.2).append _
  | .leading op _, well => by
      simp only [isWellFormed, Bool.and_eq_true, Bool.or_eq_true] at well
      have kind : op.isMark = true ∨ op.isStep = true := by tauto
      have starts : ∃ c rest, op.spelling = c :: rest ∧ isBlank c = false ∧ c ≠ ']' := by
        revert kind
        cases op <;> first
          | exact fun _ => ⟨_, _, rfl, rfl, by decide⟩
          | exact fun kind => absurd kind (by decide)
      obtain ⟨c, rest, spelling, solid⟩ := starts
      exact ⟨c, rest ++ _, by rw [tokens, List.cons_append, Token.text_cons, Token.chars, spelling,
        List.cons_append], solid⟩
  | .trailing operand _, well => by
      simp only [isWellFormed, Bool.and_eq_true] at well
      exact (startsSolid_tokens well.2).append _
  | .binary _ left _, well => by
      simp only [isWellFormed, Bool.and_eq_true] at well
      rw [tokens, List.append_assoc]
      exact (startsSolid_tokens well.1.2).append _
  | .conditional condition _ _, well => by
      simp only [isWellFormed, Bool.and_eq_true] at well
      simp only [tokens, List.append_assoc]
      exact (startsSolid_tokens well.1.1.2).append _
  | .assignment _ target _, well => by
      simp only [isWellFormed, Bool.and_eq_true] at well
      rw [tokens, List.append_assoc]
      exact (startsSolid_tokens well.1.2).append _

/-- What may stand behind a tree: tokens that are apart and do not go on with a word. -/
def MayFollow (rest : List Token) : Prop :=
  Token.AreApart rest ∧ (Token.text rest).head?.any isWordChar = false

theorem mayFollow_nil : MayFollow [] := ⟨trivial, rfl⟩

theorem mayFollow_blank {rest : List Token} (apart : Token.AreApart rest) :
    MayFollow (.blank :: rest) := ⟨apart, rfl⟩

/-- Operators that do not join anything behind them. -/
def isSelfContained (op : Op) : Bool :=
  op.isStep || [Op.openParen, .closeParen, .openBracket, .closeBracket, .comma, .dot].contains op

theorem any_absorbs {op : Op} (alone : isSelfContained op = true) (next : Option Char) :
    next.any op.absorbs = false := by
  rw [isSelfContained, Bool.or_eq_true, List.contains_iff_mem] at alone
  cases next with
  | none => rfl
  | some c => exact Op.not_absorbs alone c

/-- Such an operator may follow a tree, an opening square bracket with something behind it. -/
theorem mayFollow_op (op : Op) {rest : List Token} (alone : isSelfContained op = true)
    (filled : op = .openBracket → StartsSolid rest) (apart : Token.AreApart rest) :
    MayFollow (.op op :: rest) := by
  have plain : op ≠ .instanceOf ∧ (op.spelling.head?.any isWordChar) = false := by
    revert alone
    cases op <;> decide
  refine ⟨⟨plain.1, any_absorbs alone _, fun opens => ?_, apart⟩, ?_⟩
  · obtain ⟨c, more, text, solid, other⟩ := filled opens
    rw [text, List.head?_cons, Option.any_some, solid, bne_iff_ne.2 other]
    rfl
  · obtain ⟨c, others, spelling⟩ : ∃ c others, op.spelling = c :: others :=
      List.exists_cons_of_length_pos (Ledger.width_pos op)
    rw [spelling] at plain
    rw [Token.text_cons, Token.chars, spelling]
    exact plain.2

theorem apart_spaced (op : Op) {rest : List Token} (symbolic : op ≠ .instanceOf)
    (plain : op ≠ .openBracket) (apart : Token.AreApart rest) :
    MayFollow (spaced op ++ rest) :=
  mayFollow_blank ⟨symbolic, Op.not_absorbs_blank op, fun opens => absurd opens plain, apart⟩

theorem spaced_isBinary {op : Op} (binary : op.isBinary = true) :
    op ≠ .instanceOf ∧ op ≠ .openBracket := by
  revert binary
  cases op <;> decide

theorem spaced_isAssignment {op : Op} (assigns : op.isAssignment = true) :
    op ≠ .instanceOf ∧ op ≠ .openBracket := by
  revert assigns
  cases op <;> decide

/-- An operator in front of its operand stands apart from it. -/
theorem apart_leading {op : Op} {tokens rest : List Token}
    (kind : op.isMark = true ∨ op.isStep = true)
    (starts : StartsSolid tokens) (apart : Token.AreApart (tokens ++ rest)) :
    Token.AreApart (.op op :: gapBehind op tokens ++ (tokens ++ rest)) := by
  have plain : op ≠ .instanceOf ∧ op ≠ .openBracket := by
    revert kind
    cases op <;> decide
  rw [gapBehind, List.cons_append]
  split
  · exact ⟨plain.1, Op.not_absorbs_blank op, fun opens => absurd opens plain.2, apart⟩
  · next joins =>
      refine ⟨plain.1, ?_, fun opens => absurd opens plain.2, apart⟩
      obtain ⟨c, more, text, -⟩ := starts
      rw [List.nil_append, Token.text_append, text, List.cons_append, List.head?_cons]
      rw [text, List.head?_cons] at joins
      exact Bool.eq_false_iff.2 joins

mutual

/-- The tokens of a tree are apart, also from what may follow them. -/
theorem apart_tokens : ∀ {tree : Tree} {rest : List Token}, tree.isWellFormed = true →
    MayFollow rest → Token.AreApart (tree.tokens ++ rest)
  | .name _, _, well, follows => ⟨well, follows.2, follows.1⟩
  | .group inner, rest, well, follows => by
      have inside : inner.isWellFormed = true := well
      have closes := mayFollow_op .closeParen rfl nofun follows.1
      simp only [tokens, List.append_assoc, List.cons_append]
      exact (mayFollow_op .openParen rfl nofun (apart_tokens inside closes)).1
  | .call callee arguments, rest, well, follows => by
      rw [isWellFormed, Bool.and_eq_true] at well
      have closes := mayFollow_op .closeParen rfl nofun follows.1
      have opens := mayFollow_op .openParen rfl nofun (apart_listTokens well.2 closes)
      simp only [tokens, List.append_assoc, List.cons_append]
      exact ⟨well.1, opens.2, opens.1⟩
  | .index target indices, rest, well, follows => by
      simp only [isWellFormed, Bool.and_eq_true] at well
      rw [tokens, List.append_assoc]
      exact apart_tokens well.1.1.2 (mayFollow_indexTokens well.2 follows)
  | .member subject link, rest, well, follows => by
      simp only [isWellFormed, Bool.and_eq_true] at well
      rw [tokens, List.append_assoc, List.cons_append]
      exact apart_tokens well.1.1.2
        (mayFollow_op .dot rfl nofun (apart_tokens well.2 follows))
  | .leading op operand, rest, well, follows => by
      simp only [isWellFormed, Bool.and_eq_true, Bool.or_eq_true] at well
      rw [tokens, List.append_assoc]
      exact apart_leading (by tauto) (startsSolid_tokens well.2) (apart_tokens well.2 follows)
  | .trailing operand op, rest, well, follows => by
      simp only [isWellFormed, Bool.and_eq_true] at well
      rw [tokens, List.append_assoc]
      refine apart_tokens well.2 (mayFollow_op op ?_ ?_ follows.1)
      · rw [isSelfContained, well.1.1, Bool.true_or]
      · rintro rfl
        exact absurd well.1.1 (by decide)
  | .binary op left right, rest, well, follows => by
      simp only [isWellFormed, Bool.and_eq_true] at well
      have kind := spaced_isBinary well.1.1.1.1
      rw [tokens, List.append_assoc, List.append_assoc]
      exact apart_tokens well.1.2 (apart_spaced op kind.1 kind.2 (apart_tokens well.2 follows))
  | .conditional condition first second, rest, well, follows => by
      simp only [isWellFormed, Bool.and_eq_true] at well
      have colon := apart_spaced .colon nofun nofun (apart_tokens well.2 follows)
      simp only [tokens, List.append_assoc]
      exact apart_tokens well.1.1.2
        (apart_spaced .question nofun nofun (apart_tokens well.1.2 colon))
  | .assignment op target value, rest, well, follows => by
      simp only [isWellFormed, Bool.and_eq_true] at well
      have kind := spaced_isAssignment well.1.1.1
      rw [tokens, List.append_assoc, List.append_assoc]
      exact apart_tokens well.1.2 (apart_spaced op kind.1 kind.2 (apart_tokens well.2 follows))

theorem apart_listTokens : ∀ {items : List Tree} {rest : List Token}, areWellFormed items = true →
    MayFollow rest → Token.AreApart (listTokens items ++ rest)
  | [], _, _, follows => follows.1
  | first :: further, rest, well, follows => by
      rw [areWellFormed, Bool.and_eq_true] at well
      rw [listTokens, List.append_assoc]
      exact apart_tokens well.1 (mayFollow_furtherTokens well.2 follows)

theorem mayFollow_furtherTokens : ∀ {items : List Tree} {rest : List Token},
    areWellFormed items = true → MayFollow rest → MayFollow (furtherTokens items ++ rest)
  | [], _, _, follows => follows
  | next :: further, rest, well, follows => by
      rw [areWellFormed, Bool.and_eq_true] at well
      simp only [furtherTokens, List.append_assoc, List.cons_append]
      exact mayFollow_op .comma rfl nofun
        (mayFollow_blank (apart_tokens well.1 (mayFollow_furtherTokens well.2 follows))).1

theorem mayFollow_indexTokens : ∀ {items : List Tree} {rest : List Token},
    areWellFormed items = true → MayFollow rest → MayFollow (indexTokens items ++ rest)
  | [], _, _, follows => follows
  | next :: further, rest, well, follows => by
      rw [areWellFormed, Bool.and_eq_true] at well
      have closes := mayFollow_op .closeBracket rfl nofun
        (mayFollow_indexTokens well.2 follows).1
      simp only [indexTokens, List.append_assoc, List.cons_append]
      exact mayFollow_op .openBracket rfl
        (fun _ => (startsSolid_tokens well.1).append _) (apart_tokens well.1 closes)

end

/-! ## The segments of a tree spell it -/

end Tree

namespace Token

/-- An operator, bracket or comma. -/
def isOp : Token → Bool
  | .op _ => true
  | .word _ | .blank => false

theorem segments_append (position : Nat) (front back : List Token) :
    segments position (front ++ back) =
      segments position front ++ segments (position + (text front).length) back := by
  induction front generalizing position with
  | nil => rfl
  | cons token rest induction =>
      rw [text_cons, List.length_append, ← Nat.add_assoc]
      cases token with
      | word chars => exact congrArg _ (induction _)
      | op found => exact congrArg _ (induction _)
      | blank => exact induction _

/-- The characters of the tokens stand in the text from the position on. -/
def StandsAt (whole : List Char) (position : Nat) (tokens : List Token) : Prop :=
  text tokens <+: whole.drop position

theorem standsAt_append {whole : List Char} {position : Nat} {front back : List Token} :
    StandsAt whole position (front ++ back) ↔
      StandsAt whole position front ∧ StandsAt whole (position + (text front).length) back := by
  rw [StandsAt, StandsAt, StandsAt, text_append, ← List.drop_drop]
  constructor
  · rintro ⟨rest, split⟩
    rw [← split, List.append_assoc]
    exact ⟨List.prefix_append _ _, by rw [List.drop_left]; exact List.prefix_append _ _⟩
  · rintro ⟨⟨rest, split⟩, starts⟩
    rw [← split, List.drop_left] at starts
    rw [← split]
    exact (List.prefix_append_right_inj _).2 starts

end Token

namespace Tree

open Token (segments StandsAt standsAt_append segments_append)

section

variable {text : List Char}

theorem spelled_op_tokens (op : Op) (position : Nat) :
    Spelled text [.op op] (segments position [.op op]) := .op rfl .nil

theorem spelled_spaced (op : Op) (position : Nat) :
    Spelled text [.op op] (segments position (spaced op)) := .op rfl .nil

theorem segments_gapBehind (op : Op) (tokens : List Token) (position : Nat) :
    segments position (gapBehind op tokens) = [] := by
  rw [gapBehind]
  split <;> rfl

theorem spelled_word {chars : List Char} {position : Nat}
    (stands : StandsAt text position [.word chars]) :
    Spelled text [.word chars] (segments position [.word chars]) := by
  refine .word rfl ?_ .nil
  have starts : chars <+: text.drop position :=
    by simpa [StandsAt, Token.text, Token.chars] using stands
  rw [Span.slice, Span.length, Nat.add_sub_cancel_left]
  exact (List.prefix_iff_eq_take.1 starts).symm

mutual

/-- Where the tokens of a tree stand, their segments spell its parts. -/
theorem spelled_parts : ∀ {tree : Tree} {position : Nat}, StandsAt text position tree.tokens →
    Spelled text (Form.tree tree).parts (segments position tree.tokens)
  | .name _, _, stands => spelled_word stands
  | .group inner, position, stands => by
      rw [tokens, List.cons_append, ← List.singleton_append, standsAt_append, standsAt_append]
        at stands
      rw [tokens, List.cons_append, ← List.singleton_append, segments_append, segments_append]
      exact (spelled_op_tokens _ _).append
        ((spelled_parts stands.2.1).asForm.append (spelled_op_tokens _ _))
  | .call callee arguments, position, stands => by
      rw [tokens, List.cons_append, List.cons_append, ← List.singleton_append
        (x := Token.word callee),
        ← List.singleton_append (x := Token.op .openParen), standsAt_append, standsAt_append,
        standsAt_append] at stands
      rw [tokens, List.cons_append, List.cons_append, ← List.singleton_append
        (x := Token.word callee),
        ← List.singleton_append (x := Token.op .openParen), segments_append, segments_append,
        segments_append]
      exact (spelled_word stands.1).append
        ((spelled_op_tokens _ _).append
          ((spelled_listTokens stands.2.2.1).append (spelled_op_tokens _ _)))
  | .index target indices, position, stands => by
      rw [tokens, standsAt_append] at stands
      rw [tokens, segments_append]
      have further := spelled_indexTokens stands.2
      cases indices with
      | nil => exact (spelled_parts stands.1).asForm.append further
      | cons first rest => exact (spelled_parts stands.1).asForm.append further
  | .member subject link, position, stands => by
      rw [tokens, ← List.singleton_append, standsAt_append, standsAt_append] at stands
      rw [tokens, ← List.singleton_append, segments_append, segments_append]
      exact (spelled_parts stands.1).asForm.append
        ((spelled_op_tokens _ _).append (spelled_parts stands.2.2).asForm)
  | .leading op operand, position, stands => by
      rw [tokens, List.cons_append, ← List.singleton_append, standsAt_append, standsAt_append]
        at stands
      rw [tokens, List.cons_append, ← List.singleton_append, segments_append, segments_append,
        segments_gapBehind, List.nil_append]
      exact (spelled_op_tokens _ _).append (spelled_parts stands.2.2).asForm
  | .trailing operand op, position, stands => by
      rw [tokens, standsAt_append] at stands
      rw [tokens, segments_append]
      exact (spelled_parts stands.1).asForm.append (spelled_op_tokens _ _)
  | .binary op left right, position, stands => by
      rw [tokens, List.append_assoc, standsAt_append, standsAt_append] at stands
      rw [tokens, List.append_assoc, segments_append, segments_append]
      exact (spelled_parts stands.1).asForm.append
        ((spelled_spaced _ _).append (spelled_parts stands.2.2).asForm)
  | .conditional condition first second, position, stands => by
      simp only [tokens, List.append_assoc, standsAt_append] at stands
      simp only [tokens, List.append_assoc, segments_append]
      exact (spelled_parts stands.1).asForm.append ((spelled_spaced _ _).append
        ((spelled_parts stands.2.2.1).asForm.append ((spelled_spaced _ _).append
          (spelled_parts stands.2.2.2.2).asForm)))
  | .assignment op target value, position, stands => by
      rw [tokens, List.append_assoc, standsAt_append, standsAt_append] at stands
      rw [tokens, List.append_assoc, segments_append, segments_append]
      exact (spelled_parts stands.1).asForm.append
        ((spelled_spaced _ _).append (spelled_parts stands.2.2).asForm)

theorem spelled_listTokens : ∀ {items : List Tree} {position : Nat},
    StandsAt text position (listTokens items) →
    Spelled text (listParts items) (segments position (listTokens items))
  | [], _, _ => .nil
  | [only], position, stands => by
      simp only [listTokens, furtherTokens, List.append_nil] at stands ⊢
      exact (spelled_parts stands).asForm
  | first :: next :: rest, position, stands => by
      have split : listTokens (first :: next :: rest) =
          first.tokens ++ ([.op .comma, .blank] ++ listTokens (next :: rest)) := by
        simp only [listTokens, furtherTokens, List.cons_append, List.nil_append]
      rw [split, standsAt_append, standsAt_append] at stands
      rw [split, segments_append, segments_append]
      have comma (position : Nat) :
          Spelled text [.op .comma] (segments position [.op .comma, .blank]) := .op rfl .nil
      exact (spelled_parts stands.1).asForm.append
        ((comma _).append (spelled_listTokens stands.2.2))

theorem spelled_indexTokens : ∀ {items : List Tree} {position : Nat},
    StandsAt text position (indexTokens items) →
    Spelled text (Form.indices items).parts (segments position (indexTokens items))
  | [], _, _ => .nil
  | first :: further, position, stands => by
      have split : indexTokens (first :: further) =
          [.op .openBracket] ++ (first.tokens ++ ([.op .closeBracket] ++ indexTokens further)) := by
        simp only [indexTokens, List.cons_append, List.nil_append]
      rw [split, standsAt_append, standsAt_append, standsAt_append] at stands
      rw [split, segments_append, segments_append, segments_append]
      exact (spelled_op_tokens _ _).append ((spelled_parts stands.2.1).asForm.append
        ((spelled_op_tokens _ _).append (spelled_indexTokens stands.2.2.2).asForm))

end

end

/-! ## Reading printed trees -/

/-- The number of operators, brackets and commas in the text of a tree. -/
def operatorCount (tree : Tree) : Nat := (tree.tokens.filter Token.isOp).length

end Tree

namespace Token

theorem piece_ne_tree {tokens : List Token} {position : Nat} {segment : Segment}
    (among : segment ∈ segments position tokens) (expr : Expr) : segment.piece ≠ .tree expr := by
  induction tokens generalizing position with
  | nil => contradiction
  | cons token rest induction =>
      cases token with
      | blank => exact induction among
      | word _ | op _ =>
          rcases List.mem_cons.1 among with rfl | later
          · nofun
          · exact induction later

/-- The scanned text of tokens shows their segments where the scan has found the tokens. -/
theorem depicts_of_tags {tokens : List Token} {state : Reduction}
    (tagged : ∀ p, state.ledger.tag? p = (tokens.flatMap tags)[p]?)
    (filled : ∀ chars, .word chars ∈ tokens → chars ≠ [])
    (scanned : state.ledger = Ledger.scan (text tokens)) :
    Depicts (text tokens) state 0 (text tokens).length (segments 0 tokens) := by
  obtain ⟨well, -⟩ := Ledger.scan_sound (text tokens)
  rw [← scanned] at well
  have shown : Shows state 0 (text tokens).length (segments 0 tokens) := by
    have known := @shows_of_tags tokens state 0 (fun p _ => by rw [Nat.zero_add, tagged]) filled
      (by rw [well.size, Nat.zero_add])
    rwa [Nat.zero_add] at known
  refine ⟨portrays_of_wellTagged well, shown, fun segment among => ?_⟩
  obtain ⟨before, after, split⟩ := List.append_of_mem among
  rw [split] at shown
  obtain ⟨-, stands, -⟩ := shows_append_cons.1 shown
  have tagged := stands.tagged
  rw [Segment.Fits]
  cases piece : segment.piece with
  | word => trivial
  | tree expr => exact absurd piece (piece_ne_tree among expr)
  | op found =>
      rw [piece] at tagged
      obtain ⟨stop, head, -⟩ := tagged
      dsimp only
      rw [between, stop, (well.head _ _ head).1, squeeze, List.filter_eq_self]
      intro c member
      rw [Op.isBlank_of_mem member]
      rfl

/-- The scanned text of tokens that stand apart shows their segments. -/
theorem depicts_scan {tokens : List Token} {state : Reduction} (apart : AreApart tokens)
    (scanned : state.ledger = Ledger.scan (text tokens)) :
    Depicts (text tokens) state 0 (text tokens).length (segments 0 tokens) := by
  refine depicts_of_tags (fun p => ?_) (filled_of_apart apart) scanned
  rw [scanned, tag?_scan apart]

theorem length_headsOf_segments (position : Nat) (tokens : List Token) :
    (headsOf (segments position tokens)).length = (tokens.filter isOp).length := by
  induction tokens generalizing position with
  | nil => rfl
  | cons token rest induction =>
      cases token with
      | word chars => exact induction _
      | op found => exact congrArg Nat.succ (induction _)
      | blank => exact induction _

end Token

namespace Body

open MethodLowering.Tree

/-- The segments of a scanned text are reduced without a span that strays from it. -/
theorem not_strays {text : List Char} {segments : List Segment} {scope : ParagraphId} {body : Body}
    (shown : Shows { ledger := Ledger.scan text, scope, body } 0 (Ledger.scan text).size
      segments) :
    ¬ Strays (OnSegments.statement ((Ledger.scan text).size + 2) segments
      { ledger := Ledger.scan text, scope, body }) := by
  rintro ⟨after, strays⟩
  have tracks := statement_tracks ⟨rfl, rfl, rfl, rfl, rfl⟩ shown
  rw [strays] at tracks
  cases run : Reduction.statement { ledger := Ledger.scan text, scope, body } with
  | ok expr final =>
      rw [run] at tracks
      exact tracks.elim
  | error failure final =>
      obtain ⟨error, rfl⟩ := statement_malformed run
      rw [run] at tracks
      exact Failure.noConfusion tracks.1

/-- A text whose segments are reduced quietly is read so: nothing is declared, and the body keeps
everything but the numbering of nodes and the record of effort. -/
theorem readExpression_of_yields {text : List Char} {segments : List Segment}
    {property : Expr → Prop} {scope : ParagraphId} {body : Body}
    (shown : Shows { ledger := Ledger.scan text, scope, body } 0 (Ledger.scan text).size segments)
    (yields : Yields { ledger := Ledger.scan text, scope, body } property
      (OnSegments.statement ((Ledger.scan text).size + 2) segments
        { ledger := Ledger.scan text, scope, body })) :
    ∃ expr nextNode effort, readExpression scope text body =
        .ok ⟨expr, body.sightFrom scope⟩ { body with nextNode, effort } ∧ property expr := by
  obtain ⟨expr, after, reduces, quiet, holds⟩ := yields.cases.resolve_left (not_strays shown)
  obtain ⟨nextNode, effort, same⟩ := quiet.body
  have tracks := statement_tracks ⟨rfl, rfl, rfl, rfl, rfl⟩ shown
  refine ⟨expr, nextNode, effort, ?_, holds⟩
  rw [reduces] at tracks
  rw [readExpression]
  generalize Reduction.statement _ = run at tracks ⊢
  cases run with
  | error failure final => exact tracks.elim
  | ok found final =>
      obtain ⟨agrees, rfl⟩ := tracks
      dsimp only
      rw [agrees.body, same]
      rfl

/-- Tokens that spell a tree are read as this tree: nothing is declared, and the body keeps
everything but the numbering of nodes and the record of effort. -/
theorem readExpression_tokens {tree : Tree} {tokens : List Token} (well : tree.isWellFormed = true)
    (few : (tokens.filter Token.isOp).length < Limits.reductionRounds)
    (apart : Token.AreApart tokens)
    (spelled : Spelled (Token.text tokens) (Form.tree tree).parts (Token.segments 0 tokens))
    (scope : ParagraphId) (body : Body) :
    ∃ expr nextNode effort, readExpression scope (Token.text tokens) body =
        .ok ⟨expr, body.sightFrom scope⟩ { body with nextNode, effort } ∧ tree.Pictures expr := by
  let text := Token.text tokens
  let state : Reduction := { ledger := Ledger.scan text, scope, body }
  have depicts : Depicts text state 0 text.length (Token.segments 0 tokens) :=
    Token.depicts_scan apart rfl
  have chars : state.ledger.chars = text := depicts.portrays.chars
  have size : state.ledger.size = text.length := depicts.portrays.size
  have shown : Shows state 0 state.ledger.size (Token.segments 0 tokens) := by
    rw [size]
    exact depicts.shown
  have written : Written text [tree] (Token.segments 0 tokens) := by
    refine ⟨by rw [areWellFormed, well]; rfl, spelled.asForm, ⟨state, _, _, depicts⟩, ?_⟩
    rw [Token.length_headsOf_segments]
    exact few
  have counted := shown.length_le
  have short : (Token.segments 0 tokens).length < state.ledger.size + 2 := by omega
  exact readExpression_of_yields shown (statement_yields written chars short)

/-- Whatever tree is written, its text is read as this tree. -/
theorem readExpression_print {tree : Tree} (well : tree.isWellFormed = true)
    (few : tree.operatorCount < Limits.reductionRounds) (scope : ParagraphId) (body : Body) :
    ∃ expr nextNode effort, readExpression scope tree.print body =
        .ok ⟨expr, body.sightFrom scope⟩ { body with nextNode, effort } ∧ tree.Pictures expr := by
  have apart : Token.AreApart tree.tokens := by
    simpa using apart_tokens well mayFollow_nil
  have stands : Token.StandsAt tree.print 0 tree.tokens := List.prefix_rfl
  exact readExpression_tokens well few apart (spelled_parts stands) scope body

/-- A blank in front of a tree does not matter. -/
theorem readExpression_blank {tree : Tree} (well : tree.isWellFormed = true)
    (few : tree.operatorCount < Limits.reductionRounds) (scope : ParagraphId) (body : Body) :
    ∃ expr nextNode effort, readExpression scope (' ' :: tree.print) body =
        .ok ⟨expr, body.sightFrom scope⟩ { body with nextNode, effort } ∧ tree.Pictures expr := by
  have apart : Token.AreApart (.blank :: tree.tokens) := by
    simpa using (mayFollow_blank (apart_tokens well mayFollow_nil)).1
  have stands : Token.StandsAt (Token.text (.blank :: tree.tokens)) 1 tree.tokens := List.prefix_rfl
  have spelled : Spelled (Token.text (.blank :: tree.tokens)) (Form.tree tree).parts
      (Token.segments 0 (.blank :: tree.tokens)) := spelled_parts stands
  have few' : ((Token.blank :: tree.tokens).filter Token.isOp).length < Limits.reductionRounds := by
    rw [List.filter_cons_of_neg Bool.false_ne_true]
    exact few
  exact readExpression_tokens well few' apart spelled scope body

end Body

/-! ## One tree for each expression -/

namespace Tree

theorem not_pictures_absent {tree : Tree} : ¬ tree.Pictures .absent := nofun

mutual

/-- An expression has the shape of at most one well-formed tree. -/
theorem pictures_inj : ∀ {tree other : Tree} {expr : Expr}, tree.isWellFormed = true →
    other.isWellFormed = true → tree.Pictures expr → other.Pictures expr → tree = other
  | .name _, _, _, _, _, .name text, .name text' => by
      rw [String.ofList_injective (text.symm.trans text')]
  | .group inner, _, _, well, well', .group first, shape => by
      cases shape with
      | @group inner' _ _ first' =>
          have inside : inner.isWellFormed = true := well
          have inside' : inner'.isWellFormed = true := well'
          rw [pictures_inj inside inside' first first']
  | .call callee arguments, _, _, well, well', .call text all, .call text' all' => by
      rw [isWellFormed, Bool.and_eq_true] at well well'
      rw [String.ofList_injective (text.symm.trans text'), forall₂_pictures_inj well.2
        well'.2 all all']
  | .index target indices, _, _, well, well', .index first all, .index first' all' => by
      simp only [isWellFormed, Bool.and_eq_true] at well well'
      rw [pictures_inj well.1.1.2 well'.1.1.2 first first', forall₂_pictures_inj well.2
        well'.2 all all']
  | .member subject link, _, _, well, well', .member first second, .member first' second' => by
      simp only [isWellFormed, Bool.and_eq_true] at well well'
      rw [pictures_inj well.1.1.2 well'.1.1.2 first first', pictures_inj well.2 well'.2
        second second']
  | .leading op operand, _, _, well, well', .leading first, second => by
      cases second with
      | leading first' =>
          simp only [isWellFormed, Bool.and_eq_true] at well well'
          rw [pictures_inj well.2 well'.2 first first']
      | trailing first' => exact absurd first not_pictures_absent
      | binary one other => exact absurd one not_pictures_absent
      | conditional tested left right => exact absurd tested not_pictures_absent
  | .trailing operand op, _, _, well, well', .trailing first, second => by
      cases second with
      | leading first' => exact absurd first not_pictures_absent
      | trailing first' =>
          simp only [isWellFormed, Bool.and_eq_true] at well well'
          rw [pictures_inj well.2 well'.2 first first']
      | binary one other => exact absurd other not_pictures_absent
  | .binary op left right, _, _, well, well', .binary one other, second => by
      simp only [isWellFormed, Bool.and_eq_true] at well
      cases second with
      | leading first' => exact absurd one not_pictures_absent
      | trailing first' => exact absurd other not_pictures_absent
      | binary one' other' =>
          simp only [isWellFormed, Bool.and_eq_true] at well'
          rw [pictures_inj well.1.2 well'.1.2 one one', pictures_inj well.2 well'.2 other other']
      | conditional tested left right => exact absurd well.1.1.1.1 (by decide)
  | .conditional condition first second, _, _, well, well', .conditional tested one
      other, shape => by
      simp only [isWellFormed, Bool.and_eq_true] at well
      cases shape with
      | leading first' => exact absurd tested not_pictures_absent
      | binary one' other' =>
          simp only [isWellFormed, Bool.and_eq_true] at well'
          exact absurd well'.1.1.1.1 (by decide)
      | conditional tested' one' other' =>
          simp only [isWellFormed, Bool.and_eq_true] at well'
          rw [pictures_inj well.1.1.2 well'.1.1.2 tested tested',
            pictures_inj well.1.2 well'.1.2 one one', pictures_inj well.2 well'.2 other other']
  | .assignment op target value, _, _, well, well', .assignment first second,
      .assignment first' second' => by
      simp only [isWellFormed, Bool.and_eq_true] at well well'
      rw [pictures_inj well.1.2 well'.1.2 first first', pictures_inj well.2 well'.2 second second']

theorem forall₂_pictures_inj : ∀ {items others : List Tree} {exprs : List Expr},
    areWellFormed items = true → areWellFormed others = true → List.Forall₂ Pictures items exprs →
    List.Forall₂ Pictures others exprs → items = others
  | [], _, _, _, _, .nil, .nil => rfl
  | _ :: _, _, _, well, well', .cons first rest, .cons first' rest' => by
      rw [areWellFormed, Bool.and_eq_true] at well well'
      rw [pictures_inj well.1 well'.1 first first', forall₂_pictures_inj well.2 well'.2 rest rest']

end

/-- Reading the text of a tree gives an expression of exactly this shape, whatever the body, as long
as the text has fewer operators than there are rounds. -/
theorem read_print {tree : Tree} (well : tree.isWellFormed = true)
    (few : tree.operatorCount < Limits.reductionRounds) (scope : ParagraphId) (body : Body) :
    ∃ placed after, Body.readExpression scope tree.print body = .ok placed after ∧
      tree.Pictures placed.expr ∧
      (∀ other, other.isWellFormed = true → other.Pictures placed.expr → other = tree) ∧
      after.vars = body.vars ∧ after.paragraphs = body.paragraphs := by
  obtain ⟨expr, nextNode, effort, reads, pictures⟩ := Body.readExpression_print well few scope body
  exact ⟨_, _, reads, pictures, fun other fine same =>
    pictures_inj fine well same pictures, rfl, rfl⟩

/-- The tree of `x = a ? - -b : (c + d) * e[f].g(h, i++)`. -/
def sample : Tree :=
  let name (c : Char) : Tree := .name [c]
  .assignment .assign (name 'x')
    (.conditional (name 'a') (.leading .minus (.leading .minus (name 'b')))
      (.binary .times (.group (.binary .plus (name 'c') (name 'd')))
        (.member (.index (name 'e') [name 'f'])
          (.call ['g'] [name 'h', .trailing (name 'i') .increment]))))

theorem read_print_sample :
    sample.print = "x = a ? - -b : (c + d) * e[f].g(h, i++)".toList ∧
      ∃ placed after, Body.readExpression Body.root sample.print (Body.initial {} {}) =
        .ok placed after ∧ sample.Pictures placed.expr := by
  have well : sample.isWellFormed = true := by decide
  have few : sample.operatorCount < Limits.reductionRounds := by decide
  refine ⟨by decide, ?_⟩
  obtain ⟨placed, after, reads, pictures, -⟩ := read_print well few Body.root (Body.initial {} {})
  exact ⟨placed, after, reads, pictures⟩

end Tree

end MethodLowering
