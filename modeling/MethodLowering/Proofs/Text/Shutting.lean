import MethodLowering.Proofs.Brackets.Closed
import MethodLowering.Proofs.Text.Growth
import MethodLowering.Proofs.Text.Sealing

/-!
# Shut text

A text is shut when every bracket and literal that opens in it also ends in it, and the characters
outside of them are of a given kind.  Shut texts may be put one behind the other, what is left of a
shut text without a shut beginning is shut, and text in brackets is shut whatever stands in it.  A
shut text is one part where its separator is not of the kind.
-/

namespace MethodLowering
namespace Text

/-- Where a reading stands: with respect to literals, and the number of open brackets. -/
structure Place where
  quote : Quote := .outside
  depth : Nat := 0
deriving DecidableEq, Repr

namespace Place

/-- The place behind a character.  A closing bracket needs an open one, and a character outside
brackets and literals has to be among `bare`. -/
def next? (bare : Char → Bool) (place : Place) (c : Char) : Option Place :=
  if place.quote.covers c then some { place with quote := place.quote.next c }
  else if isOpening c then some { place with depth := place.depth + 1 }
  else if isClosing c then
    match place.depth with
    | 0 => none
    | depth + 1 => some { place with depth }
  else if place.depth == 0 && !bare c then none
  else some place

/-- The place behind a text. -/
def after? (bare : Char → Bool) : Place → List Char → Option Place
  | place, [] => some place
  | place, c :: rest => (place.next? bare c).bind (after? bare · rest)

end Place

/-- All brackets and literals of the text are closed, and the characters outside them are among
`bare`. -/
def Shut (bare : Char → Bool) (text : List Char) : Prop := Place.after? bare {} text = some {}

/-- Any character may stand outside brackets. -/
abbrev anyChar : Char → Bool := fun _ => true

/-- Any character but the semicolon may stand outside brackets. -/
abbrev noSemicolon : Char → Bool := fun c => c != ';'

/-- Only a semicolon is kept from standing outside brackets. -/
def Lenient (bare : Char → Bool) : Prop := ∀ c, c ≠ ';' → bare c = true

theorem lenient_anyChar : Lenient anyChar := fun _ _ => rfl

theorem lenient_noSemicolon : Lenient noSemicolon := fun _ other => by simpa using other

namespace Place

section

variable {bare other : Char → Bool} {place after : Place} {c : Char} {text front back : List Char}

theorem after?_append (front back : List Char) :
    after? bare place (front ++ back) = (after? bare place front).bind (after? bare · back) := by
  induction front generalizing place with
  | nil => rfl
  | cons c rest induction =>
      rw [List.cons_append, after?, after?, Option.bind_assoc]
      exact congrArg _ (funext fun _ => induction)

/-- Where more characters may stand outside brackets, the text is read the same way. -/
theorem next?_mono (more : ∀ c, bare c = true → other c = true)
    (reads : place.next? bare c = some after) : place.next? other c = some after := by
  unfold next? at reads ⊢
  split
  · rwa [if_pos ‹_›] at reads
  · rw [if_neg ‹_›] at reads
    split
    · rwa [if_pos ‹_›] at reads
    · rw [if_neg ‹_›] at reads
      split
      · rwa [if_pos ‹_›] at reads
      · rw [if_neg ‹_›] at reads
        split at reads
        · contradiction
        · rename_i free
          rw [if_neg]
          · exact reads
          · cases own : bare c <;> simp_all

theorem after?_mono (more : ∀ c, bare c = true → other c = true)
    (reads : after? bare place text = some after) : after? other place text = some after := by
  induction text generalizing place with
  | nil => exact reads
  | cons c rest induction =>
      obtain ⟨between, first, later⟩ := Option.bind_eq_some_iff.1 reads
      rw [after?, next?_mono more first]
      exact induction later
/-- Inside further brackets everything may stand. -/
theorem next?_raised (reads : place.next? anyChar c = some after) (further : Nat) :
    ({ place with depth := place.depth + (further + 1) } : Place).next? bare c =
      some { after with depth := after.depth + (further + 1) } := by
  unfold next? at reads ⊢
  dsimp only at reads ⊢
  split
  · rw [if_pos ‹_›, Option.some.injEq] at reads
    subst reads
    rfl
  · rw [if_neg ‹_›] at reads
    split
    · rw [if_pos ‹_›, Option.some.injEq] at reads
      subst reads
      simp only [Option.some.injEq, mk.injEq, true_and]
      omega
    · rw [if_neg ‹_›] at reads
      split
      · rw [if_pos ‹_›] at reads
        split at reads
        · contradiction
        · rename_i depth deep
          rw [Option.some.injEq] at reads
          subst reads
          have count : depth + 1 + further = depth + (further + 1) := by omega
          rw [deep]
          exact congrArg (fun depth => some { place with depth }) count
      · rw [if_neg ‹_›] at reads
        obtain rfl : place = after := by simpa using reads
        rw [if_neg (by simp)]

theorem after?_raised (reads : after? anyChar place text = some after) (further : Nat) :
    after? bare { place with depth := place.depth + (further + 1) } text =
      some { after with depth := after.depth + (further + 1) } := by
  induction text generalizing place with
  | nil =>
      obtain rfl := Option.some.inj reads
      rfl
  | cons c rest induction =>
      obtain ⟨between, first, later⟩ := Option.bind_eq_some_iff.1 reads
      rw [after?, next?_raised first, Option.bind_some]
      exact induction later

section

variable (outside : place.quote = .outside)
include outside

/-- A character that is no bracket and no quotation mark changes nothing outside literals. -/
theorem next?_plain (plain : isPlain c = true)
    (free : bare c = true) :
    place.next? bare c = some place := by
  obtain ⟨unquoted, opens, closes⟩ := isPlain_eq plain
  simp [next?, outside, Quote.covers, unquoted, opens, closes, free]

theorem after?_plain (plain : ∀ c ∈ text, isPlain c = true ∧ bare c = true) :
    after? bare place text = some place := by
  induction text with
  | nil => rfl
  | cons c rest induction =>
      obtain ⟨symbol, free⟩ := plain c List.mem_cons_self
      rw [after?, next?_plain outside symbol free]
      exact induction fun other among => plain other (List.mem_cons_of_mem c among)

theorem next?_opening (opens : isOpening c = true) :
    place.next? bare c = some { place with depth := place.depth + 1 } := by
  have unquoted : isQuoteMark c = false := by
    simp only [isOpening, Bool.or_eq_true, beq_iff_eq] at opens
    rcases opens with (rfl | rfl) | rfl <;> rfl
  simp [next?, outside, Quote.covers, unquoted, opens]

theorem next?_closing (closes : isClosing c = true) :
    ({ place with depth := place.depth + 1 } : Place).next? bare c = some place := by
  have kinds : isQuoteMark c = false ∧ isOpening c = false := by
    simp only [isClosing, Bool.or_eq_true, beq_iff_eq] at closes
    rcases closes with (rfl | rfl) | rfl <;> exact ⟨rfl, rfl⟩
  obtain ⟨quote, depth⟩ := place
  obtain rfl : quote = .outside := outside
  simp [next?, Quote.covers, kinds.1, kinds.2, closes]

end

end
end Place

/-! ## Putting texts together -/

section

variable {bare : Char → Bool} {text front back inner : List Char} {c opening closing : Char}

theorem shut_nil : Shut bare [] := rfl

theorem shut_plain (plain : ∀ c ∈ text, isPlain c = true ∧ bare c = true) : Shut bare text :=
  Place.after?_plain rfl plain

theorem Shut.mono {other : Char → Bool} (shut : Shut bare text)
    (more : ∀ c, bare c = true → other c = true) : Shut other text :=
  Place.after?_mono more shut

theorem Shut.loose (shut : Shut bare text) : Shut anyChar text := shut.mono fun _ _ => rfl

/-- A text without semicolons outside brackets is shut for every lenient kind. -/
theorem Shut.lenient (shut : Shut noSemicolon text) (lenient : Lenient bare) : Shut bare text :=
  shut.mono fun c other => lenient c (by simpa using other)

theorem Shut.append (first : Shut bare front) (second : Shut bare back) :
    Shut bare (front ++ back) := by
  rw [Shut, Place.after?_append, show Place.after? bare {} front = some {} from first]
  exact second

/-- Reading a shut text inside brackets comes back to where it started. -/
theorem Shut.after? (shut : Shut anyChar text) (depth : Nat) :
    Place.after? anyChar { depth } text = some { depth } := by
  cases depth with
  | zero => exact shut
  | succ depth => simpa using Place.after?_raised shut depth

/-- Text in brackets. -/
theorem Shut.enclosed (shut : Shut anyChar inner) (opens : isOpening opening = true)
    (closes : isClosing closing = true) : Shut bare (opening :: (inner ++ [closing])) := by
  have inside : Place.after? bare { depth := 1 } inner = some { depth := 1 } :=
    Place.after?_raised shut 0
  have last : ({ depth := 1 } : Place).next? bare closing = some {} :=
    @Place.next?_closing bare {} closing rfl closes
  rw [Shut, Place.after?, Place.next?_opening rfl opens, Option.bind_some, Place.after?_append]
  simp only [Nat.zero_add, inside, Option.bind_some, Place.after?, last]

/-- A shut text with a shut beginning ends in a shut text. -/
theorem Shut.behind (whole : Shut bare (front ++ back)) (shut : Shut anyChar front) :
    Shut bare front ∧ Shut bare back := by
  rw [Shut, Place.after?_append] at whole
  obtain ⟨between, first, later⟩ := Option.bind_eq_some_iff.1 whole
  obtain rfl : between = {} := by
    have same := (Place.after?_mono (fun _ _ => rfl) first).symm.trans shut
    exact Option.some.inj same
  exact ⟨first, later⟩

end

/-! ## Literals -/

namespace Place

section

variable {bare : Char → Bool} {place after : Place} {c : Char} {text front back : List Char}

theorem quote_next? (reads : place.next? bare c = some after) :
    after.quote = place.quote.next c := by
  unfold next? at reads
  split at reads
  · obtain rfl := Option.some.inj reads
    rfl
  · rename_i covers
    obtain ⟨outside, stays⟩ := Quote.next_of_not_covers (Bool.eq_false_iff.2 covers)
    rw [stays]
    split at reads
    · obtain rfl := Option.some.inj reads
      exact outside
    · split at reads
      · split at reads
        · contradiction
        · obtain rfl := Option.some.inj reads
          exact outside
      · split at reads
        · contradiction
        · obtain rfl := Option.some.inj reads
          exact outside

theorem quote_after? (reads : after? bare place text = some after) :
    after.quote = place.quote.after text := by
  induction text generalizing place with
  | nil =>
      obtain rfl := Option.some.inj reads
      rfl
  | cons c rest induction =>
      obtain ⟨between, first, later⟩ := Option.bind_eq_some_iff.1 reads
      rw [induction later, quote_next? first]
      rfl

/-- Where all characters may stand outside brackets, none is kept from it. -/
theorem after?_strict (free : ∀ c ∈ text, bare c = true)
    (reads : after? anyChar place text = some after) : after? bare place text = some after := by
  induction text generalizing place with
  | nil => exact reads
  | cons c rest induction =>
      obtain ⟨between, first, later⟩ := Option.bind_eq_some_iff.1 reads
      have same : place.next? bare c = place.next? anyChar c := by
        unfold next?
        simp [free c List.mem_cons_self]
      rw [after?, same, first]
      exact induction (fun other among => free other (List.mem_cons_of_mem c among)) later

end
end Place

section

variable {bare : Char → Bool} {text front back name : List Char} {c : Char}

theorem Shut.strict (shut : Shut anyChar text) (free : ∀ c ∈ text, bare c = true) :
    Shut bare text :=
  Place.after?_strict free shut

/-- A shut text with a shut end without quotation marks begins with a shut text. -/
theorem Shut.before (whole : Shut bare (front ++ back)) (shut : Shut anyChar back)
    (unquoted : ∀ c ∈ back, isQuoteMark c = false) : Shut bare front := by
  rw [Shut, Place.after?_append] at whole
  obtain ⟨⟨quote, depth⟩, first, later⟩ := Option.bind_eq_some_iff.1 whole
  have ends : Quote.outside = quote.after back := Place.quote_after? later
  have reached : quote = Quote.outside.after front := Place.quote_after? first
  have marked : quote.IsMarked := by
    rw [reached]
    exact Quote.IsMarked.after (show Quote.outside.IsMarked from trivial) front
  obtain rfl : quote = .outside := (after_eq_outside unquoted marked).1 ends.symm
  have same := (Place.after?_mono (fun _ _ => rfl) later).symm.trans (shut.after? depth)
  obtain rfl : 0 = depth := congrArg Place.depth (Option.some.inj same)
  exact first

/-! ## Blanks -/

theorem beq_eq_false_of_kind {kind : Char → Bool} {symbol : Char} (own : kind c = true)
    (other : kind symbol = false) : (c == symbol) = false := by
  rw [beq_eq_false_iff_ne]
  rintro rfl
  rw [other] at own
  contradiction

/-- Characters of a kind without brackets and quotation marks are plain. -/
theorem isPlain_of_kind {kind : Char → Bool} (own : kind c = true)
    (others : ∀ symbol ∈ ['"', '\'', '(', '[', '\x7b', ')', ']', '\x7d'], kind symbol = false) :
    isPlain c = true := by
  have apart {symbol : Char} (among : symbol ∈ ['"', '\'', '(', '[', '\x7b', ')', ']', '\x7d']) :=
    beq_eq_false_of_kind own (others symbol among)
  simp [isPlain, isQuoteMark, isOpening, isClosing, apart]

theorem isPlain_of_isBlank (blank : isBlank c = true) : isPlain c = true :=
  isPlain_of_kind blank (by decide)

theorem ne_semicolon_of_isBlank (blank : isBlank c = true) : c ≠ ';' := by
  rintro rfl
  contradiction

variable (lenient : Lenient bare)
include lenient

/-- Text without brackets, quotation marks and semicolons. -/
theorem Lenient.shut (plain : ∀ c ∈ text, isPlain c = true ∧ c ≠ ';') : Shut bare text :=
  shut_plain fun c among => ⟨(plain c among).1, lenient c (plain c among).2⟩

theorem Lenient.shut_blank (blank : ∀ c ∈ text, isBlank c = true) : Shut bare text :=
  lenient.shut fun c among =>
    ⟨isPlain_of_isBlank (blank c among), ne_semicolon_of_isBlank (blank c among)⟩

omit lenient in
/-- A text is what remains of it with blanks around. -/
theorem exists_trim (text : List Char) : ∃ front back, text = front ++ trim text ++ back ∧
    (∀ c ∈ front, isBlank c = true) ∧ ∀ c ∈ back, isBlank c = true := by
  refine ⟨text.takeWhile isBlank, ((trimStart text).reverse.takeWhile isBlank).reverse, ?_,
    fun c member => List.mem_takeWhile_imp member,
    fun c member => List.mem_takeWhile_imp (List.mem_reverse.1 member)⟩
  have behind : trim text ++ ((trimStart text).reverse.takeWhile isBlank).reverse =
      trimStart text := by
    rw [trim, trimEnd, ← List.reverse_append, List.takeWhile_append_dropWhile, List.reverse_reverse]
  rw [List.append_assoc, behind]
  exact (List.takeWhile_append_dropWhile (p := isBlank)).symm

omit lenient in
theorem Shut.trim (shut : Shut bare text) : Shut bare (trim text) := by
  obtain ⟨front, back, split, blank, blank'⟩ := exists_trim text
  rw [split, List.append_assoc] at shut
  exact (shut.behind (lenient_anyChar.shut_blank blank)).2.before
    (lenient_anyChar.shut_blank blank')
    fun c among => isQuoteMark_of_isBlank (blank' c among)

omit lenient in
/-- What holds of blanks holds of a text where it holds of the rest of it. -/
theorem forall_of_squeeze {property : Char → Prop}
    (blank : ∀ c, isBlank c = true → property c) (solid : ∀ c ∈ squeeze text, property c) :
    ∀ c ∈ text, property c := by
  intro c among
  cases isBlank : Text.isBlank c with
  | true => exact blank c isBlank
  | false => exact solid c (List.mem_filter.2 ⟨among, by simp [isBlank]⟩)

/-- Blanks do not matter to text without quotation marks. -/
theorem Place.after?_squeeze {place : Place} (outside : place.quote = .outside)
    (unquoted : ∀ c ∈ text, isQuoteMark c = false) :
    Place.after? bare place (squeeze text) = Place.after? bare place text := by
  induction text generalizing place with
  | nil => rfl
  | cons c rest induction =>
      have later := fun other among => unquoted other (List.mem_cons_of_mem c among)
      cases blank : isBlank c with
      | true =>
          have free := lenient c (ne_semicolon_of_isBlank blank)
          rw [squeeze, List.filter_cons_of_neg (by simp [blank]), ← squeeze, Place.after?,
            Place.next?_plain outside (isPlain_of_isBlank blank) free]
          exact induction outside later
      | false =>
          rw [squeeze, List.filter_cons_of_pos (by simp [blank]), ← squeeze,
            Place.after?, Place.after?]
          cases reads : place.next? bare c with
          | none => rfl
          | some between =>
              have next := Place.quote_next? reads
              rw [outside, Quote.next, unquoted c List.mem_cons_self] at next
              exact induction next later

theorem shut_squeeze (unquoted : ∀ c ∈ text, isQuoteMark c = false) :
    Shut bare (squeeze text) ↔ Shut bare text := by
  rw [Shut, Place.after?_squeeze lenient rfl unquoted]
  rfl

/-! ## Types -/

omit lenient in
/-- What is taken off a type to reach its element type is shut. -/
theorem stripPairs_split (reversed : List Char) :
    ∃ taken, reversed = taken ++ (TypeName.stripPairs reversed).1 ∧ Shut anyChar taken.reverse ∧
      ∀ c ∈ taken, isQuoteMark c = false := by
  have blanks (text : List Char) : ∃ front, text = front ++ trimStart text ∧
      ∀ c ∈ front, isBlank c = true :=
    ⟨text.takeWhile isBlank, (List.takeWhile_append_dropWhile (p := isBlank)).symm,
      fun c member => List.mem_takeWhile_imp member⟩
  have none (reversed : List Char) : ∃ taken, reversed = taken ++ reversed ∧
      Shut anyChar taken.reverse ∧ ∀ c ∈ taken, isQuoteMark c = false :=
    ⟨[], rfl, shut_nil, List.forall_mem_nil _⟩
  fun_induction TypeName.stripPairs reversed with
  | case1 => exact none []
  | case2 c rest closes => exact none (c :: rest)
  | case3 c rest closes d inner tail opens element count found induction =>
      obtain ⟨taken, split, shut, unquoted⟩ := induction
      obtain ⟨first, splitRest, blank⟩ := blanks rest
      obtain ⟨second, splitInner, blank'⟩ := blanks inner
      obtain rfl := eq_of_beq closes
      obtain rfl := eq_of_beq opens
      rw [found] at split
      refine ⟨']' :: (first ++ '[' :: (second ++ taken)), ?_, ?_, ?_⟩
      · conv_lhs => rw [splitRest, tail, splitInner, split]
        simp
      · have pair : Shut anyChar ('[' :: (first.reverse ++ [']'])) :=
          (lenient_anyChar.shut_blank fun c among =>
            blank c (List.mem_reverse.1 among)).enclosed rfl rfl
        have whole := (shut.append
          (lenient_anyChar.shut_blank fun c among => blank' c (List.mem_reverse.1 among))).append
            pair
        simpa using whole
      · intro c among
        simp only [List.mem_cons, List.mem_append] at among
        rcases among with rfl | inFirst | rfl | inSecond | inTaken
        · rfl
        · exact isQuoteMark_of_isBlank (blank c inFirst)
        · rfl
        · exact isQuoteMark_of_isBlank (blank' c inSecond)
        · exact unquoted c inTaken
  | case4 c rest closes d inner tail opens => exact none (c :: rest)
  | case5 c rest closes => exact none (c :: rest)

omit lenient in
/-- A type is its element type with shut text behind it. -/
theorem strip_split (name : List Char) :
    ∃ taken, Text.trim name = (TypeName.strip name).1 ++ taken ∧ Shut anyChar taken ∧
      ∀ c ∈ taken, isQuoteMark c = false := by
  have back (taken rest : List Char) (split : (Text.trim name).reverse = taken ++ rest)
      (closed : Shut anyChar taken.reverse) (unquoted : ∀ c ∈ taken, isQuoteMark c = false) :
      ∃ taken, Text.trim name = rest.reverse ++ taken ∧ Shut anyChar taken ∧
        ∀ c ∈ taken, isQuoteMark c = false := by
    refine ⟨taken.reverse, ?_, closed, fun c among => unquoted c (List.mem_reverse.1 among)⟩
    rw [← List.reverse_append, ← split, List.reverse_reverse]
  have dots : Shut anyChar ['.', '.', '.'] := rfl
  unfold TypeName.strip
  dsimp only
  split
  · rename_i rest reversed
    obtain ⟨taken, split, closed, unquoted⟩ := stripPairs_split (trimStart rest)
    have blank : ∀ c ∈ rest.takeWhile isBlank, isBlank c = true :=
      fun c member => List.mem_takeWhile_imp member
    refine back ('.' :: '.' :: '.' :: (rest.takeWhile isBlank ++ taken)) _ ?_ ?_ ?_
    · rw [reversed, ← List.takeWhile_append_dropWhile (p := isBlank) (l := rest), ← trimStart]
      conv_lhs => rw [split]
      simp [trimStart]
    · have whole := (closed.append (lenient_anyChar.shut_blank fun c among =>
        blank c (List.mem_reverse.1 among))).append dots
      simpa using whole
    · intro c among
      simp only [List.mem_cons, List.mem_append] at among
      rcases among with rfl | rfl | rfl | inBlank | inTaken
      · rfl
      · rfl
      · rfl
      · exact isQuoteMark_of_isBlank (blank c inBlank)
      · exact unquoted c inTaken
  · obtain ⟨taken, split, closed, unquoted⟩ := stripPairs_split (Text.trim name).reverse
    exact back taken _ split closed unquoted

omit lenient in
/-- The element type of a shut type is shut. -/
theorem Shut.element (shut : Shut bare name) : Shut bare (TypeName.strip name).1 := by
  obtain ⟨taken, split, closed, unquoted⟩ := strip_split name
  have trimmed := shut.trim
  rw [split] at trimmed
  exact trimmed.before closed unquoted

/-- A dot and a scope mark lead to the same place. -/
theorem Place.next?_colons {place : Place} (marked : place.quote.IsMarked) :
    (place.next? bare ':').bind (next? bare · ':') = place.next? bare '.' := by
  obtain ⟨quote, depth⟩ := place
  have dot := lenient '.' (by decide)
  have colon := lenient ':' (by decide)
  cases quote with
  | outside =>
      rw [next?_plain rfl rfl colon, Option.bind_some, next?_plain rfl rfl colon,
        next?_plain rfl rfl dot]
  | inside delimiter escaped =>
      have other {c : Char} (plain : isQuoteMark c = false) : c ≠ delimiter := by
        rintro rfl
        rw [show isQuoteMark c = true from marked] at plain
        contradiction
      have notColon : ':' ≠ delimiter := other rfl
      have notDot : '.' ≠ delimiter := other rfl
      cases escaped <;> simp [next?, Quote.covers, Quote.next, notColon, notDot]

theorem Place.after?_scopeMarked {place : Place} (marked : place.quote.IsMarked) :
    Place.after? bare place (TypeName.scopeMarked text) = Place.after? bare place text := by
  induction text generalizing place with
  | nil => rfl
  | cons c rest induction =>
      have next {between : Place} (reads : place.next? bare c = some between) :
          between.quote.IsMarked := by
        rw [quote_next? reads]
        exact marked.after [c]
      rw [TypeName.scopeMarked]
      split
      · rename_i dot
        obtain rfl := eq_of_beq dot
        have mark : after? bare place (':' :: ':' :: TypeName.scopeMarked rest) =
            (place.next? bare '.').bind (after? bare · (TypeName.scopeMarked rest)) := by
          rw [← next?_colons lenient marked, Option.bind_assoc]
          rfl
        rw [mark, after?]
        cases reads : place.next? bare '.' with
        | none => rfl
        | some between => exact induction (next reads)
      · rw [after?, after?]
        cases reads : place.next? bare c with
        | none => rfl
        | some between => exact induction (next reads)

theorem Shut.qualified (shut : Shut bare name) : Shut bare (TypeName.qualified name).toList := by
  have trimmed := shut.trim
  unfold TypeName.qualified
  dsimp only
  rw [String.toList_ofList, Shut, Place.after?_append,
    Place.after?_scopeMarked lenient (show Quote.outside.IsMarked from trivial),
    ← Place.after?_append, List.takeWhile_append_dropWhile]
  exact trimmed

theorem shut_targetPrimitive? {primitive : String}
    (found : TypeName.targetPrimitive? name = some primitive) : Shut bare primitive.toList := by
  unfold TypeName.targetPrimitive? at found
  split at found <;> first
    | contradiction
    | (obtain rfl := Option.some.inj found
       exact lenient.shut (by decide))

theorem Shut.spellPlain (shut : Shut bare name) : Shut bare (TypeName.spellPlain name).toList := by
  unfold TypeName.spellPlain
  split
  · exact shut_targetPrimitive? lenient ‹_›
  · exact shut.qualified lenient

theorem Shut.spellDimensions {spelled : String} (shut : Shut bare spelled.toList) (count : Nat) :
    Shut bare (TypeName.spellDimensions spelled count).toList := by
  induction count generalizing spelled with
  | zero => exact shut
  | succ count induction =>
      refine induction ?_
      rw [String.toList_append, String.toList_append]
      exact ((lenient.shut (by decide)).append shut).append (lenient.shut (by decide))

/-- A shut type has a shut target form. -/
theorem Shut.spell (shut : Shut bare name) (extra : List String) :
    Shut bare (TypeName.spell extra name).toList := by
  unfold TypeName.spell
  dsimp only
  refine Shut.spellDimensions lenient ?_ _
  unfold TypeName.spellElement
  split
  · exact shut_targetPrimitive? lenient ‹_›
  · split
    · exact shut.element.qualified lenient
    · rw [String.toList_append, String.toList_append]
      exact ((lenient.shut (by decide)).append (shut.element.qualified lenient)).append
        (lenient.shut (by decide))

omit lenient in
theorem Shut.addDimensions {typeName : String} (shut : Shut bare typeName.toList) (count : Nat) :
    Shut bare (TypeName.addDimensions typeName count).toList := by
  induction count generalizing typeName with
  | zero => exact shut
  | succ count induction =>
      refine induction ?_
      rw [String.toList_append]
      exact shut.append rfl

end

/-! ## Balanced texts and parts -/

theorem after?_of_closesAll {quote : Quote} {depth : Nat} {text : List Char}
    (closes : closesAll quote depth text = true) :
    Place.after? anyChar { quote, depth } text = some {} := by
  induction text generalizing quote depth with
  | nil =>
      rw [closesAll, Bool.and_eq_true, beq_iff_eq] at closes
      obtain ⟨rfl, outside⟩ := closes
      cases quote with
      | outside => rfl
      | inside delimiter escaped => contradiction
  | cons c rest induction =>
      rw [closesAll] at closes
      rw [Place.after?, Place.next?]
      dsimp only
      split
      · rename_i covers
        rw [if_pos covers] at closes
        exact induction closes
      · rename_i covers
        obtain ⟨rfl, stays⟩ := Quote.next_of_not_covers (Bool.eq_false_iff.2 covers)
        rw [if_neg covers, stays] at closes
        split
        · rename_i opens
          rw [if_pos opens] at closes
          exact induction closes
        · rename_i opens
          rw [if_neg opens] at closes
          split
          · rename_i isClosing
            rw [if_pos isClosing, Bool.and_eq_true] at closes
            cases depth with
            | zero => exact absurd closes.1 Bool.false_ne_true
            | succ depth => exact induction closes.2
          · rename_i isClosing
            rw [if_neg isClosing] at closes
            simpa using induction closes

/-- A balanced text without semicolons is shut. -/
theorem shut_of_isBalanced {bare : Char → Bool} {text : List Char}
    (balanced : isBalanced text = true)
    (lenient : Lenient bare) (unsplit : ';' ∉ text) : Shut bare text := by
  have shut : Shut anyChar text := after?_of_closesAll balanced
  refine shut.strict fun c among => lenient c ?_
  rintro rfl
  exact unsplit among

section

variable {quote : Quote} {depth : Nat} {text front back part more : List Char}

/-- Splitting passes text that is read without semicolons outside brackets. -/
theorem splitFrom_append {after : Place}
    (reads : Place.after? noSemicolon { quote, depth } text = some after) :
    splitFrom ';' quote depth (text ++ more) =
      text.foldr consFirst (splitFrom ';' after.quote after.depth more) := by
  induction text generalizing quote depth with
  | nil =>
      obtain rfl := Option.some.inj reads
      rfl
  | cons c rest induction =>
      obtain ⟨⟨between, level⟩, first, later⟩ := Option.bind_eq_some_iff.1 reads
      rw [List.cons_append, List.foldr_cons, ← induction later, splitFrom]
      unfold Place.next? at first
      dsimp only at first
      split at first
      · rename_i covers
        obtain ⟨rfl, rfl⟩ := Place.mk.inj (Option.some.inj first)
        rw [if_pos covers]
      · rename_i covers
        obtain ⟨outside, stays⟩ := Quote.next_of_not_covers (Bool.eq_false_iff.2 covers)
        rw [if_neg covers, stays]
        split at first
        · rename_i opens
          obtain ⟨rfl, rfl⟩ := Place.mk.inj (Option.some.inj first)
          rw [if_pos opens, outside]
        · rename_i opens
          rw [if_neg opens]
          split at first
          · rename_i closes
            rw [if_pos closes]
            cases depth with
            | zero => contradiction
            | succ depth =>
                obtain ⟨rfl, rfl⟩ := Place.mk.inj (Option.some.inj first)
                rw [outside]
                rfl
          · rename_i closes
            rw [if_neg closes]
            split at first
            · contradiction
            · rename_i passes
              obtain ⟨rfl, rfl⟩ := Place.mk.inj (Option.some.inj first)
              rw [outside, if_neg]
              simpa [Bool.and_comm] using passes

/-- Shut text is one part. -/
theorem Shut.splitTop_eq (shut : Shut noSemicolon text) : splitTop ';' text = [text] := by
  have passed : splitFrom ';' .outside 0 (text ++ []) = _ := splitFrom_append shut
  rw [List.append_nil] at passed
  rw [splitTop, passed, splitFrom, foldr_consFirst, List.append_nil]

/-- Shut text in front of a semicolon is the first part. -/
theorem Shut.splitTop_append (shut : Shut noSemicolon text) (more : List Char) :
    splitTop ';' (text ++ ';' :: more) = text :: splitTop ';' more := by
  rw [splitTop, splitFrom_append shut, splitFrom]
  simp only [show Quote.outside.covers ';' = false from rfl, show isOpening ';' = false from rfl,
    show isClosing ';' = false from rfl, Bool.false_eq_true, if_false, beq_self_eq_true,
    Bool.and_self, if_true, foldr_consFirst, List.append_nil]
  rfl

/-- The part ends outside literals and, read from the place, has no semicolon outside brackets. -/
def IsPartAt (quote : Quote) (depth : Nat) (part : List Char) : Prop :=
  quote.after part = .outside ∧ ∀ after,
    Place.after? anyChar { quote, depth } part = some after →
      Place.after? noSemicolon { quote, depth } part = some after

theorem splitFrom_parts (ends : quote.after text = .outside) :
    ∃ first rest, splitFrom ';' quote depth text = first :: rest ∧ IsPartAt quote depth first ∧
      ∀ part ∈ rest, IsPartAt .outside 0 part := by
  induction text generalizing quote depth with
  | nil => exact ⟨[], [], rfl, ⟨ends, fun _ reads => reads⟩, List.forall_mem_nil _⟩
  | cons c text induction =>
      have pass (level : Nat)
          (step : ∀ after, ({ quote, depth } : Place).next? anyChar c = some after →
            ({ quote, depth } : Place).next? noSemicolon c = some after ∧
              after = { quote := quote.next c, depth := level }) :
          ∃ first rest, consFirst c (splitFrom ';' (quote.next c) level text) = first :: rest ∧
            IsPartAt quote depth first ∧ ∀ part ∈ rest, IsPartAt .outside 0 part := by
        obtain ⟨first, rest, split, part, others⟩ := @induction (quote.next c) level ends
        refine ⟨c :: first, rest, by rw [split, consFirst], ⟨part.1, fun after reads => ?_⟩, others⟩
        obtain ⟨between, here, later⟩ := Option.bind_eq_some_iff.1 reads
        obtain ⟨strict, rfl⟩ := step between here
        rw [Place.after?, strict]
        exact part.2 after later
      rw [splitFrom]
      split
      · rename_i covers
        refine pass depth fun after reads => ?_
        simp only [Place.next?, covers, if_true, Option.some.injEq] at reads ⊢
        exact ⟨reads, reads.symm⟩
      · rename_i covers
        obtain ⟨rfl, stays⟩ := Quote.next_of_not_covers (Bool.eq_false_iff.2 covers)
        split
        · rename_i opens
          refine pass (depth + 1) fun after reads => ?_
          simp only [Place.next?, covers, opens, if_true, if_false, Bool.false_eq_true,
            Option.some.injEq] at reads ⊢
          exact ⟨reads, by rw [← reads, stays]⟩
        · rename_i opens
          split
          · rename_i closes
            refine pass (depth - 1) fun after reads => ?_
            simp only [Place.next?, covers, opens, closes, if_true, if_false, Bool.false_eq_true]
              at reads ⊢
            refine ⟨reads, ?_⟩
            split at reads
            · contradiction
            · rw [← Option.some.inj reads, stays]
              rfl
          · rename_i closes
            split
            · rename_i splits
              rw [Bool.and_eq_true, beq_iff_eq, beq_iff_eq] at splits
              obtain ⟨rfl, rfl⟩ := splits
              obtain ⟨first, rest, split, part, others⟩ := @induction _ 0 ends
              refine ⟨[], _, rfl, ⟨rfl, fun _ reads => reads⟩, ?_⟩
              rw [split]
              intro other among
              rcases List.mem_cons.1 among with rfl | later
              · exact part
              · exact others other later
            · rename_i splits
              refine pass depth fun after reads => ?_
              simp only [Place.next?, covers, opens, closes, if_false, Bool.false_eq_true]
                at reads ⊢
              have passes : (depth == 0 && !noSemicolon c) = false := by
                simpa [Bool.and_comm] using splits
              rw [passes]
              simp only [Bool.not_true, Bool.and_false, if_false, Bool.false_eq_true,
                Option.some.injEq] at reads ⊢
              exact ⟨reads, by rw [← reads, stays]⟩

/-- The parts between semicolons are without them. -/
theorem isPart_of_mem_splitTop (ends : Quote.outside.after text = .outside)
    (among : part ∈ splitTop ';' text) :
    Quote.outside.after part = .outside ∧ (Shut anyChar part → Shut noSemicolon part) := by
  obtain ⟨first, rest, split, isPart, others⟩ := @splitFrom_parts .outside 0 text ends
  rw [splitTop, split] at among
  have whole : IsPartAt .outside 0 part := by
    rcases List.mem_cons.1 among with rfl | later
    · exact isPart
    · exact others part later
  exact ⟨whole.1, whole.2 {}⟩

/-! ## Brackets that close -/

theorem closeFrom_place {opening closing : Char} {quote : Quote} {depth position : Nat}
    {text : List Char} {close : Nat}
    (found : closeFrom opening closing quote depth position text = some close) :
    quote.after (text.take (close - position)) = .outside ∧
      text[close - position]? = some closing := by
  induction text generalizing quote depth position with
  | nil => simp [closeFrom] at found
  | cons c rest induction =>
      have later {next : Quote} {level : Nat} (same : next = quote.next c)
          (inner : closeFrom opening closing next level (position + 1) rest = some close) :
          quote.after ((c :: rest).take (close - position)) = .outside ∧
            (c :: rest)[close - position]? = some closing := by
        have above := (closeFrom_bounds opening closing _ _ _ _ inner).1
        obtain ⟨count, rfl⟩ := Nat.exists_eq_add_of_le above
        have counts : position + 1 + count - position = count + 1 := by omega
        have behind := induction inner
        rw [Nat.add_sub_cancel_left, same] at behind
        rw [counts]
        exact behind
      unfold closeFrom at found
      split_ifs at found with covers opens closes
      · exact later rfl found
      · exact later rfl found
      · obtain rfl := Option.some.inj found
        rw [Nat.sub_self, List.getElem?_cons_zero, eq_of_beq closes]
        exact ⟨(Quote.next_of_not_covers (Bool.eq_false_iff.2 covers)).1, rfl⟩
      · exact later rfl found
      · exact later rfl found

/-- What stands between round brackets ends outside literals. -/
theorem outside_of_matchingClose? {rest : List Char} {close : Nat}
    (found : matchingClose? ('(' :: rest) = some close) :
    Quote.outside.after (rest.take (close - 1)) = .outside := by
  have search : closeFrom '(' ')' .outside 0 0 ('(' :: rest) = some close := found
  have inner : closeFrom '(' ')' .outside 1 1 rest = some close := search
  exact (closeFrom_place inner).1

end
end Text
end MethodLowering
