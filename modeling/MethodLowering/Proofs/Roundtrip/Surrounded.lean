import MethodLowering.Proofs.Roundtrip.Passing

/-!
# Scanning a text inside another one

Between blanks, a text that starts with a word or a round bracket is scanned in another text as it
is by itself: what the scanner looks at behind its position and in front of it is the same, up to a
blank at each end.
-/

namespace MethodLowering

open Text

/-! ## Searches further on -/

namespace Text

theorem seek?_shift {wanted wanted' : Nat → Bool} {shift start count : Nat}
    (same : ∀ p, start ≤ p → p < start + count → wanted' (shift + p) = wanted p) :
    seek? wanted' (shift + start) count = (seek? wanted start count).map (shift + ·) := by
  induction count generalizing start with
  | zero => rfl
  | succ count induction =>
      rw [seek?, seek?, same start (Nat.le_refl _) (by omega), Nat.add_assoc,
        induction fun p low high => same p (by omega) (by omega)]
      split
      · rfl
      · rfl

theorem seek?_add (wanted : Nat → Bool) (start count more : Nat) :
    seek? wanted start (count + more) =
      (seek? wanted start count).or (seek? wanted (start + count) more) := by
  induction count generalizing start with
  | zero => rw [Nat.zero_add]; rfl
  | succ count induction =>
      rw [Nat.add_right_comm, seek?, seek?, induction, Nat.add_assoc, Nat.add_comm 1]
      split
      · rfl
      · rfl

/-- A walk down ends at the same place where the positions it passes are the same and it does not
reach beyond them. -/
theorem seekDown_shift {stops stops' : Nat → Bool} {shift stop : Nat}
    (same : ∀ p < stop, stops' (shift + p) = stops p)
    (edge : stops' (shift - 1) = true ∨ ∃ p < stop, stops p = true) :
    seekDown stops' (shift + stop) (shift + stop) = shift + seekDown stops stop stop := by
  induction stop with
  | zero =>
      have ends : stops' (shift - 1) = true := by simpa using edge
      cases shift with
      | zero => rfl
      | succ shift =>
          change (if stops' (shift + 1 - 1) then shift + 1 else _) = _
          rw [if_pos ends]
          rfl
  | succ stop induction =>
      rw [← Nat.add_assoc, seekDown, seekDown, Nat.add_sub_cancel, Nat.add_sub_cancel,
        same stop (Nat.lt_succ_self _)]
      split
      · rfl
      · next here =>
          refine induction (fun p low => same p (Nat.lt_succ_of_lt low)) (edge.imp_right ?_)
          rintro ⟨p, low, found⟩
          refine ⟨p, Nat.lt_of_le_of_ne (Nat.le_of_lt_succ low) ?_, found⟩
          rintro rfl
          exact here found

theorem head?_dropWhile {α : Type} {test : α → Bool} {items : List α} {count : Nat} {item : α}
    (here : items[count]? = some item) (ends : test item = false)
    (before : ∀ i < count, items[i]?.any test = true) :
    (items.dropWhile test).head? = some item := by
  induction count generalizing items with
  | zero =>
      cases items with
      | nil => contradiction
      | cons first rest =>
          obtain rfl := Option.some.inj here
          rw [List.dropWhile_cons_of_neg (by simp [ends])]
          rfl
  | succ count induction =>
      cases items with
      | nil => contradiction
      | cons first rest =>
          have passes := before 0 (Nat.succ_pos _)
          rw [List.dropWhile_cons_of_pos (by simpa using passes)]
          exact induction here fun i low => before (i + 1) (Nat.succ_lt_succ low)

/-- A word without blanks does not reach over the start of a blank. -/
theorem isPrefixOf_append {word text back : List Char} (solid : ∀ c ∈ word, isBlank c = false)
    (blank : back.head?.all isBlank = true) :
    word.isPrefixOf (text ++ back) = word.isPrefixOf text := by
  induction word generalizing text with
  | nil => simp
  | cons c word induction =>
      cases text with
      | nil =>
          cases back with
          | nil => rfl
          | cons other back =>
              have differs : c ≠ other := by
                rintro rfl
                have no := solid c List.mem_cons_self
                rw [show isBlank c = true by simpa using blank] at no
                contradiction
              rw [List.nil_append, List.isPrefixOf_cons_cons, beq_eq_false_iff_ne.2 differs,
                Bool.false_and]
              rfl
      | cons other text =>
          rw [List.cons_append, List.isPrefixOf_cons_cons, List.isPrefixOf_cons_cons,
            induction fun c among => solid c (List.mem_cons_of_mem _ among)]

end Text

/-- The text stands between blanks, and nothing around it joins its first or last word. -/
structure StandsApart (front text back : List Char) : Prop where
  first : text.head?.any (fun c => isWordChar c || c == '(') = true
  before : front.getLast?.any isBlank = true
  behind : back.head?.all isBlank = true
  follows : ∀ c ∈ (back.dropWhile isBlank).head?, c ≠ ']' ∧ c ≠ '{'
  starts : ∀ rest, text = Op.instanceOf.spelling ++ rest → rest.head?.any (!isBlank ·) = true
  stops : ∀ lead c, text = lead ++ c :: Op.instanceOf.spelling → isBlank c = false

namespace Ledger

/-- The inner ledger is that of a text, and the outer one that of a text in which it stands. -/
structure Contains (front text back : List Char) (inner outer : Ledger) : Prop where
  chars : inner.chars = text
  whole : outer.chars = front ++ text ++ back
  tags : ∀ p < text.length, outer.tag? (front.length + p) = inner.tag? p

section

variable {front text back : List Char} {inner outer : Ledger} {p : Nat} {c : Char}

section

variable (contains : Contains front text back inner outer)
include contains

theorem Contains.char?_eq (low : p < text.length) :
    outer.char? (front.length + p) = inner.char? p := by
  rw [char?_eq_chars, char?_eq_chars, contains.whole, contains.chars, List.append_assoc,
    List.getElem?_append_right (Nat.le_add_right _ _), Nat.add_sub_cancel_left,
    List.getElem?_append_left low]

theorem Contains.char?_behind (p : Nat) :
    outer.char? (front.length + text.length + p) = back[p]? := by
  rw [char?_eq_chars, contains.whole, ← List.length_append,
    List.getElem?_append_right (Nat.le_add_right _ _), Nat.add_sub_cancel_left]

theorem Contains.char?_before (present : front ≠ []) :
    outer.char? (front.length - 1) = front.getLast? := by
  have positive := List.length_pos_iff.2 present
  rw [char?_eq_chars, contains.whole, List.append_assoc, List.getElem?_append_left (by omega),
    List.getLast?_eq_getElem?]

theorem Contains.size :
    inner.size = text.length ∧ outer.size = front.length + text.length + back.length := by
  rw [← length_chars, ← length_chars, contains.chars, contains.whole, List.length_append,
    List.length_append]
  exact ⟨rfl, rfl⟩

/-- The character behind a position of the text is the one behind it in the whole text, or the text
ends there and a blank or nothing follows. -/
theorem Contains.char?_succ (apart : StandsApart front text back) (within : p ≤ text.length) :
    outer.char? (front.length + p) = inner.char? p ∨
      inner.char? p = none ∧ (outer.char? (front.length + p)).all Text.isBlank = true := by
  rcases Nat.lt_or_eq_of_le within with low | rfl
  · exact .inl (contains.char?_eq low)
  · right
    constructor
    · rw [char?_eq_chars, contains.chars, List.getElem?_eq_none (Nat.le_refl _)]
    · have here := contains.char?_behind 0
      rw [Nat.add_zero] at here
      rw [here, ← List.head?_eq_getElem?]
      exact apart.behind

end

end

end Ledger

namespace Scanner

open Ledger

section

variable {front text back : List Char} {inner outer : Ledger} {p : Nat} {c : Char}
  (apart : StandsApart front text back) (contains : Contains front text back inner outer)
include apart contains

/-- No test for a character that is no blank looks beyond the text. -/
theorem any_char?_eq {test : Char → Bool} (solid : ∀ c, Text.isBlank c = true → test c = false)
    (within : p ≤ text.length) :
    (outer.char? (front.length + p)).any test = (inner.char? p).any test := by
  rcases contains.char?_succ apart within with same | ⟨ended, blank⟩
  · rw [same]
  · rw [ended]
    cases here : outer.char? (front.length + p) with
    | none => rfl
    | some c =>
        rw [here, Option.all_some] at blank
        exact solid c blank

theorem charIs_inside (solid : Text.isBlank c = false) (within : p ≤ text.length) :
    charIs outer (front.length + p) c = charIs inner p c := by
  rw [charIs, charIs]
  rcases contains.char?_succ apart within with same | ⟨ended, blank⟩
  · rw [same]
  · rw [ended]
    cases here : outer.char? (front.length + p) with
    | none => rfl
    | some other =>
        rw [here, Option.all_some] at blank
        have differs : other ≠ c := by
          rintro rfl
          rw [blank] at solid
          contradiction
        simpa using differs

omit apart in
theorem blankAt_inside (low : p < text.length) :
    blankAt outer (front.length + p) = blankAt inner p := by
  rw [blankAt, blankAt, contains.char?_eq low]

/-! ## Looking ahead -/

/-- The next character that is no blank is in the text, or it is behind it and closes no
brackets. -/
theorem nextSolid?_inside (within : p ≤ text.length) :
    nextSolid? outer (front.length + p) = (nextSolid? inner p).map (front.length + ·) ∨
      nextSolid? inner p = none ∧ ∃ found, nextSolid? outer (front.length + p) = some found ∧
        ∀ c, c = ']' ∨ c = '{' → charIs outer found c = false := by
  obtain ⟨size, whole⟩ := contains.size
  have split : outer.size - (front.length + p) = inner.size - p + back.length := by omega
  have same : seek? (fun position => !blankAt outer position) (front.length + p) (inner.size - p) =
      (nextSolid? inner p).map (front.length + ·) :=
    seek?_shift fun q low high => by rw [blankAt_inside contains (by omega)]
  rw [nextSolid?, split, seek?_add, same]
  cases nextSolid? inner p with
  | some close => exact .inl rfl
  | none =>
      rw [Option.map_none, Option.none_or, show front.length + p + (inner.size - p) =
        front.length + text.length + 0 by omega]
      cases seeks : seek? (fun position => !blankAt outer position) (front.length + text.length + 0)
        back.length with
      | none => exact .inl rfl
      | some found =>
          refine .inr ⟨rfl, found, rfl, fun c closes => ?_⟩
          obtain ⟨low, solid, blanks⟩ := seek?_spec seeks
          obtain ⟨q, rfl⟩ := Nat.exists_eq_add_of_le low
          rw [Nat.add_zero] at solid blanks ⊢
          rw [blankAt, contains.char?_behind, Bool.not_eq_true'] at solid
          rw [charIs, contains.char?_behind]
          cases here : back[q]? with
          | none => rfl
          | some other =>
              rw [here, Option.any_some] at solid
              have next : (back.dropWhile Text.isBlank).head? = some other := by
                refine head?_dropWhile here solid fun i low => ?_
                have blank := blanks (front.length + text.length + i) (by omega) (by omega)
                rwa [blankAt, contains.char?_behind, Bool.not_eq_false'] at blank
              obtain ⟨square, curly⟩ := apart.follows other next
              rcases closes with rfl | rfl
              · simpa using square
              · simpa using curly

theorem emptyPair?_inside (low : p < text.length) :
    emptyPair? outer (front.length + p) = (emptyPair? inner p).map (front.length + ·) := by
  have opens : charIs outer (front.length + p) '[' = charIs inner p '[' :=
    charIs_inside apart contains (by decide) (Nat.le_of_lt low)
  rw [emptyPair?, emptyPair?, opens]
  split
  · rcases nextSolid?_inside apart contains (p := p + 1) low
      with same | ⟨ended, found, later, other⟩
    · rw [Nat.add_assoc, same]
      cases seeks : nextSolid? inner (p + 1) with
      | none => rfl
      | some close =>
          have inside : close < text.length := by
            have bound := seek?_lt seeks
            have size := contains.size.1
            omega
          have closes : charIs outer (front.length + close) ']' = charIs inner close ']' :=
            charIs_inside apart contains (by decide) (Nat.le_of_lt inside)
          have braces : ((nextSolid? outer (front.length + close + 1)).any fun behind =>
              charIs outer behind '{') = (nextSolid? inner (close + 1)).any fun behind =>
              charIs inner behind '{' := by
            rcases nextSolid?_inside apart contains (p := close + 1) inside with
              same | ⟨ended, found, later, other⟩
            · rw [Nat.add_assoc, same]
              cases next : nextSolid? inner (close + 1) with
              | none => rfl
              | some behind =>
                  have bound := seek?_lt next
                  have size := contains.size.1
                  exact charIs_inside apart contains (by decide) (by omega)
            · rw [Nat.add_assoc, later, ended]
              exact other _ (.inr rfl)
          rw [Option.map_some]
          dsimp only
          rw [closes, braces]
          split
          · rfl
          · rfl
    · rw [Nat.add_assoc, later, ended]
      dsimp only
      rw [other _ (.inl rfl), Bool.false_and, if_neg Bool.false_ne_true]
      rfl
  · rfl

theorem isSpaced_inside (low : p < text.length)
    (spelled : Op.instanceOf.spelling.isPrefixOf (text.drop p) = true) :
    isSpaced outer (front.length + p) Op.instanceOf.width =
      isSpaced inner p Op.instanceOf.width := by
  have present : front ≠ [] := by
    rintro rfl
    exact absurd apart.before Bool.false_ne_true
  have positive := List.length_pos_iff.2 present
  obtain ⟨rest, split⟩ := List.isPrefixOf_iff_prefix.1 spelled
  have length := congrArg List.length split
  rw [List.length_append, List.length_drop, show Op.instanceOf.spelling.length =
    10 from rfl] at length
  have nonzero : (front.length + p != 0) = true := bne_iff_ne.2 (by omega)
  rw [isSpaced, isSpaced, nonzero, Bool.true_and, show Op.instanceOf.width = 10 from rfl]
  cases p with
  | zero =>
      -- the first word goes on
      obtain ⟨c, next, solid⟩ := (Option.any_eq_true _ _).1 (apart.starts rest split.symm)
      have here : blankAt outer (front.length + 0 + 10) = false := by
        obtain ⟨others, rfl⟩ := List.head?_eq_some_iff.1 next
        rw [List.drop_zero] at split
        rw [List.length_cons] at length
        rw [Nat.add_zero, blankAt_inside contains (by omega), blankAt, char?_eq_chars,
          contains.chars,
          ← split]
        simpa [Op.spelling, Op.text, Op.row] using solid
      rw [here, Bool.and_false]
      rfl
  | succ p =>
      have before : blankAt outer (front.length + (p + 1) - 1) = blankAt inner p := by
        rw [← Nat.add_assoc, Nat.add_sub_cancel, blankAt_inside contains (by omega)]
      rw [before, show (p + 1 != 0) = true from rfl, Bool.true_and, Nat.add_sub_cancel]
      cases gap : blankAt inner p with
      | false => rfl
      | true =>
          by_cases inside : p + 1 + 10 < text.length
          · rw [Nat.add_assoc, blankAt_inside contains inside]
          · -- the last word stands alone
            obtain rfl : rest = [] := List.eq_nil_of_length_eq_zero (by omega)
            have whole : text = text.take p ++ text[p] :: Op.instanceOf.spelling := by
              rw [← List.append_nil Op.instanceOf.spelling, split, List.getElem_cons_drop,
                List.take_append_drop]
            have solid := apart.stops _ _ whole
            rw [blankAt, char?_eq_chars, contains.chars, List.getElem?_eq_getElem (by omega),
              Option.any_some, solid] at gap
            contradiction

theorem spelledOp?_inside (low : p < text.length) :
    spelledOp? outer (front.length + p) = spelledOp? inner p := by
  unfold spelledOp?
  refine congrArg (fun test => Op.all.find? test) (funext fun op => ?_)
  have ahead : outer.chars.drop (front.length + p) = text.drop p ++ back := by
    rw [contains.whole, ← List.drop_drop, List.append_assoc, List.drop_left,
      List.drop_append_of_le_length (Nat.le_of_lt low)]
  have same : spells outer (front.length + p) op.spelling = spells inner p op.spelling := by
    rw [spells_eq, spells_eq, ahead, contains.chars]
    exact isPrefixOf_append (fun c among => Op.isBlank_of_mem among) apart.behind
  rw [same]
  cases spelled : spells inner p op.spelling with
  | false => rfl
  | true =>
      by_cases other : op = .instanceOf
      · subst other
        rw [spells_eq, contains.chars] at spelled
        rw [isSpaced_inside apart contains low spelled]
      · rw [bne_iff_ne.2 other]
        rfl

/-! ## Looking back -/

omit contains in
theorem front_ne_nil : front ≠ [] := by
  rintro rfl
  exact absurd apart.before Bool.false_ne_true

/-- The text starts with a character that is no blank. -/
theorem blankAt_first : text ≠ [] ∧ blankAt inner 0 = false := by
  obtain ⟨c, next, isFirst⟩ := (Option.any_eq_true _ _).1 apart.first
  obtain ⟨rest, rfl⟩ := List.head?_eq_some_iff.1 next
  refine ⟨List.cons_ne_nil _ _, ?_⟩
  rw [blankAt, char?_eq_chars, contains.chars, List.getElem?_cons_zero, Option.any_some]
  rw [Bool.or_eq_true, beq_iff_eq] at isFirst
  rcases isFirst with isWord | rfl
  · exact isBlank_of_isWordChar isWord
  · decide

/-- A word in front of a position does not reach beyond the text. -/
theorem seekDown_word {test : Char → Bool} (solid : ∀ c, Text.isBlank c = true → test c = false)
    (within : p ≤ text.length) :
    seekDown (fun below => !(outer.char? below).any test) (front.length + p) (front.length + p) =
      front.length + seekDown (fun below => !(inner.char? below).any test) p p := by
  refine seekDown_shift (fun q low => ?_) (.inl ?_)
  · rw [contains.char?_eq (by omega)]
  · obtain ⟨c, last, blank⟩ := (Option.any_eq_true _ _).1 apart.before
    rw [contains.char?_before (front_ne_nil apart), last, Option.any_some, solid c blank]
    rfl

theorem followsExponent_inside (within : p ≤ text.length) :
    followsExponent outer (front.length + p) = followsExponent inner p := by
  have start := seekDown_word apart contains (fun c blank => blank_separates blank) within
  rw [followsExponent, followsExponent, start]
  generalize begins : seekDown (fun below => !(inner.char? below).any fun c =>
    isLetter c || isDigit c) p p = begin
  cases p with
  | zero =>
      have zero : begin = 0 := Nat.le_zero.1 (begins ▸ seekDown_le _ _ _)
      subst zero
      simp
  | succ p =>
      by_cases before : begin < p + 1
      · have mark (c : Char) (solid : Text.isBlank c = false) :
            charIs outer (front.length + (p + 1) - 1) c = charIs inner p c := by
          rw [← Nat.add_assoc, Nat.add_sub_cancel, charIs_inside apart contains solid (by omega)]
        rw [contains.char?_eq (by omega), mark 'e' (by decide), mark 'E' (by decide),
          Nat.add_sub_cancel,
          decide_eq_true before, decide_eq_true (show front.length + begin <
          front.length + (p + 1) by omega)]
      · rw [decide_eq_false before,
          decide_eq_false (show ¬ front.length + begin < front.length + (p + 1) by omega)]
        rfl

theorem followsTypeName_inside (positive : 0 < p) (within : p ≤ text.length) :
    followsTypeName outer (front.length + p) = followsTypeName inner p := by
  have stop : seekDown (fun below => !blankAt outer below) (front.length + p) (front.length + p) =
      front.length + seekDown (fun below => !blankAt inner below) p p := by
    refine seekDown_shift (fun q low => ?_) (.inr ⟨0, positive, ?_⟩)
    · rw [blankAt_inside contains (by omega)]
    · rw [(blankAt_first apart contains).2]
      rfl
  rw [followsTypeName, followsTypeName, stop]
  have high := seekDown_le (fun below => !blankAt inner below) p p
  generalize seekDown (fun below => !blankAt inner below) p p = ends at high
  have start := seekDown_word apart contains (p := ends)
    (fun c blank => not_isWordChar_of_isBlank blank) (Nat.le_trans high within)
  rw [start]
  generalize seekDown (fun below => !(inner.char? below).any isWordChar) ends ends = begin
  by_cases before : begin < ends
  · rw [contains.char?_eq (by omega), decide_eq_true before,
      decide_eq_true (show front.length + begin < front.length + ends by omega)]
  · rw [decide_eq_false before, decide_eq_false (show ¬ front.length + begin <
      front.length + ends by omega)]
    rfl

theorem isSignPlace_inside (first : inner.isSpace 0 = false) (positive : 0 < p)
    (within : p ≤ text.length) :
    isSignPlace outer (front.length + p) = isSignPlace inner p := by
  have behind : seekDown (fun below => !outer.isSpace below) (front.length + p) (front.length + p) =
      front.length + seekDown (fun below => !inner.isSpace below) p p := by
    refine seekDown_shift (fun q low => ?_) (.inr ⟨0, positive, ?_⟩)
    · rw [isSpace, isSpace, contains.tags q (by omega)]
    · rw [first]
      rfl
  rw [isSignPlace, isSignPlace, behind]
  have high := seekDown_le (fun below => !inner.isSpace below) p p
  cases place : seekDown (fun below => !inner.isSpace below) p p with
  | zero =>
      have passed := @seekDown_passes (fun below => !inner.isSpace below) p p 0 (by omega) positive
      rw [first] at passed
      contradiction
  | succ before =>
      rw [place] at high
      have zero : (front.length + (before + 1) == 0) = false := beq_eq_false_iff_ne.2 (by omega)
      have same : (front.length + (before + 1) == front.length + p) = (before + 1 == p) := by
        rw [Bool.eq_iff_iff, beq_iff_eq, beq_iff_eq]
        omega
      rw [zero, show (before + 1 == 0) = false from rfl, same, followsExponent_inside apart
        contains within,
        ← Nat.add_assoc, Nat.add_sub_cancel, Nat.add_sub_cancel, contains.tags before (by omega)]

omit contains in
/-- The text starts with no sign and no angle bracket. -/
theorem pos_of_spelled {op : Op} (spelled : Span.slice ⟨p, p + op.width⟩ text = op.spelling)
    (mark : op = .plus ∨ op = .minus ∨ op = .less) : 0 < p := by
  by_contra start
  obtain rfl : p = 0 := by omega
  obtain ⟨c, next, isFirst⟩ := (Option.any_eq_true _ _).1 apart.first
  have first := getElem?_of_slice spelled (Nat.le_refl 0) (by have := width_pos op; omega)
  rw [← List.head?_eq_getElem?, next] at first
  revert isFirst
  rcases mark with rfl | rfl | rfl
  · obtain rfl := Option.some.inj first
    decide
  · obtain rfl := Option.some.inj first
    decide
  · obtain rfl := Option.some.inj first
    decide

theorem startsNumber_inside {op : Op} (first : inner.isSpace 0 = false) (low : p < text.length)
    (spelled : Span.slice ⟨p, p + op.width⟩ text = op.spelling) :
    startsNumber outer (front.length + p) op = startsNumber inner p op := by
  have digit : (outer.char? (front.length + p + 1)).any isDigit =
      (inner.char? (p + 1)).any isDigit :=
    any_char?_eq apart contains (fun c blank => by
      have plain := blank_separates blank
      rw [Bool.or_eq_false_iff] at plain
      exact plain.2) low
  have place (mark : op = .plus ∨ op = .minus ∨ op = .less) :
      isSignPlace outer (front.length + p) = isSignPlace inner p :=
    isSignPlace_inside apart contains first (pos_of_spelled apart spelled mark) (Nat.le_of_lt low)
  unfold startsNumber
  rw [digit]
  cases op with
  | plus => rw [place (.inl rfl)]
  | minus => rw [place (.inr (.inl rfl))]
  | _ => rfl

omit apart in
theorem onlyTypeText_inside {opening : Nat} (within : p ≤ text.length) :
    onlyTypeText outer (front.length + opening)
    (front.length + p) = onlyTypeText inner opening p := by
  have same :
      seek? (fun position => !(outer.tag? position).any isTypeTag) (front.length + (opening + 1))
      (p - (opening + 1)) =
        (seek? (fun position => !(inner.tag? position).any isTypeTag) (opening + 1)
      (p - (opening + 1))).map (front.length + ·) :=
    seek?_shift fun q low high => by rw [contains.tags q (by omega)]
  rw [onlyTypeText, onlyTypeText, Nat.add_assoc,
    show front.length + p - (front.length + (opening + 1)) = p - (opening + 1) by omega, same,
    Option.isNone_map]

end

end Scanner
end MethodLowering
