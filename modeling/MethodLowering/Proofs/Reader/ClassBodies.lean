import MethodLowering.Proofs.Reader.Transitions
import MethodLowering.Proofs.Reduction.Constructions
import MethodLowering.Proofs.Text.Cutting

/-!
# Class bodies of a statement

A statement that ends at a semicolon is read without the class bodies in it.  Each class body is
noted at the constructor call whose text ends directly in front of it, and there is only one such
call.
-/

namespace MethodLowering

open MethodLowering.Expr Body

/-- A statement up to its semicolon, with the class bodies cut out of it. -/
structure Cutting where
  /-- Position of the statement in the source. -/
  start : Nat
  /-- The text in front of the semicolon, class bodies included. -/
  text : List Char
  /-- The class bodies in the text, in order. -/
  classBodies : List Span
  /-- The tree of the text without the class bodies. -/
  root : Placed

/-- A class body of a statement. -/
structure ClassBody where
  cutting : Cutting
  /-- The class bodies of the statement in front of this one. -/
  earlier : List Span
  span : Span

namespace ClassBody

/-- The text of the class body, brackets included. -/
def text (classBody : ClassBody) : String :=
  String.ofList (classBody.span.slice classBody.cutting.text)

/-- The text of the statement in front of the class body, without the earlier class bodies. -/
def front? (classBody : ClassBody) : Option (List Char) :=
  Text.removeSpans? (classBody.cutting.text.take classBody.span.start) classBody.earlier

/-- The class body stands directly behind the text of the expression, blanks aside. -/
def Follows (classBody : ClassBody) (expr : Expr) : Prop :=
  ∃ front node, classBody.front? = some front ∧ expr.node? = some node ∧
    node.span.stop = (Text.trimEnd front).length ∧ node.text.toList <:+ Text.trimEnd front

/-- The site is that of the class body: its call is the one constructor call of the statement that
the class body stands behind. -/
structure Owns (classBody : ClassBody) (site : Site) : Prop where
  body : site.body = classBody.text
  inside : site.call.expr ∈ classBody.cutting.root.expr.constructions
  sight : site.call.sight = classBody.cutting.root.sight
  follows : classBody.Follows site.call.expr
  only : ∀ call ∈ classBody.cutting.root.expr.constructions, classBody.Follows call →
    call = site.call.expr
  base : ∃ node callee arguments typeName, site.call.expr = .call node callee arguments ∧
    callee.constructedType? = some typeName ∧
    site.baseType = String.ofList (TypeName.base typeName.toList)

end ClassBody

namespace Cutting

/-- The class bodies from `spans` on, behind the `earlier` ones. -/
def bodiesFrom (cutting : Cutting) : (earlier spans : List Span) → List ClassBody
  | _, [] => []
  | earlier, span :: rest => ⟨cutting, earlier, span⟩ :: bodiesFrom cutting (earlier ++ [span]) rest

/-- The class bodies of the statement, in order. -/
def bodies (cutting : Cutting) : List ClassBody := cutting.bodiesFrom [] cutting.classBodies

/-- Position of the semicolon in the source. -/
def stop (cutting : Cutting) : Nat := cutting.start + cutting.text.length

/-- The statement stands at the start of the text, and its tree was read from it. -/
structure IsCutFrom (cutting : Cutting) (text : List Char) : Prop where
  found : Text.findCut ';' text = .found ⟨cutting.text.length, cutting.classBodies⟩
  text_eq : text.take cutting.text.length = cutting.text
  isRead : ∃ plain, Text.removeSpans? cutting.text cutting.classBodies = some plain ∧
    cutting.root.IsReadFrom plain

/-- The class bodies of the statement are noted, each at its call. -/
def Notes (cutting : Cutting) (before after : Body) : Prop :=
  ∃ sites, after = { before with sites := before.sites ++ sites.toArray } ∧
    List.Forall₂ ClassBody.Owns cutting.bodies sites

end Cutting

section

variable {cutting : Cutting} {text : List Char} {plain : List Char} {body : Body}

/-- The class bodies of a statement do not overlap, and more than blanks stands in front of each. -/
theorem Cutting.IsCutFrom.apart (cuts : cutting.IsCutFrom text) :
    Text.Ordered 0 cutting.text.length cutting.classBodies ∧
      Text.Apart text 0 cutting.classBodies :=
  Text.findCut_bodies cuts.found

/-- The semicolon stands in the text. -/
theorem Cutting.IsCutFrom.lt (cuts : cutting.IsCutFrom text) :
    cutting.text.length < text.length := by
  have ends := Text.cutFrom_endsWithin ';' {} 0 text
  rw [show Text.cutFrom ';' {} 0 text = .found _ from cuts.found] at ends
  have within : cutting.text.length < 0 + text.length := ends.2
  omega

/-- More text behind the semicolon does not matter. -/
theorem Cutting.IsCutFrom.append (cuts : cutting.IsCutFrom text) (more : List Char) :
    cutting.IsCutFrom (text ++ more) := by
  have longer : Text.findCut ';' (text ++ more) = Text.findCut ';' text := by
    rcases Text.findCut_append ';' text more with unfinished | ⟨same, -⟩
    · rw [cuts.found] at unfinished
      contradiction
    · exact same
  refine ⟨longer.trans cuts.found, ?_, cuts.isRead⟩
  rw [List.take_append_of_le_length (Nat.le_of_lt cuts.lt), cuts.text_eq]

theorem constructionEndingAt?_eq_some {root call : Expr} {position : Nat}
    (found : Reader.constructionEndingAt? root position = some call) :
    call ∈ root.constructions ∧ call.EndsAt position := by
  have holds := List.find?_some found
  obtain ⟨calls, ends⟩ := Bool.and_eq_true_iff.1 holds
  refine ⟨mem_constructions.2 ⟨List.mem_of_find?_eq_some found, calls⟩, ?_⟩
  cases known : call.node? with
  | none => simp [known] at ends
  | some node =>
      rw [known] at ends
      exact ⟨node, known, eq_of_beq ends⟩

theorem constructedBase_eq {call : Expr} (calls : call.isConstructorCall = true) :
    ∃ node callee arguments typeName, call = .call node callee arguments ∧
      callee.constructedType? = some typeName ∧
      Reader.constructedBase call = String.ofList (TypeName.base typeName.toList) := by
  cases call with
  | call node callee arguments =>
      obtain ⟨typeName, constructs⟩ := Option.isSome_iff_exists.1 calls
      exact ⟨node, callee, arguments, typeName, rfl, constructs, by
        rw [Reader.constructedBase, constructs, Option.getD_some]⟩
  | _ => simp [isConstructorCall] at calls

/-- A call that ends where the text in front of a class body ends is the one that the class body
stands behind. -/
theorem ClassBody.follows_iff {classBody : ClassBody} {front behind : List Char} {call : Expr}
    (isRead : classBody.cutting.root.IsReadFrom (front ++ behind))
    (shown : classBody.front? = some front)
    (inside : call ∈ classBody.cutting.root.expr.constructions) :
    classBody.Follows call ↔ call.EndsAt (Text.trimEnd front).length := by
  constructor
  · rintro ⟨other, node, same, known, stop, -⟩
    obtain rfl := Option.some.inj (shown.symm.trans same)
    exact ⟨node, known, stop⟩
  · rintro ⟨node, known, stop⟩
    obtain ⟨_, here, -, read⟩ := isRead.text_eq (mem_constructions.1 inside).1
    obtain rfl := Option.some.inj (known.symm.trans here)
    refine ⟨front, node, shown, known, stop, ?_⟩
    have trimmed : (front ++ behind).take node.span.stop = Text.trimEnd front := by
      rw [stop, List.take_append_of_le_length (Text.length_trimEnd_le front)]
      exact (List.prefix_iff_eq_take.1 (Text.trimEnd_isPrefix front)).symm
    rw [read, String.toList_ofList, Span.slice, Span.length, ← List.drop_take, trimmed]
    exact List.drop_suffix _ _

section

variable (cuts : cutting.IsCutFrom text)
  (removed : Text.removeSpans? cutting.text cutting.classBodies = some plain)
  (isRead : cutting.root.IsReadFrom plain)
include cuts removed isRead

/-- Class bodies are noted one by one, each at its call. -/
theorem noteSites_owns (earlier spans : List Span)
    (split : cutting.classBodies = earlier ++ spans) :
    Gives (Reader.noteSites cutting.text plain cutting.root (Text.covered earlier) spans) body
      fun _ after => ∃ sites, after = { body with sites := body.sites ++ sites.toArray } ∧
        List.Forall₂ ClassBody.Owns (cutting.bodiesFrom earlier spans) sites := by
  induction spans generalizing earlier body with
  | nil => exact .pure ⟨[], by simp, .nil⟩
  | cons span rest induction =>
      let classBody : ClassBody := ⟨cutting, earlier, span⟩
      obtain ⟨front, behind, shown, -, rfl, count⟩ :=
        Text.removeFrom?_append (split ▸ cuts.apart.1) (split ▸ removed)
      have inFront : (front ++ behind).take (span.start - Text.covered earlier) = front := by
        rw [show span.start - Text.covered earlier = front.length by omega,
          List.take_left]
      rw [Reader.noteSites, inFront]
      dsimp only
      split
      · exact .throw
      · rename_i call found
        obtain ⟨inside, ends⟩ := constructionEndingAt?_eq_some found
        have iff {other : Expr} (isCall : other ∈ cutting.root.expr.constructions) :
            classBody.Follows other ↔ other.EndsAt (Text.trimEnd front).length :=
          ClassBody.follows_iff isRead shown isCall
        let site : Site :=
          { call := ⟨call, cutting.root.sight⟩
            baseType := Reader.constructedBase call
            body := String.ofList (span.slice cutting.text) }
        have owns : classBody.Owns site :=
          { body := rfl
            inside
            sight := rfl
            follows := (iff inside).2 ends
            only := fun other isCall follows =>
              isRead.eq_of_endsAt isCall inside ((iff isCall).1 follows) ends
            base := constructedBase_eq (mem_constructions.1 inside).2 }
        refine .next rfl ?_
        rw [← Text.covered_snoc]
        intro _ after behind
        obtain ⟨sites, rfl, all⟩ := induction (earlier ++ [span]) (by simp [split]) _ _ behind
        exact ⟨site :: sites, by simp [site], .cons owns all⟩

/-- A statement with a class body in it has a tree. -/
theorem isPresent_of_classBodies (some_ : cutting.classBodies ≠ []) :
    cutting.root.expr.isPresent = true := by
  obtain ⟨ordered, apart⟩ := cuts.apart
  obtain ⟨span, rest, split⟩ := List.exists_cons_of_ne_nil some_
  rw [split] at apart ordered
  rw [split, ← List.nil_append (span :: rest)] at removed
  obtain ⟨front, behind, shown, -, rfl, -⟩ := Text.removeFrom?_append ordered removed
  have inside : span.start ≤ cutting.text.length :=
    Nat.le_trans ordered.2.1 ordered.2.2.le
  refine isRead.isPresent ?_
  rw [← cuts.text_eq, List.take_take, Nat.min_eq_left inside] at shown
  obtain ⟨c, member, visible⟩ := Text.SolidWithin.exists_mem apart.1 shown
  exact ⟨c, List.mem_append_left _ member, visible⟩

end

end

namespace Reader

section

variable {text : List Char} {body : Body} {cut : Text.Cut}

/-- Reading a statement whose end was found cuts the class bodies out of it and notes them. -/
theorem readCut_cuts {read : List Char → ReadM Placed} (start : Nat) (reads : Body → Body → Prop)
    (found : Text.findCut ';' text = .found cut)
    (isRead : ∀ source body, Gives (read source) body fun placed after =>
      placed.IsReadFrom source ∧ reads body after) :
    Gives (readCut read text cut) body fun placed after => ∃ cutting : Cutting,
      cutting.start = start ∧ cutting.root = placed ∧ cutting.text.length = cut.stop ∧
        cutting.IsCutFrom text ∧ ∃ between, reads body between ∧ cutting.Notes between after := by
  have inside : cut.stop ≤ text.length := by
    have ends := Text.cutFrom_endsWithin ';' {} 0 text
    rw [show Text.cutFrom ';' {} 0 text = .found cut from found] at ends
    have within : cut.stop < 0 + text.length := ends.2
    omega
  have length : (text.take cut.stop).length = cut.stop := by
    rw [List.length_take, Nat.min_eq_left inside]
  rw [readCut]
  split
  · exact .throw
  · rename_i plain removed
    refine (isRead plain body).bind fun root between first => ?_
    let cutting : Cutting := ⟨start, text.take cut.stop, cut.classBodies, root⟩
    have cuts : cutting.IsCutFrom text :=
      { found := by rw [show cutting.text.length = cut.stop from length, found]
        text_eq := by rw [show cutting.text.length = cut.stop from length]
        isRead := ⟨plain, removed, first.1⟩ }
    split
    · rename_i absent
      have noBodies : cut.classBodies = [] := by
        by_contra some_
        have present : root.expr.isPresent = true :=
          isPresent_of_classBodies cuts removed first.1 some_
        rw [Expr.isPresent, show root.expr.isAbsent = true from absent] at present
        contradiction
      refine .pure ⟨cutting, rfl, rfl, length, cuts, between, first.2, [], by simp, ?_⟩
      rw [Cutting.bodies, show cutting.classBodies = [] from noBodies]
      exact .nil
    · refine Gives.bind (noteSites_owns cuts removed first.1 [] cut.classBodies rfl)
        fun _ after noted => ?_
      exact .pure ⟨cutting, rfl, rfl, length, cuts, between, first.2, noted⟩

end
end Reader
end MethodLowering
