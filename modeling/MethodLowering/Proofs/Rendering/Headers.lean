import MethodLowering.Proofs.Body.Answers
import MethodLowering.Proofs.Lowering.Fitting
import MethodLowering.Proofs.Reader.Headers
import MethodLowering.Proofs.Reader.Lifting
import MethodLowering.Proofs.Rendering.Shutting
import MethodLowering.Rendering.Statement

/-!
# Loop headers

No expression in the header of a loop with three clauses is rewritten to more than one statement,
and the header that is written has three clauses too.
-/

namespace MethodLowering

open MethodLowering.Expr Lowering Text

section

variable {body : Body} {construct : Construct} {tree header expr : Expr}

/-! ## Trees of headers -/

theorem Body.IsStatement.mem_cutTrees (statement : body.IsStatement tree) :
    tree ∈ body.cutTrees := by
  obtain ⟨paragraph, known, placed, listed, rfl⟩ := statement
  refine List.mem_append_left _ (List.mem_flatMap.2 ⟨paragraph, known.val, ?_⟩)
  exact List.mem_flatMap.2 ⟨.expression placed, listed.val, List.mem_singleton_self _⟩

/-- A construct without a value of its own shares no expression with a statement or a value. -/
theorem not_mem_of_cutTree (distinct : (numbersOf body.trees).Nodup)
    (member : construct ∈ body.constructs) (noValue : construct.values = [])
    (known : header ∈ construct.detail.trees) (inside : expr ∈ header.preorder)
    (cut : tree ∈ body.cutTrees) : expr ∉ tree.preorder := by
  intro shared
  rw [Body.numbersOf_eq_map] at distinct
  have apart := distinct.of_map
  rw [Body.trees, List.flatMap_append] at apart
  have inHeader : expr ∈ construct.detail.trees.flatMap preorder :=
    List.mem_flatMap.2 ⟨header, known, inside⟩
  rcases List.mem_append.1 cut with inParagraph | inValue
  · refine List.disjoint_of_nodup_append apart (List.mem_flatMap.2 ⟨tree, inParagraph, shared⟩) ?_
    rw [List.flatMap_assoc]
    exact List.mem_flatMap.2 ⟨construct, member.val, inHeader⟩
  · obtain ⟨other, memberOther, among⟩ := List.mem_flatMap.1 inValue
    have inOther : expr ∈ other.detail.trees.flatMap preorder :=
      List.mem_flatMap.2 ⟨tree, (values_sublist other).subset among, shared⟩
    have others := (List.nodup_append.1 apart).2.1
    rw [List.flatMap_assoc] at others
    obtain rfl := eq_of_nodup_flatMap others member.val memberOther inHeader inOther
    rw [noValue] at among
    contradiction

/-! ## Directives in headers -/

variable {context : Context} {options : Options} {lines : List String} {types : TypeReport}
  {lowering : Lowering} {clause init condition update : Placed} {slot : ParagraphId}

section

variable (read : Body.ofLines context options lines = .ok body)
  (lowered : body.lower types = .ok lowering) (member : construct ∈ body.constructs)
  (counted : construct.detail = .counted init condition update slot)
  (among : clause ∈ [init, condition, update]) (inside : expr ∈ clause.expr.preorder)
include read lowered member counted among inside

/-- The expressions of a header are written as one piece. -/
theorem isPlain_of_header : Rendering.IsPlain ⟨body, lowering.directives⟩ expr := by
  obtain ⟨log, follows, tallies⟩ := (Body.ofLines_wellFormed read).lower_follows lowered
  obtain ⟨cuttings, lifts⟩ := Body.ofLines_lifts read
  have distinct := (Body.ofLines_forest read).distinct
  have noValue : construct.values = [] := by rw [Construct.values, counted]
  have inDetail : clause.expr ∈ construct.detail.trees := by
    rw [counted]
    exact List.mem_map_of_mem among
  have known : clause.expr ∈ body.trees :=
    List.mem_append_right _ (List.mem_flatMap.2 ⟨construct, member.val, inDetail⟩)
  obtain ⟨node, own⟩ := isPresent_iff.1 (isPresent_of_mem_preorder inside)
  have told {directive : Directive}
      (listed : directive ∈ Rendering.directivesOf ⟨body, lowering.directives⟩ expr) :
      (⟨expr, directive⟩ : Direction) ∈ log.given ∧
        ∃ other ∈ body.trees, Direction.Fits body other ⟨expr, directive⟩ := by
    refine follows.told tallies distinct known inside ?_
    rw [number_of_node? own]
    simpa only [Rendering.directivesOf, own] using listed
  refine ⟨fun directive listed => ?_, fun directive listed => ?_,
    fun directive listed => ?_, ?_, ?_⟩
  · obtain ⟨-, other, -, fits⟩ := told listed
    exact fits.suits
  · obtain ⟨-, other, -, fits⟩ := told listed
    exact fits.typed
  · rw [Bool.eq_false_iff]
    intro splits
    have statement := tallies.splits _ (told listed).1 splits
    exact not_mem_of_cutTree distinct member noValue inDetail inside statement.mem_cutTrees
      (mem_preorder_self (isPresent_of_mem_preorder inside))
  · have headed := Body.ofLines_hasClauses read construct member
    rw [counted] at headed
    exact (headed clause among).declared expr inside
  · intro other same
    rw [Option.eq_none_iff_forall_not_mem]
    intro id found
    obtain ⟨lifted, listed, rfl⟩ := (lifts.found _ known expr inside other same id).1 found
    obtain ⟨tree, cut, shared⟩ :=
      exists_cutTree lifts.roots lifts.sites lifts.lifted (Array.mem_of_getElem? listed).val
    exact not_mem_of_cutTree distinct member noValue inDetail inside cut shared

end

/-! ## Texts of headers -/

namespace Rendering

/-- What is written between the brackets of a loop with three clauses. -/
def countedHeader (rendering : Rendering) (init condition update : Placed) : String :=
  rendering.clause init ++ ";" ++ rendering.clauseSuffix condition ++ ";" ++
    rendering.clauseSuffix update

variable {rendering : Rendering}

theorem constructLines_counted (counted : construct.detail = .counted init condition update slot)
    (inner : ParagraphId → List Page.Step) :
    rendering.constructLines inner construct = labelLines construct.label ++
      opened ("for (" ++ rendering.countedHeader init condition update ++ ")") ::
        Page.nested (inner slot) ++ [closed] := by
  rw [constructLines, counted, detailLines, blockLines]
  simp only [countedHeader, String.append_assoc, List.append_assoc, List.cons_append]

theorem shut_clause (options : rendering.body.options.AreShut) (isClause : clause.IsClause body)
    (plain : clause.expr.Everywhere rendering.IsPlain) :
    Shut noSemicolon (rendering.clause clause).toList := by
  obtain ⟨text, formed⟩ := isClause.formed
  exact shelters_expressionFrom options _ ⟨formed, plain⟩ _ lenient_noSemicolon isClause.single

/-- Three clauses, of which none has a semicolon outside brackets, make a header of three parts. -/
theorem splitTop_countedHeader (shut : ∀ clause ∈ [init, condition, update],
      Shut noSemicolon (rendering.clause clause).toList) :
    splitTop ';' (rendering.countedHeader init condition update).toList =
      [(rendering.clause init).toList, (rendering.clauseSuffix condition).toList,
        (rendering.clauseSuffix update).toList] := by
  have suffix {clause : Placed} (shut : Shut noSemicolon (rendering.clause clause).toList) :
      Shut noSemicolon (rendering.clauseSuffix clause).toList := by
    unfold clauseSuffix
    split
    · exact shut_nil
    · rw [String.toList_append]
      exact (lenient_noSemicolon.shut (by decide)).append shut
  have first := shut init (by simp)
  have second := suffix (shut condition (by simp))
  have third := suffix (shut update (by simp))
  have split : (rendering.countedHeader init condition update).toList =
      (rendering.clause init).toList ++ ';' :: ((rendering.clauseSuffix condition).toList ++ ';' ::
        (rendering.clauseSuffix update).toList) := by
    simp [countedHeader]
  rw [split, first.splitTop_append, second.splitTop_append, third.splitTop_eq]

end Rendering

/-! ## Written headers -/

/-- **Loop headers.**  No expression in the header of a loop with three clauses is told to be
written as two statements, however deep it stands.  Where the texts of the options close what they
open and have no semicolon, the semicolons outside brackets split the header that is written into
its three clauses. -/
theorem Body.ofLines_headers (read : Body.ofLines context options lines = .ok body)
    (lowered : body.lower types = .ok lowering) (member : construct ∈ body.constructs)
    (counted : construct.detail = .counted init condition update slot) :
    let rendering : Rendering := ⟨body, lowering.directives⟩
    let header := rendering.countedHeader init condition update
    (∀ clause ∈ [init, condition, update], ∀ expr ∈ clause.expr.preorder,
      ∀ directive ∈ rendering.directivesOf expr, directive.splits = false) ∧
    (∀ inner, rendering.constructLines inner construct = Rendering.labelLines construct.label ++
      Rendering.opened ("for (" ++ header ++ ")") :: Page.nested (inner slot) ++
        [Rendering.closed]) ∧
    (options.AreClosed → splitTop ';' header.toList = [(rendering.clause init).toList,
      (rendering.clauseSuffix condition).toList, (rendering.clauseSuffix update).toList]) := by
  intro rendering header
  have plain (clause : Placed) (among : clause ∈ [init, condition, update]) (expr : Expr)
      (inside : expr ∈ clause.expr.preorder) : rendering.IsPlain expr :=
    isPlain_of_header read lowered member counted among inside
  refine ⟨fun clause among expr inside => (plain clause among expr inside).single,
    Rendering.constructLines_counted counted, fun closed => ?_⟩
  have shutOptions : rendering.body.options.AreShut := (Body.ofLines_options read) ▸ closed.areShut
  have headed := Body.ofLines_hasClauses read construct member
  rw [counted] at headed
  exact Rendering.splitTop_countedHeader fun clause among =>
    Rendering.shut_clause shutOptions (headed clause among) (plain clause among)

/-- The header of the first construct, where that is a loop with three clauses. -/
def Body.firstHeader? (body : Body) (types : TypeReport) : Option String := do
  let lowering ← (body.lower types).toOption
  let construct ← body.constructs[0]?
  match construct.detail with
  | .counted init condition update _ =>
      some (Rendering.countedHeader ⟨body, lowering.directives⟩ init condition update)
  | _ => none

theorem Body.exists_of_firstHeader? {text : String} (found : body.firstHeader? types = some text) :
    ∃ lowering construct init condition update slot, body.lower types = .ok lowering ∧
      construct ∈ body.constructs ∧ construct.detail = .counted init condition update slot ∧
      Rendering.countedHeader ⟨body, lowering.directives⟩ init condition update = text := by
  obtain ⟨lowering, lowered, found⟩ := Option.bind_eq_some_iff.1 found
  obtain ⟨construct, known, found⟩ := Option.bind_eq_some_iff.1 found
  split at found
  · rename_i init condition update slot counted
    exact ⟨lowering, construct, init, condition, update, slot, eq_ok_of_toOption lowered,
      Array.mem_of_getElem? known, counted, Option.some.inj found⟩
  · contradiction

/-- In a header, a fresh array is a value and gets no statement of its own, and a semicolon in a
literal splits nothing. -/
theorem Body.ofLines_headers_assigned :
    let lines := ["int[] c;", "for (d(), c = new int[b]; c != null; f(\";\")) \x7b \x7d"]
    let header := "d(), c = Array<int>(b); c.size() > 0; f(\";\")"
    ∃ body lowering construct init condition update slot,
      Body.ofLines {} {} lines = .ok body ∧ body.lower {} = .ok lowering ∧
      construct ∈ body.constructs ∧ construct.detail = .counted init condition update slot ∧
      Rendering.countedHeader ⟨body, lowering.directives⟩ init condition update = header ∧
      (∀ clause ∈ [init, condition, update], ∀ expr ∈ clause.expr.preorder,
        ∀ directive ∈ Rendering.directivesOf ⟨body, lowering.directives⟩ expr,
          directive.splits = false) ∧ (splitTop ';' header.toList).length = 3 := by
  intro lines header
  have runs : ((Body.ofLines {} {} lines).toOption.bind (Body.firstHeader? · {})) =
      some header := by
    decide +kernel
  obtain ⟨body, read, found⟩ := Option.bind_eq_some_iff.1 runs
  have read := eq_ok_of_toOption read
  obtain ⟨lowering, construct, init, condition, update, slot, lowered, member, counted, written⟩ :=
    Body.exists_of_firstHeader? found
  obtain ⟨single, -, parts⟩ := Body.ofLines_headers read lowered member counted
  refine ⟨body, lowering, construct, init, condition, update, slot, read, lowered, member, counted,
    written, single, ?_⟩
  rw [← written, parts (by decide), List.length_cons, List.length_cons, List.length_singleton]

/-- A null literal that opens a bracket without closing it takes the semicolons of the header into
the bracket: the header that is written is a single part. -/
theorem Body.ofLines_headers_unclosed :
    let options : Options := { nullLiteral := "(" }
    let header := "a = (; b; c"
    (∀ text ∈ options.deferKeyword :: options.expressionTexts ++ options.extraContainerTypes,
      ';' ∉ text.toList) ∧ ∃ body lowering construct init condition update slot,
      Body.ofLines {} options ["for (a = null; b; c) \x7b \x7d"] = .ok body ∧
      body.lower {} = .ok lowering ∧ construct ∈ body.constructs ∧
      construct.detail = .counted init condition update slot ∧
      (∀ inner, Rendering.constructLines ⟨body, lowering.directives⟩ inner construct =
        Rendering.labelLines construct.label ++ Rendering.opened ("for (" ++ header ++ ")") ::
          Page.nested (inner slot) ++ [Rendering.closed]) ∧
      splitTop ';' header.toList = [header.toList] := by
  intro options header
  have runs : ((Body.ofLines {} options ["for (a = null; b; c) \x7b \x7d"]).toOption.bind
      (Body.firstHeader? · {})) = some header := by decide +kernel
  obtain ⟨body, read, found⟩ := Option.bind_eq_some_iff.1 runs
  obtain ⟨lowering, construct, init, condition, update, slot, lowered, member, counted, written⟩ :=
    Body.exists_of_firstHeader? found
  refine ⟨by decide, body, lowering, construct, init, condition, update, slot,
    eq_ok_of_toOption read, lowered, member, counted, fun inner => ?_, by decide +kernel⟩
  rw [Rendering.constructLines_counted counted, written]

end
end MethodLowering
