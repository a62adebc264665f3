import MethodLowering.Proofs.Reader.WellFormed
import MethodLowering.Proofs.Roundtrip.Branching
import MethodLowering.Proofs.Roundtrip.Uniqueness

/-!
# Written programs are read back

A program that is printed is read as the body it was printed from: every statement stands where it
was written, with the bodies and clauses it was written with.
-/

namespace MethodLowering

open Text Reader Body

/-! ## All statements are read -/

theorem all_isShort {clause : Option Tree} (short : ∀ tree ∈ clause.toList, tree.isShort = true) :
    clause.all Tree.isShort = true := by
  cases clause with
  | none => rfl
  | some tree => exact short tree (List.mem_singleton_self tree)

mutual

theorem Statement.reads : ∀ {statement : Statement}, statement.isWellFormed = true →
    (∀ tree ∈ statement.trees, tree.isShort = true) → statement.Reads
  | .empty, _, _ => Statement.reads_empty
  | .expression root, well, short =>
      Statement.reads_expression well (short root (List.mem_singleton_self root))
  | .block label inner, well, short => by
      rw [Statement.isWellFormed, Bool.and_eq_true] at well
      exact Statement.reads_block well.1 (Statement.allRead well.2 short)
  | .conditional condition first rest, well, short => by
      simp only [Statement.isWellFormed, Bool.and_eq_true, Bool.or_eq_true, Bool.not_eq_true']
        at well
      simp only [Statement.trees, List.mem_cons, List.mem_append] at short
      exact Statement.reads_conditional well.1.1.1 (short condition (.inl rfl)) well.1.2
        (Suite.reads well.1.1.2 fun tree among => short tree (.inr (.inl among)))
        (Alternative.reads well.2 fun tree among => short tree (.inr (.inr among)))
  | .counted label init condition update body, well, short => by
      simp only [Statement.isWellFormed, Bool.and_eq_true] at well
      simp only [Statement.trees, List.mem_append] at short
      exact Statement.reads_counted well.1.1.1.1 well.1.1.1.2 well.1.1.2 well.1.2
        (all_isShort fun tree among => short tree (.inl (.inl (.inl among))))
        (all_isShort fun tree among => short tree (.inl (.inl (.inr among))))
        (all_isShort fun tree among => short tree (.inl (.inr among)))
        (Suite.reads well.2 fun tree among => short tree (.inr among))
  | .iterator label type name source body, well, short => by
      simp only [Statement.isWellFormed, Bool.and_eq_true, decide_eq_true_eq] at well
      simp only [Statement.trees, List.mem_cons] at short
      exact Statement.reads_iterator well.1.1.1.1.1 well.1.1.1.1.2 well.1.1.1.2 well.1.1.2 well.1.2
        (short source (.inl rfl)) (Suite.reads well.2 fun tree among => short tree (.inr among))
  | .whileLoop label condition body, well, short => by
      simp only [Statement.isWellFormed, Bool.and_eq_true] at well
      simp only [Statement.trees, List.mem_cons] at short
      exact Statement.reads_whileLoop well.1.1 well.1.2 (short condition (.inl rfl))
        (Suite.reads well.2 fun tree among => short tree (.inr among))
  | .doLoop label body condition, well, short => by
      simp only [Statement.isWellFormed, Bool.and_eq_true] at well
      simp only [Statement.trees, List.mem_cons] at short
      exact Statement.reads_doLoop well.1.1 well.2 (short condition (.inl rfl))
        (Suite.reads well.1.2 fun tree among => short tree (.inr among))
  | .switch subject inner, well, short => by
      rw [Statement.isWellFormed, Bool.and_eq_true] at well
      simp only [Statement.trees, List.mem_cons] at short
      exact Statement.reads_switch well.1 (short subject (.inl rfl))
        (Statement.allRead well.2 fun tree among => short tree (.inr among))
  | .caseLabel value, well, short => by
      rw [Statement.isWellFormed, Bool.and_eq_true] at well
      exact Statement.reads_caseLabel well.1 (short value (List.mem_singleton_self value)) well.2
  | .defaultLabel, _, _ => Statement.reads_defaultLabel
  | .tryBlock guarded clauses, well, short => by
      simp only [Statement.isWellFormed, Bool.and_eq_true, Bool.not_eq_true'] at well
      simp only [Statement.trees, List.mem_append] at short
      exact Statement.reads_tryBlock (Statement.allRead well.1.1 fun tree among =>
        short tree (.inl among))
        (Clauses.reads well.2 fun tree among => short tree (.inr among)) well.1.2
  | .synchronized lock body, well, short => by
      rw [Statement.isWellFormed, Bool.and_eq_true] at well
      simp only [Statement.trees, List.mem_cons] at short
      exact Statement.reads_synchronized well.1 (short lock (.inl rfl))
        (Suite.reads well.2 fun tree among => short tree (.inr among))
  | .exit keyword value, well, short => by
      simp only [Statement.isWellFormed, Bool.and_eq_true, Bool.or_eq_true, beq_iff_eq] at well
      exact Statement.reads_exit well.1 well.2 (all_isShort short)
  | .jump keyword label, well, _ => by
      simp only [Statement.isWellFormed, Bool.and_eq_true, Bool.or_eq_true, beq_iff_eq] at well
      exact Statement.reads_jump well.1 well.2

theorem Statement.allRead : ∀ {statements : List Statement}, Statement.areWellFormed statements =
      true →
    (∀ tree ∈ Statement.allTrees statements, tree.isShort = true) → Statement.AllRead statements
  | [], _, _ => Statement.allRead_nil
  | statement :: rest, well, short => by
      rw [Statement.areWellFormed, Bool.and_eq_true] at well
      simp only [Statement.allTrees, List.mem_append] at short
      exact Statement.allRead_cons (Statement.reads well.1 fun tree among =>
        short tree (.inl among))
        (Statement.allRead well.2 fun tree among => short tree (.inr among)) well.2

theorem Suite.reads : ∀ {suite : Suite}, suite.isWellFormed = true →
    (∀ tree ∈ suite.trees, tree.isShort = true) → suite.Reads
  | .braced inner, well, short => Suite.reads_braced (Statement.allRead well short)
  | .single statement, well, short => by
      rw [Suite.isWellFormed, Bool.and_eq_true] at well
      exact Suite.reads_single (Statement.reads well.2 short) well.2 short well.1

theorem Alternative.reads : ∀ {rest : Alternative}, rest.isWellFormed = true →
    (∀ tree ∈ rest.trees, tree.isShort = true) → rest.Reads
  | .done, _, _ => Alternative.reads_done
  | .otherwise body, well, short => by
      rw [Alternative.isWellFormed, Bool.and_eq_true, Bool.not_eq_true'] at well
      exact Alternative.reads_otherwise well.2 well.1 (Suite.reads well.2 short)
  | .elseIf condition body rest, well, short => by
      simp only [Alternative.isWellFormed, Bool.and_eq_true, Bool.or_eq_true, Bool.not_eq_true']
        at well
      simp only [Alternative.trees, List.mem_cons, List.mem_append] at short
      exact Alternative.reads_elseIf well.1.1.1 (short condition (.inl rfl)) well.1.2
        (Suite.reads well.1.1.2 fun tree among => short tree (.inr (.inl among)))
        (Alternative.reads well.2 fun tree among => short tree (.inr (.inr among)))

theorem Clauses.reads : ∀ {clauses : Clauses}, clauses.isWellFormed = true →
    (∀ tree ∈ clauses.trees, tree.isShort = true) → clauses.Reads
  | .done, _, _ => Clauses.reads_done
  | .cleanup inner, well, short => Clauses.reads_cleanup (Statement.allRead well short)
  | .handler type name inner rest, well, short => by
      simp only [Clauses.isWellFormed, Bool.and_eq_true] at well
      simp only [Clauses.trees, List.mem_append] at short
      exact Clauses.reads_handler well.1.1.1 well.1.1.2
        (Statement.allRead well.1.2 fun tree among => short tree (.inl among))
        (Clauses.reads well.2 fun tree among => short tree (.inr among))

end

/-! ## Whole programs -/

/-- The paragraph of the method body with these statements. -/
def Body.HasRoot (body : Body) (items : List Item) : Prop :=
  ∃ vars, body.paragraphs[root]? =
    some { kind := .root, parent := none, items := items.toArray, vars }

/-- The method body has no statements at the start. -/
theorem Body.hasRoot_initial (context : Context) (options : Options) :
    (Body.initial context options).HasRoot [] := by
  obtain ⟨added, nextNode, effort, same, -⟩ := declares_initial context options
  refine ⟨#[] ++ (List.range' 0 added.length).toArray, ?_⟩
  rw [same]
  rfl

/-- **Programs are read back.**  The text of well-formed statements is read as a body in which
exactly these statements stand: nothing else belongs to the body, and it is the body of no other
statements. -/
theorem Body.ofLines_print {statements : List Statement}
    (well : Statement.areWellFormed statements = true)
    (short : ∀ tree ∈ Statement.allTrees statements, tree.isShort = true)
    (few : Statement.allSteps statements < Limits.stepsPerFeed) (context : Context)
    (options : Options) :
    ∃ body items, Body.ofLines context options [String.ofList (Statement.printAll statements [])] =
        .ok body ∧
      body.HasRoot items ∧ Statement.StandAt body root statements items ∧ body.WellFormed ∧
      ∀ others, Statement.areWellFormed others = true → Statement.StandAt body root others items →
        others = statements := by
  let start := Body.initial context options
  obtain ⟨vars, begun⟩ := hasRoot_initial context options
  have inside : root < start.paragraphs.size := (Array.getElem?_eq_some_iff.1 begun).1
  have ended : MethodLowering.Follows true [] := ⟨rfl, rfl, fun _ => rfl⟩
  obtain ⟨after, items, arrives, adds, stand⟩ :=
    Statement.allRead well short root .root [] [] start inside (.inl rfl) ended
  have read : Body.ofLines context options [String.ofList (Statement.printAll statements [])] =
      .ok after.lift := by
    rw [← @String.toList_ofList (Statement.printAll statements [])] at arrives
    exact Body.ofLines_of_arrives arrives rfl rfl few
  have retains : Retains start after after.lift :=
    ⟨fun _ _ _ => rfl, fun _ _ _ => rfl, fun _ _ _ => rfl, rfl⟩
  have stands := stand after.lift retains
  refine ⟨after.lift, items, read, ⟨vars, ?_⟩, stands, ?_, fun others fine same =>
    Statement.standAt_inj fine well same stands⟩
  · refine (adds.own _ begun).trans ?_
    simp
  · obtain ⟨reader, reaches, idle, same⟩ := Body.ofLines_reaches read
    rw [same]
    exact ((reaches.since (Reader.since_initial context options)).wellFormed idle
      (listed_initial context options)).lift

namespace Statement

/-- The statements of `outer: for (T x : f(a).b) if (a) break outer; else if (b) { ; } else
do c(); while (d);` and of `try { switch (a) { case b: return c; default: } } catch (E e) { }`. -/
def sample : List Statement :=
  let name (c : Char) : Tree := .name [c]
  [.iterator (some "outer".toList) ['T'] ['x'] (.member (.call ['f'] [name 'a']) (name 'b'))
      (.single (.conditional (name 'a') (.single (.jump .breaks (some "outer".toList)))
        (.elseIf (name 'b') (.braced [.empty])
          (.otherwise (.single (.doLoop none (.single (.expression (.call ['c'] [])))
            (name 'd'))))))),
    .tryBlock [.switch (name 'a') [.caseLabel (name 'b'), .exit .returns (some (name 'c')),
    .defaultLabel]]
      (.handler ['E'] ['e'] [] .done)]

end Statement

/-- An `else if` behind a jump to a label, and a handler behind a switch. -/
theorem Body.ofLines_print_sample :
    Statement.printAll Statement.sample [] =
      ("outer: for (T x : f(a).b) if (a) break outer; else if (b) " ++
        "{ ; } else do c(); while (d); try { switch (a) { case b: return c; default: } } " ++
        "catch (E e) { } ").toList ∧
      ∃ body items, Body.ofLines {} {} [String.ofList (Statement.printAll Statement.sample [])] =
          .ok body ∧ body.HasRoot items ∧ Statement.StandAt body root Statement.sample items := by
  have well : Statement.areWellFormed Statement.sample = true := by decide
  have short : ∀ tree ∈ Statement.allTrees Statement.sample, tree.isShort = true := by decide
  have few : Statement.allSteps Statement.sample < Limits.stepsPerFeed := by decide
  refine ⟨by decide +kernel, ?_⟩
  obtain ⟨body, items, read, has, stand, -⟩ := Body.ofLines_print well short few {} {}
  exact ⟨body, items, read, has, stand⟩

end MethodLowering
