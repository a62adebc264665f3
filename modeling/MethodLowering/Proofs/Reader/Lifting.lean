import MethodLowering.Proofs.Reader.Cuttings

/-!
# Types made from class bodies

Every class body that is cut out of a statement becomes one type, in the order of the source, at the
constructor call that it stands behind.  No two types share a call, so a call finds the type made
from its class body.
-/

namespace MethodLowering

open MethodLowering.Expr Body

namespace ClassBody

/-- Position of the class body in the source. -/
def start (classBody : ClassBody) : Nat := classBody.cutting.start + classBody.span.start

/-- Position behind the class body in the source. -/
def stop (classBody : ClassBody) : Nat := classBody.cutting.start + classBody.span.stop

end ClassBody

/-- The type is made from the site. -/
structure Site.Makes (site : Site) (lifted : Lifted) : Prop where
  call : lifted.call = site.call
  baseType : lifted.baseType = site.baseType
  body : lifted.body = site.body

/-- What is true of the types of a body that is read from a source: the statements that were cut out
of it are its expression statements and the values of `return` and `throw`, and each of their class
bodies has its own site and its own type. -/
structure Body.Lifts (source : List Char) (cuttings : List Cutting) (body : Body) : Prop where
  /-- The statements stand in the source, one behind the other. -/
  inOrder : cuttings.Pairwise fun first second => first.stop < second.start
  cut : ∀ cutting ∈ cuttings, cutting.IsCutFrom (source.drop cutting.start)
  /-- They are the expression statements and the values of `return` and `throw`. -/
  roots : ((cuttings.map (·.root.expr)).filter isPresent).Perm body.cutTrees
  /-- Their class bodies do not overlap and reach from one curly bracket to another. -/
  apart : (cuttings.flatMap Cutting.bodies).Pairwise fun first second => first.stop ≤ second.start
  braced : ∀ classBody ∈ cuttings.flatMap Cutting.bodies,
    ∃ inner, classBody.text.toList = '{' :: inner ++ ['}']
  /-- The class bodies have the sites, one each, and the sites make the types, one each. -/
  sites : List.Forall₂ ClassBody.Owns (cuttings.flatMap Cutting.bodies) body.sites.toList
  lifted : List.Forall₂ Site.Makes body.sites.toList body.lifted.toList
  /-- No two types have the same call. -/
  distinct : body.lifted.toList.Pairwise fun first second =>
    first.call.expr.number ≠ second.call.expr.number
  /-- An expression finds a type exactly when it is the call of the type. -/
  found : ∀ tree ∈ body.trees, ∀ expr ∈ tree.preorder, ∀ node, expr.node? = some node →
    ∀ id, body.liftedAt? node = some id ↔
      ∃ lifted, body.lifted[id]? = some lifted ∧ lifted.call.expr = expr

section

variable {source : List Char} {cuttings : List Cutting} {cutting : Cutting} {body : Body}
  {classBody other : ClassBody}

/-! ## Class bodies of one statement -/

theorem pairwise_bodiesFrom {relation : ClassBody → ClassBody → Prop}
    (related : ∀ earlier span between later behind,
      cutting.classBodies = earlier ++ span :: (between ++ later :: behind) →
        relation ⟨cutting, earlier, span⟩ ⟨cutting, earlier ++ span :: between, later⟩)
    (earlier spans : List Span) (split : cutting.classBodies = earlier ++ spans) :
    (cutting.bodiesFrom earlier spans).Pairwise relation := by
  induction spans generalizing earlier with
  | nil => exact .nil
  | cons span rest induction =>
      refine .cons ?_ (induction (earlier ++ [span]) (by simp [split]))
      have behind (between others : List Span) (same : rest = between ++ others) :
          ∀ later ∈ cutting.bodiesFrom (earlier ++ span :: between) others,
            relation ⟨cutting, earlier, span⟩ later := by
        induction others generalizing between with
        | nil => exact nofun
        | cons next others further =>
            intro later member
            rcases List.mem_cons.1 member with rfl | deeper
            · exact related earlier span between next others (by rw [split, same])
            · refine further (between ++ [next]) (by simp [same]) later ?_
              simpa using deeper
      simpa using behind [] rest rfl

theorem mem_bodiesFrom {earlier spans : List Span}
    (member : classBody ∈ cutting.bodiesFrom earlier spans) :
    ∃ front back, spans = front ++ classBody.span :: back ∧
      classBody = ⟨cutting, earlier ++ front, classBody.span⟩ := by
  induction spans generalizing earlier with
  | nil => contradiction
  | cons span rest induction =>
      rcases List.mem_cons.1 member with rfl | later
      · exact ⟨[], rest, rfl, by simp⟩
      · obtain ⟨front, back, split, same⟩ := induction later
        exact ⟨span :: front, back, by rw [split, List.cons_append], by simpa using same⟩

theorem mem_bodies (member : classBody ∈ cutting.bodies) :
    classBody.cutting = cutting ∧ classBody.span ∈ cutting.classBodies := by
  obtain ⟨front, back, split, same⟩ := mem_bodiesFrom member
  exact ⟨by rw [same], by simp [split]⟩

/-- The text in front of a later class body of a statement reaches further. -/
theorem front_lt {text : List Char} {earlier between behind : List Span} {span later : Span}
    {first second : List Char} (cuts : cutting.IsCutFrom text)
    (split : cutting.classBodies = earlier ++ span :: (between ++ later :: behind))
    (shown : ClassBody.front? ⟨cutting, earlier, span⟩ = some first)
    (alsoShown : ClassBody.front? ⟨cutting, earlier ++ span :: between, later⟩ = some second) :
    (Text.trimEnd first).length < (Text.trimEnd second).length := by
  obtain ⟨ordered, apart⟩ := cuts.apart
  have listed : cutting.classBodies = (earlier ++ span :: between) ++ later :: behind := by
    simp [split]
  rw [listed] at ordered apart
  have inFront := ordered.split.1
  have below : span.start ≤ later.start := Nat.le_trans inFront.split.2.1 inFront.split.2.2.le
  obtain ⟨front, rest, one, two, rfl, -⟩ := Text.removeFrom?_append inFront alsoShown
  rw [List.take_take, Nat.min_eq_left below] at one
  obtain rfl : front = first := Option.some.inj (one.symm.trans shown)
  -- something solid stands between the two class bodies
  have solid : Text.SolidWithin text (Text.reached span.stop between) later.start := by
    have behindSpan := apart.append_right
    have reached : Text.reached 0 (earlier ++ span :: between) =
        Text.reached span.stop between := by
      clear * -
      generalize 0 = low
      induction earlier generalizing low with
      | nil => rfl
      | cons entry rest induction => exact induction entry.stop
    rw [reached] at behindSpan
    exact behindSpan.1
  have inside : later.start ≤ cutting.text.length :=
    Nat.le_trans ordered.split.2.1 ordered.split.2.2.le
  rw [← cuts.text_eq, List.take_take, Nat.min_eq_left inside] at two
  exact Nat.lt_of_le_of_lt (Text.length_trimEnd_le front)
    (Text.length_lt_trimEnd (solid.exists_mem two))

theorem Cutting.IsCutFrom.braced {text : List Char} (cuts : cutting.IsCutFrom text)
    (member : classBody ∈ cutting.bodies) :
    ∃ inner, classBody.text.toList = '{' :: inner ++ ['}'] := by
  obtain ⟨rfl, among⟩ := mem_bodies member
  obtain ⟨ordered, apart⟩ := cuts.apart
  obtain ⟨inner, read⟩ := (apart.braced among).slice
  refine ⟨inner, ?_⟩
  obtain ⟨front, back, split⟩ := List.append_of_mem among
  rw [split] at ordered
  rw [ClassBody.text, String.toList_ofList, ← cuts.text_eq,
    Text.slice_take ordered.split.2.2.le, read]

theorem Cutting.IsCutFrom.le_stop {text : List Char} (cuts : cutting.IsCutFrom text)
    (member : classBody ∈ cutting.bodies) :
    cutting.start ≤ classBody.start ∧ classBody.stop ≤ cutting.stop := by
  obtain ⟨rfl, among⟩ := mem_bodies member
  have ordered := cuts.apart.1
  obtain ⟨front, back, split⟩ := List.append_of_mem among
  rw [split] at ordered
  exact ⟨Nat.le_add_right .., Nat.add_le_add_left ordered.split.2.2.le _⟩

/-! ## Class bodies of the source -/

/-- Class bodies of the source do not overlap. -/
theorem apart_bodies (inOrder : cuttings.Pairwise fun first second => first.stop < second.start)
    (cut : ∀ cutting ∈ cuttings, cutting.IsCutFrom (source.drop cutting.start)) :
    (cuttings.flatMap Cutting.bodies).Pairwise fun first second => first.stop ≤ second.start := by
  refine List.pairwise_flatMap.2 ⟨fun cutting member => ?_, ?_⟩
  · refine pairwise_bodiesFrom (fun earlier span between later behind split => ?_) [] _ rfl
    have ordered := (cut cutting member).apart.1
    rw [split] at ordered
    exact Nat.add_le_add_left ordered.split.2.2.split.1.le _
  · refine inOrder.imp_of_mem fun first second before one inOne two inTwo => ?_
    have high := ((cut _ first).le_stop inOne).2
    have low := ((cut _ second).le_stop inTwo).1
    omega

/-- Two class bodies have different calls. -/
def ClassBody.Differ (first second : ClassBody) : Prop :=
  ∀ one two, first.Owns one → second.Owns two → one.call.expr.number ≠ two.call.expr.number

theorem values_sublist (construct : Construct) :
    construct.values.Sublist construct.detail.trees := by
  rw [Construct.values]
  split
  · rename_i value label shown
    rw [Detail.trees, shown]
    split
    · exact List.filter_sublist
    · exact List.nil_sublist _
  · exact List.nil_sublist _

theorem cutTrees_sublist (body : Body) : body.cutTrees.Sublist body.trees :=
  (List.Sublist.refl _).append (List.Sublist.flatMap_right _ fun construct _ =>
    values_sublist construct)

/-- The statements do not share numbers. -/
theorem nodup_roots (distinct : (numbersOf body.trees).Nodup)
    (roots : ((cuttings.map (·.root.expr)).filter isPresent).Perm body.cutTrees) :
    (numbersOf (cuttings.map (·.root.expr))).Nodup := by
  have same : (numbersOf ((cuttings.map (·.root.expr)).filter isPresent)).Perm
      (numbersOf body.cutTrees) := roots.flatMap_right numbers
  rw [← numbersOf_filter, same.nodup_iff]
  exact distinct.sublist ((cutTrees_sublist body).flatMap numbers)

/-- No two class bodies have the same call. -/
theorem differ_bodies (distinct : (numbersOf body.trees).Nodup)
    (cut : ∀ cutting ∈ cuttings, cutting.IsCutFrom (source.drop cutting.start))
    (roots : ((cuttings.map (·.root.expr)).filter isPresent).Perm body.cutTrees) :
    (cuttings.flatMap Cutting.bodies).Pairwise ClassBody.Differ := by
  have apart := nodup_roots distinct roots
  rw [numbersOf, List.flatMap_map, List.nodup_flatMap] at apart
  obtain ⟨own, disjoint⟩ := apart
  -- a call of a class body has its number in the tree of the statement
  have among {cutting : Cutting} {classBody : ClassBody} {site : Site}
      (member : classBody ∈ cutting.bodies) (owns : classBody.Owns site) :
      site.call.expr ∈ cutting.root.expr.preorder := by
    obtain ⟨rfl, -⟩ := mem_bodies member
    exact (mem_constructions.1 owns.inside).1
  refine List.pairwise_flatMap.2 ⟨fun cutting member => ?_, ?_⟩
  · refine pairwise_bodiesFrom (fun earlier span between later behind split => ?_) [] _ rfl
    rintro one two ownsOne ownsTwo same
    -- in one statement, equal numbers mean the same call, but the calls end at different positions
    have nodup := own cutting member
    rw [numbers] at nodup
    have equal : one.call.expr = two.call.expr :=
      List.inj_on_of_nodup_map nodup (mem_constructions.1 ownsOne.inside).1
        (mem_constructions.1 ownsTwo.inside).1 same
    obtain ⟨first, node, shown, known, ends, -⟩ := ownsOne.follows
    obtain ⟨second, other, alsoShown, alsoKnown, alsoEnds, -⟩ := ownsTwo.follows
    rw [equal] at known
    obtain rfl := Option.some.inj (known.symm.trans alsoKnown)
    have further := front_lt (cut cutting member) split shown alsoShown
    omega
  · refine disjoint.imp fun separate one inOne two inTwo => ?_
    rintro site other ownsOne ownsTwo same
    exact separate (List.mem_map_of_mem (among inOne ownsOne))
      (same ▸ List.mem_map_of_mem (among inTwo ownsTwo))

/-! ## Types -/

theorem liftFrom_makes (body : Body) (stems : List String) (sites : List Site) :
    List.Forall₂ Site.Makes sites (liftFrom body stems sites) := by
  induction sites generalizing stems with
  | nil => exact .nil
  | cons site rest induction => exact .cons ⟨rfl, rfl, rfl⟩ (induction _)

theorem exists_mem_of_forall₂ {α β : Type} {belongs : α → β → Prop} {first : List α}
    {second : List β} (pairs : List.Forall₂ belongs first second) {entry : β}
    (member : entry ∈ second) : ∃ source ∈ first, belongs source entry := by
  induction pairs with
  | nil => contradiction
  | cons head tail induction =>
      rcases List.mem_cons.1 member with rfl | later
      · exact ⟨_, List.mem_cons_self .., head⟩
      · obtain ⟨source, inside, related⟩ := induction later
        exact ⟨source, List.mem_cons_of_mem _ inside, related⟩

/-- What holds of any two entries carries over to the entries that belong to them. -/
theorem pairwise_of_forall₂ {α β : Type} {belongs : α → β → Prop} {left : α → α → Prop}
    {right : β → β → Prop} {first : List α} {second : List β}
    (pairs : List.Forall₂ belongs first second) (holds : first.Pairwise left)
    (carries : ∀ a b c d, left a b → belongs a c → belongs b d → right c d) :
    second.Pairwise right := by
  induction pairs with
  | nil => exact .nil
  | cons head tail induction =>
      obtain ⟨before, later⟩ := List.pairwise_cons.1 holds
      refine .cons (fun entry member => ?_) (induction later)
      obtain ⟨source, inside, related⟩ := exists_mem_of_forall₂ tail member
      exact carries _ _ _ _ (before source inside) head related

/-- With different calls, a number finds a type exactly when it is that of the call of the type. -/
theorem liftedAt?_eq_some_iff (distinct : body.lifted.toList.Pairwise fun first second =>
      first.call.expr.number ≠ second.call.expr.number)
    (present : ∀ lifted ∈ body.lifted.toList, lifted.call.expr.isPresent = true) (node : Node)
    (id : Nat) :
    body.liftedAt? node = some id ↔
      ∃ lifted, body.lifted[id]? = some lifted ∧ lifted.call.expr.number = node.id := by
  let holds (id : Nat) : Bool :=
    (body.lifted[id]?.bind fun lifted => lifted.call.expr.node?).any fun own => own.id == node.id
  have holds_iff (id : Nat) : holds id = true ↔
      ∃ lifted, body.lifted[id]? = some lifted ∧ lifted.call.expr.number = node.id := by
    cases known : body.lifted[id]? with
    | none => simp [holds, known]
    | some lifted =>
        have among : lifted ∈ body.lifted.toList := (Array.mem_of_getElem? known).val
        obtain ⟨own, shown⟩ := isPresent_iff.1 (present lifted among)
        simp [holds, known, shown, number_of_node? shown]
  have once {id other : Nat} (first : holds id = true) (second : holds other = true) :
      id = other := by
    obtain ⟨one, oneKnown, oneSame⟩ := (holds_iff id).1 first
    obtain ⟨two, twoKnown, twoSame⟩ := (holds_iff other).1 second
    obtain ⟨inside, rfl⟩ := Array.getElem?_eq_some_iff.1 oneKnown
    obtain ⟨alsoInside, rfl⟩ := Array.getElem?_eq_some_iff.1 twoKnown
    have apart := List.pairwise_iff_getElem.1 distinct
    rcases Nat.lt_trichotomy id other with before | same | behind
    · exact absurd (oneSame.trans twoSame.symm) (apart id other inside alsoInside before)
    · exact same
    · exact absurd (twoSame.trans oneSame.symm) (apart other id alsoInside inside behind)
  rw [← holds_iff]
  constructor
  · exact fun found => List.find?_some found
  · intro here
    obtain ⟨lifted, known, -⟩ := (holds_iff id).1 here
    have listed : id ∈ (List.range body.lifted.size).reverse :=
      List.mem_reverse.2 (List.mem_range.2 (Array.getElem?_eq_some_iff.1 known).1)
    cases found : body.liftedAt? node with
    | none => exact absurd here (List.find?_eq_none.1 found id listed)
    | some other => rw [once here (List.find?_some found)]

/-- The call of a type stands in a statement that was cut out. -/
theorem exists_cutTree {sites : List Site} {types : List Lifted} {lifted : Lifted}
    (roots : ((cuttings.map (·.root.expr)).filter isPresent).Perm body.cutTrees)
    (owned : List.Forall₂ ClassBody.Owns (cuttings.flatMap Cutting.bodies) sites)
    (makes : List.Forall₂ Site.Makes sites types) (member : lifted ∈ types) :
    ∃ tree ∈ body.cutTrees, lifted.call.expr ∈ tree.preorder := by
  obtain ⟨site, noted, made⟩ := exists_mem_of_forall₂ makes member
  obtain ⟨classBody, among, owns⟩ := exists_mem_of_forall₂ owned noted
  obtain ⟨cutting, listed, inside⟩ := List.mem_flatMap.1 among
  obtain ⟨rfl, -⟩ := mem_bodies inside
  have member := (mem_constructions.1 owns.inside).1
  rw [made.call]
  refine ⟨classBody.cutting.root.expr, roots.mem_iff.1 ?_, member⟩
  refine List.mem_filter.2 ⟨List.mem_map_of_mem listed, ?_⟩
  cases shown : classBody.cutting.root.expr with
  | absent => simp [shown, preorder] at member
  | _ => rfl

/-- What is known of the statements that were cut out makes the types those of the class bodies. -/
theorem Reader.Chronicle.lifts {reader : Reader}
    (chronicle : Reader.Chronicle source cuttings reader)
    (distinct : (numbersOf reader.body.trees).Nodup) : reader.body.lift.Lifts source cuttings := by
  have makes : List.Forall₂ Site.Makes reader.body.sites.toList reader.body.lift.lifted.toList :=
    liftFrom_makes reader.body [] reader.body.sites.toList
  have calls : reader.body.lift.lifted.toList.Pairwise fun first second =>
      first.call.expr.number ≠ second.call.expr.number := by
    have sites : reader.body.sites.toList.Pairwise fun first second =>
        first.call.expr.number ≠ second.call.expr.number :=
      pairwise_of_forall₂ chronicle.sites (differ_bodies distinct chronicle.cut chronicle.roots)
        fun _ _ one two differ => differ one two
    refine pairwise_of_forall₂ makes sites fun one two first second apart made alsoMade => ?_
    rw [made.call, alsoMade.call]
    exact apart
  -- the call of a type stands in a tree of the body
  have placed : ∀ lifted ∈ reader.body.lift.lifted.toList, ∃ tree ∈ reader.body.trees,
      lifted.call.expr ∈ tree.preorder := by
    intro lifted member
    obtain ⟨tree, cut, inside⟩ := exists_cutTree chronicle.roots chronicle.sites makes member
    exact ⟨tree, (cutTrees_sublist reader.body).subset cut, inside⟩
  refine
    { inOrder := chronicle.inOrder
      cut := chronicle.cut
      roots := chronicle.roots
      apart := apart_bodies chronicle.inOrder chronicle.cut
      braced := fun classBody member => ?_
      sites := chronicle.sites
      lifted := makes
      distinct := calls
      found := fun tree known expr inside node own id => ?_ }
  · obtain ⟨cutting, listed, inside⟩ := List.mem_flatMap.1 member
    exact (chronicle.cut cutting listed).braced inside
  · rw [liftedAt?_eq_some_iff calls]
    · refine exists_congr fun lifted => and_congr_right fun here => ?_
      have member : lifted ∈ reader.body.lift.lifted.toList := (Array.mem_of_getElem? here).val
      obtain ⟨other, knownOther, insideOther⟩ := placed lifted member
      rw [← number_of_node? own]
      exact ⟨eq_of_number distinct known inside knownOther insideOther, congrArg number⟩
    · intro lifted member
      obtain ⟨tree, -, inside⟩ := placed lifted member
      exact isPresent_of_mem_preorder inside

end

/-- **Lifting.**  In a body that is read successfully, every class body of an expression statement
or of the value of a `return` or `throw` becomes one type, at the constructor call that it stands
behind. -/
theorem Body.ofLines_lifts {context : Context} {options : Options}
    {lines : List String} {body : Body} (read : Body.ofLines context options lines = .ok body) :
    ∃ cuttings, body.Lifts (" ".intercalate lines).toList cuttings := by
  have distinct := (Body.ofLines_forest read).distinct
  obtain ⟨reader, cuttings, chronicle, rfl⟩ := Body.ofLines_chronicle read
  exact ⟨cuttings, chronicle.lifts distinct⟩

/-- Two class bodies in one declaration, one of them inside the arguments of the other's call, and
one in a value over two lines. -/
theorem Body.ofLines_lifts_nested :
    ∃ body cuttings, Body.ofLines {} {} ["A a = new A(new E<T>() \x7b é; \x7d) \x7b x \x7d, b;",
        "return new q.R()", "\x7b \x7d;"] = .ok body ∧
      body.lifted.toList.map (fun lifted => (lifted.baseType, lifted.body)) =
        [("E", "\x7b é; \x7d"), ("A", "\x7b x \x7d"), ("q.R", "\x7b \x7d")] ∧
      body.Lifts (" ".intercalate ["A a = new A(new E<T>() \x7b é; \x7d) \x7b x \x7d, b;",
        "return new q.R()", "\x7b \x7d;"]).toList cuttings := by
  have runs : ((Body.ofLines {} {} ["A a = new A(new E<T>() \x7b é; \x7d) \x7b x \x7d, b;",
      "return new q.R()", "\x7b \x7d;"]).toOption.map fun body =>
        body.lifted.toList.map fun lifted => (lifted.baseType, lifted.body)) =
      some [("E", "\x7b é; \x7d"), ("A", "\x7b x \x7d"), ("q.R", "\x7b \x7d")] := by decide +kernel
  revert runs
  cases read : Body.ofLines {} {} ["A a = new A(new E<T>() \x7b é; \x7d) \x7b x \x7d, b;",
      "return new q.R()", "\x7b \x7d;"] with
  | error failure => exact nofun
  | ok body =>
      intro made
      obtain ⟨cuttings, lifts⟩ := Body.ofLines_lifts read
      exact ⟨body, cuttings, rfl, Option.some.inj made, lifts⟩

end MethodLowering
