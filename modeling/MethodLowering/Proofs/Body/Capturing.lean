import Mathlib.Data.List.Nodup
import MethodLowering.Proofs.Body.Stability

/-!
# What a class body captures

A look-up goes through the variables in sight and stops at the first one of the name.  The captures
of a class body come from a walk of its own through all of them, which remembers the names it has
met.  Both find the same variables, and where the variables in sight come with falling numbers, the
captures are in the order of declaration.
-/

namespace MethodLowering

/-- What a type keeps of a variable. -/
def Variable.capture (entry : Variable) : Capture :=
  { name := entry.name, typeName := entry.typeName, category := entry.category }

namespace Body

/-- The variables in sight: those of the innermost paragraph first, the latest first. -/
def inSight (body : Body) (sight : Sight) : List VariableId :=
  (body.chain sight.scope).flatMap fun paragraph =>
    paragraph.vars.toList.reverse.filter (· < sight.visible)

/-- The variable has this name. -/
def isNamed (body : Body) (name : String) (id : VariableId) : Bool :=
  body.vars[id]?.any fun entry => entry.name == name

/-- The parameter or local that a name stands for. -/
def variableAt? (body : Body) (sight : Sight) (name : String) : Option VariableId :=
  (body.inSight sight).find? (body.isNamed name)

/-- The captures are the final parameters and locals that the text refers to, with what a look-up
tells of them, in the order in which they are declared. -/
structure Captures (body : Body) (sight : Sight) (text : List Char) (captures : List Capture) :
    Prop where
  /-- Captured are the names of the text that stand for a final parameter or local. -/
  names : ∀ name, name ∈ captures.map (·.name) ↔ name ∈ referencedNames text ∧
    ∃ entry, body.lookupAt sight name = some entry ∧ entry.isField = false ∧ entry.isFinal = true
  /-- A capture is what a look-up of its name finds. -/
  values : ∀ capture ∈ captures,
    (body.lookupAt sight capture.name).map Variable.capture = some capture
  once : (captures.map (·.name)).Nodup
  /-- The captured variables have rising numbers. -/
  inOrder : ∃ ids : List VariableId, ids.Pairwise (· < ·) ∧
    captures.map (fun capture => body.variableAt? sight capture.name) = ids.map some

section

variable {body before after : Body} {sight : Sight} {name : String} {id : VariableId}
  {entry : Variable} {referenced : List String}

/-! ## Look-up -/

theorem flatMap_visibleVariables (body : Body) (sight : Sight) :
    (body.chain sight.scope).flatMap (body.visibleVariables sight.visible) =
      (body.inSight sight).filterMap (body.vars[·]?) := by
  rw [inSight, List.filterMap_flatMap]
  exact congrArg (List.flatMap · (body.chain sight.scope))
    (funext fun paragraph => body.visibleVariables_eq sight.visible paragraph)

/-- A look-up finds the first variable in sight that has the name, or else a field. -/
theorem lookupAt_eq (body : Body) (sight : Sight) (name : String) :
    body.lookupAt sight name =
      ((body.variableAt? sight name).bind (body.vars[·]?)).or (body.field? name) := by
  rw [lookupAt, ← List.find?_flatMap, flatMap_visibleVariables, List.find?_filterMap]
  rfl

theorem isNamed_of_variableAt? (found : body.variableAt? sight name = some id) :
    ∃ entry, body.vars[id]? = some entry ∧ entry.name = name := by
  have named : body.isNamed name id = true := List.find?_some found
  rw [isNamed, Option.any_eq_true] at named
  obtain ⟨entry, known, same⟩ := named
  exact ⟨entry, known, eq_of_beq same⟩

theorem isField_of_field? (found : body.field? name = some entry) : entry.isField = true := by
  obtain ⟨place, -, rfl⟩ := Option.map_eq_some_iff.1 found
  rfl

/-- A look-up finds a variable that is no field among those in sight. -/
theorem exists_variableAt?_of_lookupAt (found : body.lookupAt sight name = some entry)
    (isLocal : entry.isField = false) :
    ∃ id, body.variableAt? sight name = some id ∧ body.vars[id]? = some entry := by
  rw [lookupAt_eq] at found
  cases met : body.variableAt? sight name with
  | none =>
      rw [met, Option.bind_none, Option.none_or] at found
      rw [isField_of_field? found] at isLocal
      contradiction
  | some id =>
      obtain ⟨own, known, -⟩ := isNamed_of_variableAt? met
      rw [met, Option.bind_some, known, Option.some_or] at found
      exact ⟨id, rfl, known.trans found⟩

theorem lookupAt_of_variableAt? (met : body.variableAt? sight name = some id)
    (known : body.vars[id]? = some entry) : body.lookupAt sight name = some entry := by
  rw [lookupAt_eq, met, Option.bind_some, known, Option.some_or]

/-- The variables in sight stay the same in an extended body. -/
theorem Extends.inSight (extended : before.Extends after) (descends : before.Descends)
    (fits : sight.Fits before) : after.inSight sight = before.inSight sight := by
  rw [Body.inSight, Body.inSight, List.flatMap_def, List.flatMap_def]
  refine congrArg _ (extended.map_chain descends fits.scope fun paragraph later widens => ?_)
  obtain ⟨-, added, vars, above⟩ := widens
  have hidden : added.reverse.filter (fun id => decide (id < sight.visible)) = [] := by
    rw [List.filter_eq_nil_iff]
    intro id member
    have late := above id (List.mem_reverse.1 member)
    simpa using Nat.le_trans fits.visible late
  rw [vars, List.reverse_append, List.filter_append, hidden, List.nil_append]

/-! ## The walk -/

/-- The variable is the first of its name in sight, is final and is referred to. -/
structure IsPicked (body : Body) (referenced : List String) (ids : List VariableId)
    (id : VariableId) (entry : Variable) : Prop where
  known : body.vars[id]? = some entry
  first : ids.find? (body.isNamed entry.name) = some id
  isFinal : entry.isFinal = true
  refers : entry.name ∈ referenced

/-- Variables of other names do not matter. -/
theorem isPicked_cons {rest : List VariableId} {later : VariableId}
    (apart : body.isNamed entry.name id = false) :
    body.IsPicked referenced (id :: rest) later entry ↔
      body.IsPicked referenced rest later entry := by
  have same : (id :: rest).find? (body.isNamed entry.name) = rest.find? (body.isNamed entry.name) :=
    List.find?_cons_of_neg (by simp [apart])
  exact ⟨fun ⟨known, first, isFinal, refers⟩ => ⟨known, same ▸ first, isFinal, refers⟩,
    fun ⟨known, first, isFinal, refers⟩ => ⟨known, same.symm ▸ first, isFinal, refers⟩⟩

/-- The walk captures the variables that are picked and whose names were not met before, in the
opposite order. -/
theorem captureFrom_picks (body : Body) (referenced seen : List String) (ids : List VariableId) :
    ∃ picked : List (VariableId × Variable),
      (captureFrom referenced seen (ids.filterMap (body.vars[·]?))).1 =
        picked.map (fun pick => pick.2.capture) ∧ (picked.map Prod.fst).Sublist ids.reverse ∧
      ∀ id entry, (id, entry) ∈ picked ↔ body.IsPicked referenced ids id entry ∧
      entry.name ∉ seen := by
  induction ids generalizing seen with
  | nil =>
      exact ⟨[], rfl, .slnil, fun id entry => ⟨nofun, fun isPicked => nomatch isPicked.1.first⟩⟩
  | cons id rest induction =>
      have inFront {picked : List VariableId} (sublist : picked.Sublist rest.reverse) :
          picked.Sublist (id :: rest).reverse := by
        rw [List.reverse_cons]
        exact sublist.trans (List.sublist_append_left ..)
      cases known : body.vars[id]? with
      | none =>
          obtain ⟨picked, captures, sublist, all⟩ := induction seen
          rw [List.filterMap_cons_none known]
          refine ⟨picked, captures, inFront sublist, fun later entry => (all later entry).trans ?_⟩
          rw [isPicked_cons (by simp [isNamed, known])]
      | some entry =>
          rw [List.filterMap_cons_some known, captureFrom]
          have apart (other : Variable) (differ : other.name ≠ entry.name) :
              body.isNamed other.name id = false := by simpa [isNamed, known] using differ.symm
          split
          · rename_i hides
            rw [List.contains_iff_mem] at hides
            obtain ⟨picked, captures, sublist, all⟩ := induction seen
            refine ⟨picked, captures, inFront sublist, fun later other =>
              (all later other).trans (and_congr_left fun fresh => ?_)⟩
            rw [isPicked_cons (apart other fun same => fresh (same ▸ hides))]
          · rename_i fresh
            rw [List.contains_iff_mem] at fresh
            obtain ⟨picked, captures, sublist, all⟩ := induction (entry.name :: seen)
            have met : (id :: rest).find? (body.isNamed entry.name) = some id :=
              List.find?_cons_of_pos (by simp [isNamed, known])
            -- a variable of the name is this one, and any other one is picked from the rest
            have split (later : VariableId) (other : Variable) :
                body.IsPicked referenced (id :: rest) later other ∧ other.name ∉ seen ↔
                  (later, other) ∈ picked ∨ later = id ∧ other = entry ∧ entry.isFinal = true ∧
                    entry.name ∈ referenced := by
              rw [all, List.mem_cons, not_or]
              by_cases same : other.name = entry.name
              · constructor
                · rintro ⟨⟨shown, first, isFinal, refers⟩, -⟩
                  rw [same, met, Option.some.injEq] at first
                  obtain rfl := first
                  obtain rfl := Option.some.inj (shown.symm.trans known)
                  exact .inr ⟨rfl, rfl, isFinal, refers⟩
                · rintro (⟨-, differ, -⟩ | ⟨rfl, rfl, isFinal, refers⟩)
                  · exact absurd same differ
                  · exact ⟨⟨known, met, isFinal, refers⟩, fresh⟩
              · rw [isPicked_cons (apart other same)]
                constructor
                · exact fun ⟨isPicked, new⟩ => .inl ⟨isPicked, same, new⟩
                · rintro (⟨isPicked, -, new⟩ | ⟨-, rfl, -⟩)
                  · exact ⟨isPicked, new⟩
                  · exact absurd rfl same
            dsimp only
            split
            · rename_i wanted
              rw [Bool.and_eq_true, List.contains_iff_mem] at wanted
              refine ⟨picked ++ [(id, entry)], by rw [captures, List.map_append]; rfl, ?_,
                fun later other => ?_⟩
              · rw [List.reverse_cons, List.map_append]
                exact sublist.append (.refl _)
              · rw [split, List.mem_append, List.mem_singleton, Prod.mk.injEq]
                exact or_congr_right ⟨fun ⟨first, second⟩ => ⟨first, second, wanted⟩,
                  fun ⟨first, second, _⟩ => ⟨first, second⟩⟩
            · rename_i unwanted
              rw [Bool.and_eq_true, List.contains_iff_mem] at unwanted
              refine ⟨picked, captures, inFront sublist, fun later other => ?_⟩
              rw [split, or_iff_left]
              exact fun ⟨_, _, wanted⟩ => unwanted wanted

/-- Where the variables in sight have falling numbers and none of them is a field, the captures are
as look-ups say. -/
theorem captures_captures (falling : (body.inSight sight).Pairwise (· > ·))
    (locals : ∀ entry ∈ body.vars, entry.isField = false) (text : List Char) :
    body.Captures sight text (body.captures sight text) := by
  obtain ⟨picked, captures, sublist, all⟩ :=
    captureFrom_picks body (referencedNames text) [] (body.inSight sight)
  rw [← flatMap_visibleVariables] at captures
  change body.captures sight text = _ at captures
  have isPicked {id : VariableId} {entry : Variable} (member : (id, entry) ∈ picked) :
      body.IsPicked (referencedNames text) (body.inSight sight) id entry :=
        ((all id entry).1 member).1
  have numbers :
      (body.captures sight text).map (fun capture => body.variableAt? sight capture.name) =
      (picked.map Prod.fst).map some := by
    rw [captures, List.map_map, List.map_map]
    exact List.map_congr_left fun pick member => (isPicked member).first
  have rising : (picked.map Prod.fst).Pairwise (· < ·) :=
    (List.pairwise_reverse.2 falling).sublist sublist
  refine ⟨fun name => ?_, fun capture member => ?_, ?_, _, rising, numbers⟩
  · rw [captures, List.map_map]
    constructor
    · intro member
      obtain ⟨⟨id, entry⟩, among, rfl⟩ := List.mem_map.1 member
      have pick := isPicked among
      exact ⟨pick.refers, entry, lookupAt_of_variableAt? pick.first pick.known,
        locals entry (Array.mem_of_getElem? pick.known), pick.isFinal⟩
    · rintro ⟨refers, entry, found, isLocal, isFinal⟩
      obtain ⟨id, met, known⟩ := exists_variableAt?_of_lookupAt found isLocal
      obtain ⟨own, shown, rfl⟩ := isNamed_of_variableAt? met
      obtain rfl := Option.some.inj (shown.symm.trans known)
      exact List.mem_map.2 ⟨(id, own),
        (all id own).2 ⟨⟨known, met, isFinal, refers⟩, List.not_mem_nil⟩,
        rfl⟩
  · rw [captures] at member
    obtain ⟨⟨id, entry⟩, among, rfl⟩ := List.mem_map.1 member
    have pick := isPicked among
    exact congrArg _ (lookupAt_of_variableAt? pick.first pick.known)
  · refine List.Nodup.of_map (body.variableAt? sight) ?_
    rw [List.map_map]
    change ((body.captures sight text).map fun capture => body.variableAt? sight capture.name).Nodup
    rw [numbers]
    have distinct : (picked.map Prod.fst).Nodup := rising.imp Nat.ne_of_lt
    exact distinct.map fun _ _ => Option.some.inj

end
end Body
end MethodLowering
