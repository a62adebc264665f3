import MethodLowering.Proofs.Reader.Transitions

/-!
# Names of types made from class bodies

The types of one stem are numbered in their order, the first one apart, so no two of them share a
name.  Types of different stems share one just where the stem of the one is the numbered name of the
other: names are compared with the names of the same stem only.
-/

namespace MethodLowering
namespace Body

/-- The stems of the types of a body, in the order of the types. -/
def stems (body : Body) : List String :=
  body.lifted.toList.map fun lifted => liftedStem lifted.baseType

/-- The stems, each with its number among the equal ones, `seen` included. -/
def numberedStems (seen : List String) : List String → List (String × Nat)
  | [] => []
  | stem :: rest => (stem, seen.count stem + 1) :: numberedStems (stem :: seen) rest

section

variable {seen names : List String} {stem other : String} {count number : Nat}

theorem mem_numberedStems : (stem, count) ∈ numberedStems seen names ↔
    seen.count stem < count ∧ count ≤ seen.count stem + names.count stem := by
  induction names generalizing seen with
  | nil =>
      simp only [numberedStems, List.not_mem_nil, List.count_nil, false_iff]
      omega
  | cons first rest induction =>
      rw [numberedStems, List.mem_cons, Prod.mk.injEq, induction, List.count_cons, List.count_cons]
      by_cases same : stem = first
      · subst same
        simp only [true_and, beq_self_eq_true, if_true]
        omega
      · have differ : (first == stem) = false := beq_eq_false_iff_ne.2 (Ne.symm same)
        simp only [same, false_and, false_or, differ, Bool.false_eq_true, if_false, Nat.add_zero]

theorem nodup_numberedStems (seen names : List String) : (numberedStems seen names).Nodup := by
  induction names generalizing seen with
  | nil => exact .nil
  | cons first rest induction =>
      refine List.nodup_cons.2 ⟨fun again => ?_, induction _⟩
      have further := (mem_numberedStems.1 again).1
      rw [List.count_cons_self] at further
      exact Nat.lt_irrefl _ further

/-! ## Numbered names -/

theorem not_mem_digits (number : Nat) : '_' ∉ (toString number).toList :=
  fun member => absurd (Text.isDigit_of_mem_toString member) (by decide)

/-- Behind its last underscore a text goes on in one way only. -/
theorem eq_nil_of_lastUnderscore {back back' between : List Char} (free : '_' ∉ back)
    (same : '_' :: back = between ++ '_' :: back') : between = [] := by
  cases between with
  | nil => rfl
  | cons first rest =>
      obtain ⟨-, rfl⟩ := List.cons.inj (same.trans (List.cons_append ..))
      exact absurd (List.mem_append_right rest List.mem_cons_self) free

theorem eq_of_lastUnderscore {front front' back back' : List Char} (free : '_' ∉ back)
    (free' : '_' ∉ back') (same : front ++ '_' :: back = front' ++ '_' :: back') :
    front = front' ∧ back = back' := by
  rcases List.append_eq_append_iff.1 same with ⟨between, rfl, rest⟩ | ⟨between, rfl, rest⟩
  · obtain rfl := eq_nil_of_lastUnderscore free rest
    exact ⟨(List.append_nil front).symm, (List.cons.inj rest).2⟩
  · obtain rfl := eq_nil_of_lastUnderscore free' rest
    exact ⟨List.append_nil front', (List.cons.inj rest).2.symm⟩

theorem liftedName_one (stem : String) : liftedName stem 1 = stem := rfl

theorem liftedName_inj (some_ : 2 ≤ count) (more : 2 ≤ number)
    (same : liftedName stem count = liftedName other number) : stem = other ∧ count = number := by
  rw [liftedName, liftedName, if_neg (by omega), if_neg (by omega)] at same
  have texts := congrArg String.toList same
  have mark : "_".toList = ['_'] := rfl
  simp only [String.toList_append, mark, List.append_assoc, List.singleton_append] at texts
  obtain ⟨stems, digits⟩ :=
    eq_of_lastUnderscore (not_mem_digits count) (not_mem_digits number) texts
  exact ⟨String.toList_injective stems, Text.eq_of_toString digits⟩

end

/-! ## All names -/

theorem names_liftFrom (body : Body) (seen : List String) (sites : List Site) :
    (liftFrom body seen sites).map (·.name) =
      (numberedStems seen (sites.map fun site => liftedStem site.baseType)).map fun entry =>
        liftedName entry.1 entry.2 := by
  induction sites generalizing seen with
  | nil => rfl
  | cons site rest induction =>
      rw [liftFrom, List.map_cons, List.map_cons, numberedStems, List.map_cons, induction]

theorem stems_liftFrom (body : Body) (seen : List String) (sites : List Site) :
    (liftFrom body seen sites).map (fun lifted => liftedStem lifted.baseType) =
      sites.map fun site => liftedStem site.baseType := by
  induction sites generalizing seen with
  | nil => rfl
  | cons site rest induction => rw [liftFrom, List.map_cons, List.map_cons, induction]

/-- **Names.**  The types of a body that is read have different names exactly if no stem is the
numbered name of another type. -/
theorem ofLines_names_nodup {context : Context} {options : Options}
    {lines : List String} {body : Body} (read : Body.ofLines context options lines = .ok body) :
    (body.lifted.toList.map (·.name)).Nodup ↔
      ∀ stem ∈ body.stems, ∀ count ≤ body.stems.count stem, 2 ≤ count →
        liftedName stem count ∉ body.stems := by
  obtain ⟨reader, -, -, rfl⟩ := Body.ofLines_reaches read
  have stems : reader.body.lift.stems =
      reader.body.sites.toList.map fun site => liftedStem site.baseType :=
    stems_liftFrom reader.body [] reader.body.sites.toList
  have numbered {stem : String} {count : Nat} :
      (stem, count) ∈ numberedStems [] reader.body.lift.stems ↔
        0 < count ∧ count ≤ reader.body.lift.stems.count stem := by
    rw [mem_numberedStems, List.count_nil, Nat.zero_add]
  have names : reader.body.lift.lifted.toList.map (·.name) =
      (numberedStems [] reader.body.lift.stems).map fun entry => liftedName entry.1 entry.2 := by
    rw [stems]
    exact names_liftFrom reader.body [] reader.body.sites.toList
  rw [names, List.nodup_map_iff_inj_on (nodup_numberedStems [] _)]
  constructor
  · intro distinct stem _ count known some_ taken
    have first := numbered.2 ⟨Nat.lt_of_lt_of_le (by decide) some_, known⟩
    have bare := numbered.2 ⟨Nat.one_pos, List.count_pos_iff.2 taken⟩
    have same := distinct _ first _ bare (liftedName_one _).symm
    have one := (Prod.mk.inj same).2
    omega
  · rintro free ⟨stem, count⟩ first ⟨other, number⟩ second same
    obtain ⟨positive, known⟩ := numbered.1 first
    obtain ⟨alsoPositive, alsoKnown⟩ := numbered.1 second
    -- a numbered name is no stem, so both are numbered or none is
    have bare {stem other : String} {count : Nat} (some_ : 2 ≤ count)
        (known : count ≤ reader.body.lift.stems.count stem)
        (other_ : 0 < reader.body.lift.stems.count other) : liftedName stem count ≠ other := by
      rintro rfl
      have positive : 0 < reader.body.lift.stems.count stem := by omega
      exact free stem (List.count_pos_iff.1 positive) count known some_
        (List.count_pos_iff.1 other_)
    rcases Nat.lt_or_ge count 2 with single | several
    · obtain rfl : count = 1 := by omega
      rcases Nat.lt_or_ge number 2 with alone | more
      · obtain rfl : number = 1 := by omega
        exact congrArg (·, 1) same
      · exact absurd same.symm (bare more alsoKnown (Nat.lt_of_lt_of_le Nat.one_pos known))
    · rcases Nat.lt_or_ge number 2 with alone | more
      · obtain rfl : number = 1 := by omega
        exact absurd same (bare several known (Nat.lt_of_lt_of_le Nat.one_pos alsoKnown))
      · obtain ⟨rfl, rfl⟩ := liftedName_inj several more same
        rfl

/-- A stem used twice, and one that is no numbered name of it. -/
theorem ofLines_names_repeated :
    ∃ body, Body.ofLines {} {} ["f(new F() \x7b\x7d, new F() \x7b\x7d, new F2() \x7b\x7d);"] =
        .ok body ∧ (body.lifted.toList.map (·.name)).Nodup := by
  have runs : ((Body.ofLines {} {}
      ["f(new F() \x7b\x7d, new F() \x7b\x7d, new F2() \x7b\x7d);"]).toOption.map stems) =
      some ["Anonymous_F", "Anonymous_F", "Anonymous_F2"] := by decide +kernel
  revert runs
  cases read : Body.ofLines {} {} ["f(new F() \x7b\x7d, new F() \x7b\x7d, new F2() \x7b\x7d);"] with
  | error failure => exact nofun
  | ok body =>
      intro made
      refine ⟨body, rfl, (ofLines_names_nodup read).2 ?_⟩
      rw [show body.stems = _ from Option.some.inj made]
      decide

/-- A base type that ends in a number, as the second type of another stem does. -/
theorem ofLines_names_collide :
    ((Body.ofLines {} {}
      ["f(new F() \x7b\x7d, new F() \x7b\x7d, new F_2() \x7b\x7d);"]).toOption.map
        fun body => body.lifted.toList.map (·.name)) =
      some ["Anonymous_F", "Anonymous_F_2", "Anonymous_F_2"] := by
  decide +kernel

end Body
end MethodLowering
