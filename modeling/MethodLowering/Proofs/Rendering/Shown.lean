import MethodLowering.Proofs.Reader.Tour
import MethodLowering.Rendering.Statement

/-!
# Every statement is written

The steps of a construct contain those of its bodies.  Along the references of a finished body the
steps of the whole body therefore contain those of every statement.
-/

namespace MethodLowering

namespace Rendering

section

variable {rendering : Rendering} {lines : ParagraphId → List Page.Step} {id : ParagraphId}

theorem infix_nested (inner : List Page.Step) : inner <:+: Page.nested inner :=
  List.infix_append [Page.Step.indent] inner [Page.Step.outdent]

/-- What is nested behind a header stands among the steps. -/
theorem infix_headed (header : Page.Step) (inner back : List Page.Step) :
    inner <:+: header :: Page.nested inner ++ back :=
  List.infix_append_of_infix_left (List.infix_cons (infix_nested inner))

theorem shown_branch {branches : List Branch} (isFirst : Bool)
    (member : id ∈ branches.map (·.body)) :
    lines id <:+: rendering.branchLines lines isFirst branches := by
  induction branches generalizing isFirst with
  | nil => contradiction
  | cons branch rest induction =>
      rcases List.mem_cons.1 member with rfl | later
      · exact infix_headed ..
      · exact List.infix_cons (List.infix_append_of_infix_right (induction false later))

theorem shown_handler {handlers : List Handler} (member : id ∈ handlers.map (·.body)) :
    lines id <:+: rendering.handlerLines lines handlers := by
  induction handlers with
  | nil => contradiction
  | cons handler rest induction =>
      rcases List.mem_cons.1 member with rfl | later
      · exact infix_headed ..
      · exact List.infix_cons (List.infix_append_of_infix_right (induction later))

theorem shown_guarded {guarded : ParagraphId} {handlers : List Handler}
    (member : id ∈ guarded :: handlers.map (·.body)) :
    lines id <:+: rendering.guardedLines lines guarded handlers := by
  unfold guardedLines
  rcases List.mem_cons.1 member with rfl | handled
  · split
    · exact List.infix_refl _
    · exact infix_headed ..
  · split
    · rename_i none
      rw [List.isEmpty_iff.1 none] at handled
      contradiction
    · exact List.infix_cons (List.infix_append_of_infix_right (shown_handler handled))

/-- A construct shows its bodies. -/
theorem shown_detail {keyword : Keyword} {detail : Detail} (member : id ∈ detail.bodies) :
    lines id <:+: rendering.detailLines lines keyword detail := by
  cases detail with
  | conditional branches => exact shown_branch true member
  | doLoop body condition =>
      obtain rfl := List.mem_singleton.1 member
      exact infix_headed ..
  | tryBlock guarded handlers cleanup =>
      have split : id ∈ guarded :: handlers.map (·.body) ∨ cleanup = some id := by
        rcases List.mem_cons.1 member with rfl | others
        · exact .inl (List.mem_cons_self ..)
        · rcases List.mem_append.1 others with handled | last
          · exact .inl (List.mem_cons_of_mem _ (Detail.mem_of_mem_handlerBodies handled))
          · exact .inr (Option.mem_toList.1 last)
      cases cleanup with
      | none =>
          rcases split with guarded | none
          · exact shown_guarded guarded
          · contradiction
      | some cleanup =>
          unfold detailLines cleanupLines
          refine List.IsInfix.trans ?_ (infix_headed ..)
          rcases split with guarded | last
          · exact List.infix_cons (List.infix_append_of_infix_right
              (List.infix_cons (shown_guarded guarded)))
          · obtain rfl := Option.some.inj last
            exact infix_headed ..
  | jump value label => contradiction
  | caseLabel value => contradiction
  | defaultLabel => contradiction
  | unread => contradiction
  | _ =>
      obtain rfl := List.mem_singleton.1 member
      exact infix_headed ..

theorem shown_item {item : Item} (member : id ∈ rendering.body.targets item) :
    lines id <:+: rendering.itemLines lines item := by
  cases item with
  | empty => contradiction
  | expression root => contradiction
  | block inner =>
      obtain rfl := List.mem_singleton.1 member
      exact List.infix_append_of_infix_left (List.infix_append_of_infix_right
        (List.infix_cons (infix_nested _)))
  | construct inner =>
      unfold itemLines
      simp only [Body.targets] at member
      dsimp only
      split
      · rename_i construct known
        rw [known, Option.toList_some, List.flatMap_singleton] at member
        exact List.infix_append_of_infix_right (shown_detail member)
      · rename_i missing
        simp [missing] at member

/-- A paragraph shows its statements. -/
theorem shown_statement {nesting : Nat} {paragraph : Paragraph} {item : Item}
    (known : rendering.body.paragraphs[id]? = some paragraph) (member : item ∈ paragraph.items) :
    rendering.itemLines (rendering.paragraphFrom nesting) item <:+:
      rendering.paragraphFrom (nesting + 1) id := by
  unfold paragraphFrom
  rw [known]
  obtain ⟨front, back, split⟩ := List.append_of_mem (Array.mem_toList_iff.2 member)
  dsimp only
  rw [split, List.flatMap_append, List.flatMap_cons]
  refine List.infix_append_of_infix_right (List.infix_append_of_infix_left ?_)
  split
  · exact infix_nested _
  · exact List.infix_refl _

/-- A paragraph shows those that its statements refer to. -/
theorem shown_slot {nesting : Nat} {place : ParagraphId}
    (member : id ∈ rendering.body.slots place) :
    rendering.paragraphFrom nesting id <:+: rendering.paragraphFrom (nesting + 1) place := by
  obtain ⟨paragraph, known, inside⟩ := List.mem_flatMap.1 member
  obtain ⟨item, among, target⟩ := List.mem_flatMap.1 inside
  exact (shown_item target).trans
    (shown_statement (Option.mem_toList.1 known) (Array.mem_toList_iff.1 among))

/-- The method body shows every paragraph, with as many levels left as are needed. -/
theorem shown_paragraph (wellFormed : rendering.body.WellFormed) {id left nesting : Nat}
    (inside : id < rendering.body.paragraphs.size) (enough : id + left ≤ nesting) :
    ∃ remaining, left ≤ remaining ∧
      rendering.paragraphFrom remaining id <:+: rendering.paragraphFrom nesting Body.root := by
  induction id using Nat.strongRecOn generalizing left with
  | ind id induction =>
      have known := Array.getElem?_eq_getElem inside
      by_cases first : id = Body.root
      · subst first
        exact ⟨nesting, Nat.le_trans (Nat.le_add_left ..) enough, List.infix_refl _⟩
      · obtain ⟨parent, below, once⟩ := wellFormed.count_slots known first
        obtain ⟨remaining, more, shown⟩ := @induction parent below (left + 1)
          (Nat.lt_trans below inside) (by omega)
        obtain ⟨remaining, rfl⟩ := Nat.exists_eq_add_one_of_ne_zero (Nat.ne_zero_of_lt more)
        have slot : id ∈ rendering.body.slots parent := by
          rw [← List.count_pos_iff, once parent, if_pos rfl]
          exact Nat.one_pos
        exact ⟨remaining, Nat.le_of_succ_le_succ more, (shown_slot slot).trans shown⟩

/-- **Writing.**  The steps of the method body show those of every statement. -/
theorem shown_root (wellFormed : rendering.body.WellFormed) {paragraph : Paragraph} {item : Item}
    (known : paragraph ∈ rendering.body.paragraphs) (member : item ∈ paragraph.items) :
    ∃ nesting, rendering.itemLines (rendering.paragraphFrom nesting) item <:+:
      rendering.paragraphLines Body.root := by
  obtain ⟨id, inside, rfl⟩ := Array.mem_iff_getElem.1 known
  obtain ⟨remaining, more, shown⟩ := @shown_paragraph rendering wellFormed id 1
    rendering.body.paragraphs.size inside inside
  obtain ⟨nesting, rfl⟩ := Nat.exists_eq_add_one_of_ne_zero (Nat.ne_zero_of_lt more)
  exact ⟨nesting, (shown_statement (Array.getElem?_eq_getElem inside) member).trans shown⟩

end
end Rendering
end MethodLowering
