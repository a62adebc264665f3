import MethodLowering.Proofs.Text.Growth
import MethodLowering.TypeName

/-!
# Array dimensions

Dimensions that are added to a type come off again.
-/

namespace MethodLowering

namespace TypeName

open Text

/-- So many pairs of square brackets, read backwards. -/
def pairsBackwards : Nat → List Char
  | 0 => []
  | count + 1 => ']' :: '[' :: pairsBackwards count

theorem pairsBackwards_append (count : Nat) (rest : List Char) :
    pairsBackwards count ++ ']' :: '[' :: rest = ']' :: '[' :: (pairsBackwards count ++ rest) := by
  induction count with
  | zero => rfl
  | succ count induction => simp [pairsBackwards, induction]

theorem addDimensions_backwards (name : String) (count : Nat) :
    (addDimensions name count).toList.reverse = pairsBackwards count ++ name.toList.reverse := by
  induction count generalizing name with
  | zero => rfl
  | succ count induction =>
      have pair : (name ++ "[]").toList.reverse = ']' :: '[' :: name.toList.reverse := by simp
      rw [addDimensions, induction, pair, pairsBackwards_append, pairsBackwards, List.cons_append,
        List.cons_append]

theorem trim_backwards (text : List Char) :
    (trim text).reverse = trimStart (trimStart text).reverse := by
  rw [trim, trimEnd, List.reverse_reverse]
  rfl

theorem stripPairs_pair (rest : List Char) :
    stripPairs (']' :: '[' :: rest) =
      ((stripPairs (trimStart rest)).1, (stripPairs (trimStart rest)).2 + 1) := by
  rw [stripPairs]
  split
  · split
    · contradiction
    · next d inner same =>
        obtain ⟨rfl, rfl⟩ := List.cons.inj (show '[' :: rest = d :: inner from same)
        rfl
  · contradiction

/-- All pairs behind an element are taken off. -/
theorem stripPairs_append (count : Nat) (rest : List Char) :
    stripPairs (pairsBackwards (count + 1) ++ rest) =
      ((stripPairs (trimStart rest)).1, (stripPairs (trimStart rest)).2 + (count + 1)) := by
  induction count with
  | zero => exact stripPairs_pair rest
  | succ count induction =>
      have step := stripPairs_pair (pairsBackwards (count + 1) ++ rest)
      rw [show trimStart (pairsBackwards (count + 1) ++ rest) = pairsBackwards (count + 1) ++ rest
        from rfl, induction] at step
      exact step

theorem trim_append_pairs (element : List Char) (count : Nat) :
    (trim (addDimensions (String.ofList element) (count + 1)).toList).reverse =
      pairsBackwards (count + 1) ++ (trimStart element).reverse := by
  have spelled : (addDimensions (String.ofList element) (count + 1)).toList =
      element ++ (pairsBackwards (count + 1)).reverse := by
    rw [← List.reverse_inj, addDimensions_backwards]
    simp
  have opens : (pairsBackwards (count + 1)).reverse =
      '[' :: ']' :: (pairsBackwards count).reverse := by
    have turned := pairsBackwards_append count []
    rw [List.append_nil] at turned
    rw [pairsBackwards, ← turned]
    simp
  have front : trimStart (element ++ (pairsBackwards (count + 1)).reverse) =
      trimStart element ++ (pairsBackwards (count + 1)).reverse := by
    by_cases blank : trimStart element = []
    · rw [trimStart_append_of_blank blank, blank, opens]
      rfl
    · exact trimStart_append_of_solid blank _
  rw [trim_backwards, spelled, front, List.reverse_append, List.reverse_reverse]
  rfl

/-- Added dimensions come off again, and so do those behind the element. -/
theorem strip_addDimensions (element : List Char) (count : Nat) :
    strip (addDimensions (String.ofList element) (count + 1)).toList =
      ((stripPairs (trim element).reverse).1.reverse,
        (stripPairs (trim element).reverse).2 + (count + 1)) := by
  rw [strip, trim_append_pairs, trim_backwards]
  dsimp only
  have pairs := stripPairs_append count (trimStart element).reverse
  rw [pairsBackwards, List.cons_append, List.cons_append] at pairs ⊢
  rw [pairs]
  rfl

/-- An element without dimensions of its own gets as many as are added. -/
theorem dimensions_addDimensions {element : List Char} (plain : dimensions element = 0)
    (count : Nat) :
    dimensions (addDimensions (String.ofList element) count).toList = count := by
  cases count with
  | zero => rw [addDimensions, String.toList_ofList, plain]
  | succ count =>
      have bare : (stripPairs (trim element).reverse).2 = 0 := by
        rw [dimensions, strip] at plain
        dsimp only at plain
        split at plain
        · contradiction
        · exact plain
      rw [dimensions, strip_addDimensions, bare, Nat.zero_add]

theorem classify_addDimensions (extra : List String) (element : List Char) (count : Nat) :
    classify extra (addDimensions (String.ofList element) (count + 1)).toList = .array := by
  rw [classify, strip_addDimensions]
  exact if_pos (bne_iff_ne.2 (Nat.succ_ne_zero _))

end TypeName
end MethodLowering
