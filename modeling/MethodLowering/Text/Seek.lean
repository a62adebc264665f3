/-!
# Seeking positions

Bounded searches over neighbouring positions, upwards and downwards.  The number of positions that
may still be visited is the recursion argument.
-/

namespace MethodLowering
namespace Text

/-- First position from `start` on that satisfies `stops`; after `count` positions without one,
the position behind them. -/
@[specialize]
def seek (stops : Nat → Bool) (start : Nat) : Nat → Nat
  | 0 => start
  | count + 1 => if stops start then start else seek stops (start + 1) count

/-- First of `count` positions from `start` on that satisfies `wanted`. -/
@[specialize]
def seek? (wanted : Nat → Bool) (start : Nat) : Nat → Option Nat
  | 0 => none
  | count + 1 => if wanted start then some start else seek? wanted (start + 1) count

/-- Walk down from `stop` while the position below does not satisfy `stops`, at most `count`
steps. -/
@[specialize]
def seekDown (stops : Nat → Bool) (stop : Nat) : Nat → Nat
  | 0 => stop
  | count + 1 => if stops (stop - 1) then stop else seekDown stops (stop - 1) count

theorem le_seek (stops : Nat → Bool) (start count : Nat) : start ≤ seek stops start count := by
  induction count generalizing start with
  | zero => exact Nat.le_refl start
  | succ count induction =>
      unfold seek
      split
      · exact Nat.le_refl start
      · exact Nat.le_trans (Nat.le_succ start) (induction (start + 1))

theorem seek_le (stops : Nat → Bool) (start count : Nat) :
    seek stops start count ≤ start + count := by
  induction count generalizing start with
  | zero => exact Nat.le_refl start
  | succ count induction =>
      unfold seek
      split
      · omega
      · have := induction (start + 1)
        omega

theorem seekDown_le (stops : Nat → Bool) (stop count : Nat) : seekDown stops stop count ≤ stop := by
  induction count generalizing stop with
  | zero => exact Nat.le_refl stop
  | succ count induction =>
      unfold seekDown
      split
      · exact Nat.le_refl stop
      · exact Nat.le_trans (induction (stop - 1)) (Nat.sub_le stop 1)

theorem le_seekDown (stops : Nat → Bool) (stop count : Nat) :
    stop - count ≤ seekDown stops stop count := by
  induction count generalizing stop with
  | zero => exact Nat.le_refl stop
  | succ count induction =>
      unfold seekDown
      split
      · exact Nat.sub_le _ _
      · have := induction (stop - 1)
        omega

end Text
end MethodLowering
