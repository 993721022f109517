/-
Roip/Lib/Clock.lean

A millisecond counter of 32 bits.

Time is a natural number and never stops; the counter shows it modulo
`2 ^ 32` (`clk`).  The difference of two readings is the time between them
modulo `2 ^ 32`: it is never too large, and it is exact as long as less than
`2 ^ 32` ms have passed.
-/
import Mathlib.Algebra.Group.Nat.Defs
import Mathlib.Tactic.Common

namespace Roip

/-- What the counter shows at time `t`. -/
def clk (t : Nat) : UInt32 := UInt32.ofNat t

/-- The difference of two readings. -/
theorem clk_sub {s t : Nat} (h : s ≤ t) :
    (clk t - clk s).toNat = (t - s) % 2 ^ 32 := by
  rw [clk, clk, UInt32.toNat_sub, UInt32.toNat_ofNat', UInt32.toNat_ofNat']
  omega

/-- A timer that has run out has really run out. -/
theorem lt_of_lt_clk_sub {s t : Nat} {d : UInt32} (h : s ≤ t)
    (hd : d < clk t - clk s) : d.toNat < t - s := by
  have hlt := UInt32.lt_iff_toNat_lt.mp hd
  rw [clk_sub h] at hlt
  exact Nat.lt_of_lt_of_le hlt (Nat.mod_le _ _)

/-- A timer is exact while the counter has not come round. -/
theorem lt_clk_sub_iff {s t : Nat} {d : UInt32} (h : s ≤ t)
    (hwrap : t - s < 2 ^ 32) : d < clk t - clk s ↔ d.toNat < t - s := by
  rw [UInt32.lt_iff_toNat_lt, clk_sub h, Nat.mod_eq_of_lt hwrap]

/-- The difference of two readings does not depend on where the counter
starts. -/
theorem clk_shift (a b d : UInt32) : a + d - (b + d) = a - b := by
  grind

end Roip
