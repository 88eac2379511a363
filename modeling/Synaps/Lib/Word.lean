import Mathlib.Algebra.Group.Nat.Defs

/-!
Sums of 64-bit words: one stops at the largest word, one wraps around and one fails.
-/

set_option autoImplicit false

namespace Word

def u64Max : Nat := 2 ^ 64 - 1

def saturatingAdd (a b : Nat) : Nat := min (a + b) u64Max

def wrappingAdd (a b : Nat) : Nat := (a + b) % 2 ^ 64

def checkedAdd (a b : Nat) : Option Nat := if a + b < 2 ^ 64 then some (a + b) else none

theorem checkedAdd_bind (a b c : Nat) : (checkedAdd a b).bind (checkedAdd · c) =
    if a + b + c < 2 ^ 64 then some (a + b + c) else none := by
  unfold checkedAdd
  by_cases h : a + b < 2 ^ 64
  · rw [if_pos h]
    rfl
  · rw [if_neg h,if_neg (by omega)]
    rfl

end Word
