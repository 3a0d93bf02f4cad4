import Mathlib.Algebra.Ring.Nat

/-!
# Codex — machine sizes

`usize` on the 64-bit targets, for code that counts up to its bound or saturates there.
-/

namespace Codex

def usizeMax : Nat := 2 ^ 64 - 1

namespace Usize

def saturatingAdd (a b : Nat) : Nat := min (a + b) usizeMax

theorem saturatingAdd_of_le {a b : Nat} (h : a + b ≤ usizeMax) : saturatingAdd a b = a + b :=
  Nat.min_eq_left h

end Usize

end Codex
