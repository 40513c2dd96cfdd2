import Mathlib

/-! Arithmetic in machine words, checked: a computation stops at an overflow, a difference below
zero, a division by zero and a shift past the width. -/

namespace Molt.Checked

def fits (width n : ℕ) : Option ℕ := if n < 2 ^ width then some n else none

def minus (a b : ℕ) : Option ℕ := if b ≤ a then some (a - b) else none

def quotient (a b : ℕ) : Option ℕ := if b = 0 then none else some (a / b)

def remainder (a b : ℕ) : Option ℕ := if b = 0 then none else some (a % b)

section
variable {width : ℕ}

def shiftLeft (word : BitVec width) (b : ℕ) : Option (BitVec width) :=
  if b < width then some (word <<< b) else none

def shiftRight (word : BitVec width) (b : ℕ) : Option (BitVec width) :=
  if b < width then some (word >>> b) else none

theorem shiftLeft_eq {word : BitVec width} {b : ℕ} (h : b < width) : shiftLeft word b = some (word <<< b) := if_pos h

theorem shiftRight_eq {word : BitVec width} {b : ℕ} (h : b < width) : shiftRight word b = some (word >>> b) :=
  if_pos h

end

theorem fits_eq {width n : ℕ} (h : n < 2 ^ width) : fits width n = some n := if_pos h

theorem minus_eq {a b : ℕ} (h : b ≤ a) : minus a b = some (a - b) := if_pos h

theorem quotient_eq {a b : ℕ} (h : 0 < b) : quotient a b = some (a / b) := if_neg h.ne'

theorem remainder_eq {a b : ℕ} (h : 0 < b) : remainder a b = some (a % b) := if_neg h.ne'

end Molt.Checked
