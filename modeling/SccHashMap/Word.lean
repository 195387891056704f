import Mathlib.Data.Nat.Bitwise

/-!
# Machine words and debug-build arithmetic

The sources run on 64-bit targets: `usize` and `u64` are words below `2 ^ 64`.  The arithmetic
they perform is checked as in a debug build: an operator whose exact result does not fit in its
type panics, with the message the compiler gives it.  A computation that may panic is a
`Checked` value, `.ok` with its result or `.error` with the panic message.

* `checkedAdd`, `checkedSub`, `checkedMul`, `checkedDiv`, `checkedShl`, `checkedShr` are the
  operators `+ - * / << >>` on words of a given width; a left shift keeps the low bits, and
  only a shift by the width or more panics.
* `leadingZeros` and `nextPowerOfTwo` are `usize::leading_zeros` and
  `usize::next_power_of_two` of the standard library, the latter as the library computes it:
  `usize::MAX >> (x - 1).leading_zeros()`, plus one.
* `nextPowerOfTwo_eq`: below `2 ^ 63` it never panics and returns the least power of two that
  is not below its argument.
-/

namespace SccHashMap

/-- The width of `usize` and `u64`. -/
abbrev usizeBits : Nat := 64

/-- `usize::MAX`. -/
def usizeMax : Nat := 2 ^ usizeBits - 1

theorem usizeMax_eq : usizeMax = 2 ^ 64 - 1 := rfl

theorem two_pow_usizeBits : 2 ^ usizeBits = 2 ^ 64 := rfl

/-- A computation of a debug build: its value, or the message it panics with. -/
abbrev Checked := Except String

instance {α : Type} [DecidableEq α] : DecidableEq (Checked α)
  | .ok a, .ok b => decidable_of_iff (a = b) ⟨fun h => h ▸ rfl, fun h => by cases h; rfl⟩
  | .error a, .error b => decidable_of_iff (a = b) ⟨fun h => h ▸ rfl, fun h => by cases h; rfl⟩
  | .ok _, .error _ => isFalse fun h => by cases h
  | .error _, .ok _ => isFalse fun h => by cases h

@[simp] theorem Checked.ok_bind {α β : Type} (a : α) (f : α → Checked β) :
    (Except.ok a >>= f) = f a := rfl

@[simp] theorem Checked.error_bind {α β : Type} (e : String) (f : α → Checked β) :
    (Except.error e >>= f) = Except.error e := rfl

/-- `a + b` on `w`-bit words. -/
def checkedAdd (w a b : Nat) : Checked Nat :=
  if a + b < 2 ^ w then .ok (a + b) else .error "attempt to add with overflow"

/-- `a - b` on unsigned words. -/
def checkedSub (a b : Nat) : Checked Nat :=
  if b ≤ a then .ok (a - b) else .error "attempt to subtract with overflow"

/-- `a * b` on `w`-bit words. -/
def checkedMul (w a b : Nat) : Checked Nat :=
  if a * b < 2 ^ w then .ok (a * b) else .error "attempt to multiply with overflow"

/-- `a / b` on unsigned words. -/
def checkedDiv (a b : Nat) : Checked Nat :=
  if b = 0 then .error "attempt to divide by zero" else .ok (a / b)

/-- `a << s` on `w`-bit words: the bits shifted out are lost, a shift by `w` or more panics. -/
def checkedShl (w a s : Nat) : Checked Nat :=
  if s < w then .ok (a <<< s % 2 ^ w) else .error "attempt to shift left with overflow"

/-- `a >> s` on `w`-bit words. -/
def checkedShr (w a s : Nat) : Checked Nat :=
  if s < w then .ok (a >>> s) else .error "attempt to shift right with overflow"

/-- A `debug_assert!`: it panics with the text of the condition when the condition fails. -/
def debugAssert (c : Bool) (msg : String) : Checked Unit :=
  if c then .ok () else .error msg

section Lemmas

variable {w a b s : Nat}

theorem checkedAdd_of_lt (h : a + b < 2 ^ w) : checkedAdd w a b = .ok (a + b) := if_pos h

theorem checkedAdd_of_le (h : 2 ^ w ≤ a + b) :
    checkedAdd w a b = .error "attempt to add with overflow" := if_neg (by omega)

theorem checkedSub_of_le (h : b ≤ a) : checkedSub a b = .ok (a - b) := if_pos h

theorem checkedSub_of_lt (h : a < b) :
    checkedSub a b = .error "attempt to subtract with overflow" := if_neg (by omega)

theorem checkedMul_of_lt (h : a * b < 2 ^ w) : checkedMul w a b = .ok (a * b) := if_pos h

theorem checkedDiv_of_pos (h : 0 < b) : checkedDiv a b = .ok (a / b) := if_neg (by omega)

theorem checkedShl_of_lt (h : s < w) : checkedShl w a s = .ok (a <<< s % 2 ^ w) := if_pos h

theorem checkedShl_of_le (h : w ≤ s) :
    checkedShl w a s = .error "attempt to shift left with overflow" := if_neg (by omega)

/-- `1 << s` loses no bit below the width. -/
theorem checkedShl_one (h : s < w) : checkedShl w 1 s = .ok (2 ^ s) := by
  rw [checkedShl_of_lt h, Nat.one_shiftLeft,
    Nat.mod_eq_of_lt (Nat.pow_lt_pow_right (by decide) h)]

theorem checkedShr_of_lt (h : s < w) : checkedShr w a s = .ok (a >>> s) := if_pos h

@[simp] theorem debugAssert_true (msg : String) : debugAssert true msg = .ok () := rfl

end Lemmas

/-! ### Leading zeros -/

/-- The zero bits of `x` from bit `i - 1` down to its highest set bit. -/
def leadingZerosBelow : Nat → Nat → Nat
  | 0, _ => 0
  | i + 1, x => if x.testBit i then 0 else leadingZerosBelow i x + 1

/-- `usize::leading_zeros`. -/
def leadingZeros (x : Nat) : Nat := leadingZerosBelow usizeBits x

/-- Below `2 ^ i`, the zeros above the highest set bit are `i - 1 - log2 x`. -/
theorem leadingZerosBelow_eq {x : Nat} (hx : 0 < x) :
    ∀ {i}, x < 2 ^ i → leadingZerosBelow i x = i - 1 - x.log2
  | 0, h => by simp at h; omega
  | i + 1, h => by
    have hlog : x.log2 < i + 1 := (Nat.log2_lt (by omega)).2 h
    by_cases hb : x.testBit i
    · have : i ≤ x.log2 := (Nat.le_log2 (by omega)).2 (Nat.testBit_implies_ge hb)
      simp only [leadingZerosBelow, hb, if_true]
      omega
    · have hlt : x < 2 ^ i := by
        simp only [Nat.testBit_to_div_mod, decide_eq_true_eq] at hb
        have : x / 2 ^ i < 2 := by
          rw [Nat.div_lt_iff_lt_mul (Nat.two_pow_pos i)]; rw [Nat.pow_succ] at h; omega
        rw [← Nat.div_eq_zero_iff (Nat.two_pow_pos i)]
        generalize x / 2 ^ i = t at *
        omega
      have : x.log2 < i := (Nat.log2_lt (by omega)).2 hlt
      simp only [leadingZerosBelow, hb, Bool.false_eq_true, if_false, leadingZerosBelow_eq hx hlt]
      omega

theorem leadingZeros_eq {x : Nat} (hx : 0 < x) (h : x < 2 ^ 64) :
    leadingZeros x = 63 - x.log2 :=
  leadingZerosBelow_eq hx h

/-! ### `next_power_of_two` -/

/-- `usize::next_power_of_two`: `one_less_than_next_power_of_two(x) + 1`, where that is `0` for
`x ≤ 1` and `usize::MAX >> (x - 1).leading_zeros()` otherwise. -/
def nextPowerOfTwo (x : Nat) : Checked Nat :=
  checkedAdd usizeBits (if x ≤ 1 then 0 else usizeMax >>> leadingZeros (x - 1)) 1

/-- The exponent of the least power of two that is not below `x`. -/
def ceilLog2 (x : Nat) : Nat := if x ≤ 1 then 0 else (x - 1).log2 + 1

theorem two_pow_sub_one_shiftRight {n j : Nat} (h : j ≤ n) :
    (2 ^ n - 1) >>> j = 2 ^ (n - j) - 1 := by
  rw [Nat.shiftRight_eq_div_pow]
  have hp : 2 ^ n = 2 ^ (n - j) * 2 ^ j := by rw [← Nat.pow_add, Nat.sub_add_cancel h]
  have h1 := Nat.two_pow_pos j
  have h2 := Nat.two_pow_pos (n - j)
  apply Nat.div_eq_of_lt_le
  · rw [hp, Nat.sub_mul, Nat.one_mul]; omega
  · rw [Nat.sub_add_cancel h2, ← hp]; have := Nat.two_pow_pos n; omega

theorem le_two_pow_ceilLog2 (x : Nat) : x ≤ 2 ^ ceilLog2 x := by
  unfold ceilLog2
  split
  · simp; omega
  · have := @Nat.lt_log2_self (x - 1); omega

theorem ceilLog2_le {x j : Nat} (h : x ≤ 2 ^ j) : ceilLog2 x ≤ j := by
  unfold ceilLog2
  split
  · omega
  · have : (x - 1).log2 < j := (Nat.log2_lt (by omega)).2 (by omega)
    omega

/-- **`next_power_of_two` below `2 ^ 63`**: no panic, and the least power of two not below `x`. -/
theorem nextPowerOfTwo_eq {x : Nat} (h : x ≤ 2 ^ 63) :
    nextPowerOfTwo x = .ok (2 ^ ceilLog2 x) := by
  have hc : ceilLog2 x ≤ 63 := ceilLog2_le h
  have hv : (if x ≤ 1 then 0 else usizeMax >>> leadingZeros (x - 1)) + 1 = 2 ^ ceilLog2 x := by
    unfold ceilLog2
    split
    · rfl
    · have hlog : (x - 1).log2 < 63 := (Nat.log2_lt (by omega)).2 (by omega)
      rw [leadingZeros_eq (by omega) (by omega), usizeMax, usizeBits,
        two_pow_sub_one_shiftRight (by omega), show 64 - (63 - (x - 1).log2) = (x - 1).log2 + 1
          by omega, Nat.sub_add_cancel (Nat.one_le_two_pow)]
  unfold nextPowerOfTwo
  rw [checkedAdd_of_lt, hv]
  rw [hv, usizeBits]
  exact Nat.pow_lt_pow_right (by decide) (by omega)

end SccHashMap
