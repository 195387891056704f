import SccHashMap.Word
import Mathlib.Order.Bounds.Basic

/-!
# `map::array::Array`: sizing and routing

`Array::new(capacity, old_array)` allocates `2 ^ lb_capacity` cells (`metadata_array`) and
`ARRAY_SIZE` key-value slots per cell (`entry_array`), where `lb_capacity` is computed by
`calculate_lb_metadata_array_size`; `calculate_metadata_array_index` routes a hash to the cell
named by its top `lb_capacity` bits.

* `calculateLbMetadataArraySize_isLeast`: for every capacity, `lb_capacity` is the least
  `lb ≥ 1` with `2 ^ lb * ARRAY_SIZE` at least the clamped capacity; it is at most `63` and no
  step of the computation, nor the product `(1 << lb) * ARRAY_SIZE`, panics.
* `calculateMetadataArrayIndex_split`: for two arrays, the index in the smaller one is the
  index in the larger one shifted right by the difference of their sizes, so a cell of the
  smaller array covers `2 ^ d` consecutive cells of the larger one.
* `new_wellFormed`, `WellFormed.index_inBounds`, `new_route_inBounds`: up to
  `lb_capacity = 30`, the array has the shape `num_cells` describes, and every routed index and
  every slot of its cell is in bounds.
* `new_metadataArray_short`: from `lb_capacity = 31` on, it has not.  The first push loop
  counts to `1 << lb_capacity` on an `i32` (nothing else fixes the type of the literal), so
  it pushes no cell at all for `lb_capacity = 31` and panics on the shift from `32` on.
-/

namespace SccHashMap

/-- `cell::ARRAY_SIZE`, the number of key-value slots of a cell.  It is a `u8` constant of
`cell.rs`, which is not part of the sources; the code divides by it, so it is not zero. -/
structure ArraySize where
  val : Nat
  pos : 0 < val
  lt : val < 2 ^ 8

/-- The 32 slots per cell the spec gives. -/
def arraySize32 : ArraySize := ⟨32, by decide, by decide⟩

/-- `map::array::Array`, over the cell type `C` (`Cell<K, V>`), the key-value pair type `E`
and the pointer type `P` of `old_array`. -/
structure Array (C E P : Type) where
  /-- `metadata_array: Vec<Cell<K, V>>`. -/
  metadataArray : List C
  /-- `entry_array: Vec<MaybeUninit<(K, V)>>`; `none` is an uninitialised slot. -/
  entryArray : List (Option E)
  /-- `lb_capacity: u8`. -/
  lbCapacity : Nat
  /-- `rehashing: AtomicUsize`. -/
  rehashing : Nat
  /-- `old_array: Atomic<Array<K, V>>`. -/
  oldArray : P

variable (arraySize : ArraySize) {C E P : Type}

/-- `(1 << lb_capacity) * (ARRAY_SIZE as usize)` on `usize`. -/
def entryArrayLen (lbCapacity : Nat) : Checked Nat := do
  checkedMul usizeBits (← checkedShl usizeBits 1 lbCapacity) arraySize.val

/-- `Array::calculate_lb_metadata_array_size`; `std::mem::size_of::<usize>() * 8` is
`usizeBits`. -/
def calculateLbMetadataArraySize (capacity : Nat) : Checked Nat := do
  let adjustedCapacity :=
    min capacity (← checkedSub (usizeMax / 2) (← checkedSub arraySize.val 1))
  let requiredCells ← nextPowerOfTwo (← checkedDiv
    (← checkedAdd usizeBits adjustedCapacity (← checkedSub arraySize.val 1)) arraySize.val)
  let lbCapacity :=
    max (← checkedSub (← checkedSub usizeBits (leadingZeros requiredCells)) 1) 1
  debugAssert (0 < lbCapacity) "assertion failed: lb_capacity > 0"
  debugAssert (lbCapacity < usizeBits)
    "assertion failed: lb_capacity < (std::mem::size_of::<usize>() * 8)"
  debugAssert (adjustedCapacity ≤ (← entryArrayLen arraySize lbCapacity))
    "assertion failed: (1 << lb_capacity) * (ARRAY_SIZE as usize) >= adjusted_capacity"
  if lbCapacity < 2 ^ 8 then .ok lbCapacity
  else .error "called `Result::unwrap()` on an `Err` value: TryFromIntError(())"

/-- The number of turns of `for _ in 0..(1 << lb_capacity)`.  The literal is an `i32` there,
so the shift panics from `32` on, and `1 << 31` is `i32::MIN`, a negative bound: the range is
empty. -/
def i32RangeOneShl (s : Nat) : Checked Nat := do
  let bits ← checkedShl 32 1 s
  .ok (if bits < 2 ^ 31 then bits else 0)

/-- `for _ in 0..n { v.push(x) }`. -/
def pushRepeat {α : Type} (v : List α) (x : α) : Nat → List α
  | 0 => v
  | n + 1 => pushRepeat (v ++ [x]) x n

/-- `Array::new`.  The two `Vec::with_capacity` calls only reserve memory; their size
arithmetic is kept for its panics. -/
def Array.new [Inhabited C] (capacity : Nat) (oldArray : P) : Checked (Array C E P) := do
  let lbCapacity ← calculateLbMetadataArraySize arraySize capacity
  let _ ← checkedShl usizeBits 1 lbCapacity
  let _ ← entryArrayLen arraySize lbCapacity
  let cells ← i32RangeOneShl lbCapacity
  let entries ← entryArrayLen arraySize lbCapacity
  .ok { metadataArray := pushRepeat [] default cells
        entryArray := pushRepeat [] none entries
        lbCapacity := lbCapacity
        rehashing := 0
        oldArray := oldArray }

/-- `Array::get_cell`. -/
def Array.getCell (a : Array C E P) (index : Nat) : Checked C :=
  match a.metadataArray[index]? with
  | some c => .ok c
  | none => .error "index out of bounds"

/-- `Array::get_key_value_pair`: the slot behind the returned pointer. -/
def Array.getKeyValuePair (a : Array C E P) (index : Nat) : Checked (Option E) :=
  match a.entryArray[index]? with
  | some e => .ok e
  | none => .error "index out of bounds"

/-- `Array::num_cells`. -/
def Array.numCells (a : Array C E P) : Checked Nat := checkedShl usizeBits 1 a.lbCapacity

/-- `Array::get_old_array`. -/
def Array.getOldArray (a : Array C E P) : P := a.oldArray

/-- `Array::calculate_metadata_array_index`: `64 - lb_capacity` is a `u8` subtraction, and the
conversion of the `u64` result to `usize` cannot fail on a 64-bit target. -/
def Array.calculateMetadataArrayIndex (a : Array C E P) (hash : Nat) : Checked Nat := do
  checkedShr usizeBits hash (← checkedSub 64 a.lbCapacity)

/-- The shape `Array::new` is meant to give: `2 ^ lb_capacity` cells, `1 ≤ lb_capacity ≤ 63`,
and `ARRAY_SIZE` slots per cell. -/
structure Array.WellFormed (a : Array C E P) : Prop where
  lbCapacity_pos : 1 ≤ a.lbCapacity
  lbCapacity_lt : a.lbCapacity < 64
  metadataArray_length : a.metadataArray.length = 2 ^ a.lbCapacity
  entryArray_length : a.entryArray.length = 2 ^ a.lbCapacity * arraySize.val

/-! ### The size of the array -/

/-- The capacity `calculate_lb_metadata_array_size` sizes the array for: `capacity`, clamped
so that the ceiling division below cannot overflow. -/
def adjustedCapacity (capacity : Nat) : Nat :=
  min capacity (usizeMax / 2 - (arraySize.val - 1))

/-- The cells the clamped capacity needs, `⌈adjusted_capacity / ARRAY_SIZE⌉`, before rounding
up to a power of two. -/
def neededCells (capacity : Nat) : Nat :=
  (adjustedCapacity arraySize capacity + (arraySize.val - 1)) / arraySize.val

/-- The `lb_capacity` the function computes, in closed form. -/
def lbOf (capacity : Nat) : Nat := max (ceilLog2 (neededCells arraySize capacity)) 1

theorem usizeMax_div_two : usizeMax / 2 = 2 ^ 63 - 1 := by decide

section Size

variable {arraySize} {capacity : Nat}

theorem arraySize_lt : arraySize.val < 2 ^ 63 := lt_trans arraySize.lt (by decide)

theorem adjustedCapacity_eq :
    adjustedCapacity arraySize capacity = min capacity (2 ^ 63 - arraySize.val) := by
  have := arraySize.pos
  rw [adjustedCapacity, usizeMax_div_two]
  congr 1
  omega

theorem adjustedCapacity_le : adjustedCapacity arraySize capacity ≤ 2 ^ 63 - arraySize.val := by
  rw [adjustedCapacity_eq]; exact min_le_right _ _

/-- The ceiling division of the code, bounded on both sides. -/
theorem neededCells_mul_bounds :
    adjustedCapacity arraySize capacity ≤ neededCells arraySize capacity * arraySize.val ∧
      neededCells arraySize capacity * arraySize.val ≤
        adjustedCapacity arraySize capacity + (arraySize.val - 1) := by
  have hmod := Nat.mod_lt (adjustedCapacity arraySize capacity + (arraySize.val - 1))
    arraySize.pos
  have hdm := Nat.div_add_mod (adjustedCapacity arraySize capacity + (arraySize.val - 1))
    arraySize.val
  rw [Nat.mul_comm] at hdm
  exact ⟨by unfold neededCells; omega, Nat.div_mul_le_self _ _⟩

theorem neededCells_le : neededCells arraySize capacity ≤ 2 ^ 63 :=
  le_trans (Nat.div_le_self _ _) (by
    have := @adjustedCapacity_le arraySize capacity; have := @arraySize_lt arraySize; omega)

theorem one_le_lbOf : 1 ≤ lbOf arraySize capacity := le_max_right _ _

theorem adjustedCapacity_le_lbOf :
    adjustedCapacity arraySize capacity ≤ 2 ^ lbOf arraySize capacity * arraySize.val :=
  le_trans neededCells_mul_bounds.1 (Nat.mul_le_mul_right _ (le_trans (le_two_pow_ceilLog2 _)
    (Nat.pow_le_pow_right (by decide) (le_max_left _ _))))

/-- The product `(1 << lb_capacity) * ARRAY_SIZE` fits in a `usize`. -/
theorem two_pow_lbOf_mul_lt : 2 ^ lbOf arraySize capacity * arraySize.val < 2 ^ 64 := by
  have h2 := (@neededCells_mul_bounds arraySize capacity).2
  have hadj := @adjustedCapacity_le arraySize capacity
  have hA := arraySize.lt
  rcases Nat.lt_or_ge (ceilLog2 (neededCells arraySize capacity)) 2 with hc | hc
  · have : lbOf arraySize capacity ≤ 1 := max_le (by omega) le_rfl
    calc 2 ^ lbOf arraySize capacity * arraySize.val
        ≤ 2 ^ 1 * 2 ^ 8 := Nat.mul_le_mul (Nat.pow_le_pow_right (by decide) this) hA.le
      _ < 2 ^ 64 := by decide
  · generalize hq : neededCells arraySize capacity = q at *
    have hlb : lbOf arraySize capacity = ceilLog2 q := by rw [lbOf, hq]; exact max_eq_left (by omega)
    -- by minimality of the power of two, `2 ^ (lb - 1) < q`
    have hlt : 2 ^ (ceilLog2 q - 1) < q := by
      by_contra hlt
      have := ceilLog2_le (Nat.le_of_not_lt hlt)
      omega
    have hpow : 2 ^ ceilLog2 q = 2 * 2 ^ (ceilLog2 q - 1) := by
      rw [← Nat.pow_succ']; congr 1; omega
    have : 2 ^ ceilLog2 q * arraySize.val < 2 * (q * arraySize.val) := by
      rw [hpow, Nat.mul_assoc]
      exact Nat.mul_lt_mul_of_pos_left (Nat.mul_lt_mul_of_pos_right hlt arraySize.pos) (by decide)
    have := @arraySize_lt arraySize
    rw [hlb, show (2 : Nat) ^ 64 = 2 * 2 ^ 63 by decide]
    omega

theorem lbOf_lt : lbOf arraySize capacity < 64 := by
  by_contra h
  have : 2 ^ 64 ≤ 2 ^ lbOf arraySize capacity := Nat.pow_le_pow_right (by decide) (by omega)
  have := @two_pow_lbOf_mul_lt arraySize capacity
  have := Nat.le_mul_of_pos_right (2 ^ lbOf arraySize capacity) arraySize.pos
  omega

/-- No `lb ≥ 1` below `lb_capacity` has room for the clamped capacity. -/
theorem lbOf_le_of_le {l : Nat} (hl : 1 ≤ l)
    (h : adjustedCapacity arraySize capacity ≤ 2 ^ l * arraySize.val) :
    lbOf arraySize capacity ≤ l := by
  refine max_le (ceilLog2_le ?_) hl
  have := arraySize.pos
  rw [neededCells, ← Nat.lt_succ_iff, Nat.div_lt_iff_lt_mul arraySize.pos, Nat.succ_mul]
  omega

theorem entryArrayLen_lbOf :
    entryArrayLen arraySize (lbOf arraySize capacity) =
      .ok (2 ^ lbOf arraySize capacity * arraySize.val) := by
  rw [entryArrayLen, checkedShl_one lbOf_lt, Checked.ok_bind]
  exact checkedMul_of_lt two_pow_lbOf_mul_lt

/-- The spec lemma of `calculate_lb_metadata_array_size`: no step panics, and the result is
`lbOf`. -/
theorem calculateLbMetadataArraySize_eq :
    calculateLbMetadataArraySize arraySize capacity = .ok (lbOf arraySize capacity) := by
  have hA := arraySize.pos
  have hadj := @adjustedCapacity_le arraySize capacity
  have hq := @neededCells_le arraySize capacity
  have hc := ceilLog2_le hq
  have hlz : leadingZeros (2 ^ ceilLog2 (neededCells arraySize capacity)) =
      63 - ceilLog2 (neededCells arraySize capacity) := by
    rw [leadingZeros_eq (Nat.two_pow_pos _) (Nat.pow_lt_pow_right (by decide) (by omega)),
      Nat.log2_two_pow]
  have hlb : max (64 - (63 - ceilLog2 (neededCells arraySize capacity)) - 1) 1 =
      lbOf arraySize capacity := by
    rw [lbOf]; congr 1; omega
  have h1 := @one_le_lbOf arraySize capacity
  have h2 := @lbOf_lt arraySize capacity
  have := @arraySize_lt arraySize
  -- step by step through the computation; each check passes
  unfold calculateLbMetadataArraySize
  rw [checkedSub_of_le (show 1 ≤ arraySize.val from hA), Checked.ok_bind,
    checkedSub_of_le (show arraySize.val - 1 ≤ usizeMax / 2 by rw [usizeMax_div_two]; omega),
    Checked.ok_bind, ← adjustedCapacity.eq_1]
  dsimp only
  rw [Checked.ok_bind, checkedAdd_of_lt (show adjustedCapacity arraySize capacity +
      (arraySize.val - 1) < 2 ^ 64 by omega), Checked.ok_bind, checkedDiv_of_pos hA,
    Checked.ok_bind, ← neededCells.eq_1, nextPowerOfTwo_eq hq, Checked.ok_bind, hlz,
    checkedSub_of_le (show 63 - ceilLog2 (neededCells arraySize capacity) ≤ 64 by omega),
    Checked.ok_bind, checkedSub_of_le (show 1 ≤ 64 - (63 - ceilLog2 (neededCells arraySize
      capacity)) by omega), Checked.ok_bind, hlb,
    decide_eq_true (show 0 < lbOf arraySize capacity by omega), debugAssert_true,
    Checked.ok_bind, decide_eq_true h2, debugAssert_true, Checked.ok_bind, entryArrayLen_lbOf,
    Checked.ok_bind, decide_eq_true adjustedCapacity_le_lbOf, debugAssert_true, Checked.ok_bind,
    if_pos (show lbOf arraySize capacity < 2 ^ 8 by omega)]

/-- **`calculate_lb_metadata_array_size` is exact and cannot panic.**  For every capacity it
returns the least `lb ≥ 1` with `2 ^ lb * ARRAY_SIZE` at least the clamped capacity; that `lb`
is at most `63`, and `1 << lb` and `(1 << lb) * ARRAY_SIZE` do not overflow. -/
theorem calculateLbMetadataArraySize_isLeast (capacity : Nat) :
    ∃ lb, calculateLbMetadataArraySize arraySize capacity = .ok lb ∧
      IsLeast {l | 1 ≤ l ∧
        min capacity (usizeMax / 2 - (arraySize.val - 1)) ≤ 2 ^ l * arraySize.val} lb ∧
      lb ≤ 63 ∧ checkedShl usizeBits 1 lb = .ok (2 ^ lb) ∧
      entryArrayLen arraySize lb = .ok (2 ^ lb * arraySize.val) :=
  ⟨lbOf arraySize capacity, calculateLbMetadataArraySize_eq,
    ⟨⟨one_le_lbOf, adjustedCapacity_le_lbOf⟩, fun _ hl => lbOf_le_of_le hl.1 hl.2⟩,
    Nat.lt_succ_iff.1 lbOf_lt, checkedShl_one lbOf_lt, entryArrayLen_lbOf⟩

/-- The least `lb` is pinned down by the capacity it has room for. -/
theorem lbOf_eq {l : Nat} (hl : 1 ≤ l) (h : adjustedCapacity arraySize capacity ≤ 2 ^ l * arraySize.val)
    (h' : 2 ^ (l - 1) * arraySize.val < adjustedCapacity arraySize capacity) :
    lbOf arraySize capacity = l := by
  refine le_antisymm (lbOf_le_of_le hl h) (Nat.le_of_not_lt fun hlt => ?_)
  have : 2 ^ lbOf arraySize capacity ≤ 2 ^ (l - 1) := Nat.pow_le_pow_right (by decide) (by omega)
  have := Nat.mul_le_mul_right arraySize.val this
  have := @adjustedCapacity_le_lbOf arraySize capacity
  omega

end Size

/-! ### Building the array -/

theorem pushRepeat_eq {α : Type} (v : List α) (x : α) (n : Nat) :
    pushRepeat v x n = v ++ List.replicate n x := by
  induction n generalizing v with
  | zero => simp [pushRepeat]
  | succ n ih => simp [pushRepeat, ih, List.replicate_succ]

theorem i32RangeOneShl_of_lt {s : Nat} (h : s < 31) : i32RangeOneShl s = .ok (2 ^ s) := by
  rw [i32RangeOneShl, checkedShl_one (by omega), Checked.ok_bind,
    if_pos (Nat.pow_lt_pow_right (by decide) h)]

theorem i32RangeOneShl_thirtyOne : i32RangeOneShl 31 = .ok 0 := by decide

theorem i32RangeOneShl_of_le {s : Nat} (h : 32 ≤ s) :
    i32RangeOneShl s = .error "attempt to shift left with overflow" := by
  rw [i32RangeOneShl, checkedShl_of_le h, Checked.error_bind]

section Build

variable [Inhabited C]

/-- `Array::new` once `calculate_lb_metadata_array_size` has returned `lb`. -/
theorem new_eq_bind {capacity : Nat} (oldArray : P) :
    (Array.new arraySize capacity oldArray : Checked (Array C E P)) =
      (do
        let cells ← i32RangeOneShl (lbOf arraySize capacity)
        .ok { metadataArray := List.replicate cells default
              entryArray := List.replicate (2 ^ lbOf arraySize capacity * arraySize.val) none
              lbCapacity := lbOf arraySize capacity
              rehashing := 0
              oldArray := oldArray }) := by
  simp only [Array.new, calculateLbMetadataArraySize_eq, checkedShl_one lbOf_lt, Checked.ok_bind,
    entryArrayLen_lbOf, pushRepeat_eq, List.nil_append]

theorem new_lbCapacity {capacity : Nat} {oldArray : P} {a : Array C E P}
    (h : Array.new arraySize capacity oldArray = .ok a) : a.lbCapacity = lbOf arraySize capacity := by
  rw [new_eq_bind] at h
  cases hc : i32RangeOneShl (lbOf arraySize capacity) with
  | error e => rw [hc, Checked.error_bind] at h; cases h
  | ok cells => rw [hc, Checked.ok_bind] at h; cases h; rfl

/-- Up to `lb_capacity = 30` (a capacity up to `2 ^ 30 * ARRAY_SIZE`), `Array::new` gives
the array its shape. -/
theorem new_wellFormed {capacity : Nat} (h : capacity ≤ 2 ^ 30 * arraySize.val) (oldArray : P) :
    ∃ a : Array C E P, Array.new arraySize capacity oldArray = .ok a ∧ a.WellFormed arraySize := by
  have hlb : lbOf arraySize capacity < 31 :=
    Nat.lt_succ_of_le (lbOf_le_of_le (by decide) (le_trans (min_le_left _ _) h))
  rw [new_eq_bind, i32RangeOneShl_of_lt hlb, Checked.ok_bind]
  exact ⟨_, rfl, ⟨one_le_lbOf, lbOf_lt, List.length_replicate _ _, List.length_replicate _ _⟩⟩

/-- From `lb_capacity = 31` on, the first push loop of `Array::new` counts on an `i32`: for a
capacity of `2 ^ 31 * ARRAY_SIZE` it pushes no cell although `num_cells()` is `2 ^ 31`, and for
`2 ^ 32 * ARRAY_SIZE` the shift `1 << lb_capacity` panics. -/
theorem new_metadataArray_short (oldArray : P) :
    (∃ a : Array C E P, Array.new arraySize (2 ^ 31 * arraySize.val) oldArray = .ok a ∧
      a.metadataArray = [] ∧ a.numCells = .ok (2 ^ 31)) ∧
    (Array.new arraySize (2 ^ 32 * arraySize.val) oldArray : Checked (Array C E P)) =
      .error "attempt to shift left with overflow" := by
  have hA := arraySize.pos
  have hA' := arraySize.lt
  have hadj : ∀ l, l ≤ 32 → adjustedCapacity arraySize (2 ^ l * arraySize.val) =
      2 ^ l * arraySize.val := fun l hl => by
    rw [adjustedCapacity_eq, min_eq_left]
    have := Nat.mul_le_mul (Nat.pow_le_pow_right (n := 2) (by decide) hl) hA'.le
    have : (2 : Nat) ^ 32 * 2 ^ 8 + 2 ^ 8 ≤ 2 ^ 63 := by decide
    omega
  have hlb : ∀ l, 1 ≤ l → l ≤ 32 → lbOf arraySize (2 ^ l * arraySize.val) = l := fun l h1 h2 =>
    lbOf_eq h1 (hadj l h2).le (by
      rw [hadj l h2]
      exact Nat.mul_lt_mul_of_pos_right (Nat.pow_lt_pow_right (by decide) (by omega)) hA)
  refine ⟨?_, ?_⟩
  · rw [new_eq_bind, hlb 31 (by decide) (by decide), i32RangeOneShl_thirtyOne, Checked.ok_bind]
    exact ⟨_, rfl, rfl, checkedShl_one (show 31 < usizeBits by decide)⟩
  · rw [new_eq_bind, hlb 32 (by decide) le_rfl, i32RangeOneShl_of_le le_rfl, Checked.error_bind]

end Build

/-! ### Routing a hash to a cell -/

/-- For `1 ≤ lb_capacity ≤ 64`, the index is the top `lb_capacity` bits of the hash; the shift
amount `64 - lb_capacity` is below `64`, so it does not panic. -/
theorem calculateMetadataArrayIndex_eq {a : Array C E P} (h1 : 1 ≤ a.lbCapacity)
    (h2 : a.lbCapacity ≤ 64) (hash : Nat) :
    a.calculateMetadataArrayIndex hash = .ok (hash >>> (64 - a.lbCapacity)) := by
  rw [Array.calculateMetadataArrayIndex, checkedSub_of_le h2, Checked.ok_bind,
    checkedShr_of_lt (show 64 - a.lbCapacity < 64 by omega)]

theorem shiftRight_lt_two_pow {hash l : Nat} (h : hash < 2 ^ 64) (hl : l ≤ 64) :
    hash >>> (64 - l) < 2 ^ l := by
  rw [Nat.shiftRight_eq_div_pow, Nat.div_lt_iff_lt_mul (Nat.two_pow_pos _), ← Nat.pow_add,
    Nat.add_sub_cancel' hl]
  exact h

/-- Dropping `d` more low bits groups `2 ^ d` consecutive indices into one. -/
theorem shiftRight_eq_iff {x d i : Nat} : x >>> d = i ↔ i * 2 ^ d ≤ x ∧ x < (i + 1) * 2 ^ d := by
  rw [Nat.shiftRight_eq_div_pow, ← Nat.le_div_iff_mul_le (Nat.two_pow_pos d),
    ← Nat.div_lt_iff_lt_mul (Nat.two_pow_pos d)]
  omega

/-- In a well-formed array every hash of 64 bits is routed to an existing cell, and the
`ARRAY_SIZE` entry slots of that cell exist too. -/
theorem Array.WellFormed.index_inBounds {a : Array C E P} (ha : a.WellFormed arraySize)
    {hash : Nat} (h : hash < 2 ^ 64) :
    ∃ i, a.calculateMetadataArrayIndex hash = .ok i ∧ a.numCells = .ok (2 ^ a.lbCapacity) ∧
      i < 2 ^ a.lbCapacity ∧ (∃ c, a.getCell i = .ok c) ∧
      ∀ j < arraySize.val, ∃ e, a.getKeyValuePair (i * arraySize.val + j) = .ok e := by
  have hi := shiftRight_lt_two_pow h ha.lbCapacity_lt.le
  refine ⟨_, calculateMetadataArrayIndex_eq ha.lbCapacity_pos ha.lbCapacity_lt.le hash,
    checkedShl_one ha.lbCapacity_lt, hi, ?_, fun j hj => ?_⟩
  · rw [Array.getCell, List.getElem?_eq_getElem (by rw [ha.metadataArray_length]; exact hi)]
    exact ⟨_, rfl⟩
  · have : (hash >>> (64 - a.lbCapacity) + 1) * arraySize.val ≤
        2 ^ a.lbCapacity * arraySize.val := Nat.mul_le_mul_right _ hi
    rw [Array.getKeyValuePair, List.getElem?_eq_getElem (by
      rw [ha.entryArray_length, Nat.succ_mul] at *; omega)]
    exact ⟨_, rfl⟩

/-- **`Array::new` routes every hash in bounds**: up to a capacity of `2 ^ 30 * ARRAY_SIZE`,
`Array::new(capacity, old_array)` succeeds, and for every 64-bit hash
`calculate_metadata_array_index` returns an index below `num_cells()` at which `get_cell` and
the `get_key_value_pair` of each of the cell's `ARRAY_SIZE` slots succeed. -/
theorem new_route_inBounds [Inhabited C] {capacity : Nat} (h : capacity ≤ 2 ^ 30 * arraySize.val)
    (oldArray : P) {hash : Nat} (hh : hash < 2 ^ 64) :
    ∃ a : Array C E P, Array.new arraySize capacity oldArray = .ok a ∧
      ∃ i, a.calculateMetadataArrayIndex hash = .ok i ∧ a.numCells = .ok (2 ^ a.lbCapacity) ∧
        i < 2 ^ a.lbCapacity ∧ (∃ c, a.getCell i = .ok c) ∧
        ∀ j < arraySize.val, ∃ e, a.getKeyValuePair (i * arraySize.val + j) = .ok e :=
  let ⟨a, ha, hw⟩ := new_wellFormed arraySize h oldArray
  ⟨a, ha, hw.index_inBounds arraySize hh⟩

/-- `HashMap::default`'s capacity of 64 on 32-slot cells, and the hash `2 ^ 64 - 1`, routed to
the last cell. -/
theorem new_route_inBounds_default :
    64 ≤ 2 ^ 30 * arraySize32.val ∧ 2 ^ 64 - 1 < 2 ^ 64 ∧
      ∃ a : Array Unit Unit Unit, Array.new arraySize32 64 () = .ok a ∧
        ∃ i, a.calculateMetadataArrayIndex (2 ^ 64 - 1) = .ok i ∧
          a.numCells = .ok (2 ^ a.lbCapacity) ∧ i < 2 ^ a.lbCapacity ∧
          (∃ c, a.getCell i = .ok c) ∧
          ∀ j < arraySize32.val, ∃ e, a.getKeyValuePair (i * arraySize32.val + j) = .ok e :=
  ⟨by decide, by decide, new_route_inBounds arraySize32 (by decide) () (by decide)⟩

/-- **Routing by the top bits splits and merges cells cleanly.**  For two arrays built by
`Array::new` with `a.lb_capacity ≤ b.lb_capacity`, the index of a hash in `a` is its index in
`b` shifted right by `d = b.lb_capacity - a.lb_capacity`; both indices grow with the hash; and
cell `i` of `a` receives exactly the hashes that `b` routes to its cells
`i * 2 ^ d .. (i + 1) * 2 ^ d - 1`. -/
theorem calculateMetadataArrayIndex_split [Inhabited C] {capacityA capacityB : Nat} {oldA oldB : P}
    {a b : Array C E P} (ha : Array.new arraySize capacityA oldA = .ok a)
    (hb : Array.new arraySize capacityB oldB = .ok b) (hab : a.lbCapacity ≤ b.lbCapacity) :
    ∃ indexA indexB : Nat → Nat,
      (∀ hash, a.calculateMetadataArrayIndex hash = .ok (indexA hash) ∧
        b.calculateMetadataArrayIndex hash = .ok (indexB hash)) ∧
      (∀ hash, indexA hash = indexB hash >>> (b.lbCapacity - a.lbCapacity)) ∧
      Monotone indexA ∧ Monotone indexB ∧
      ∀ hash i, indexA hash = i ↔ i * 2 ^ (b.lbCapacity - a.lbCapacity) ≤ indexB hash ∧
        indexB hash < (i + 1) * 2 ^ (b.lbCapacity - a.lbCapacity) := by
  have ha1 : 1 ≤ a.lbCapacity := new_lbCapacity arraySize ha ▸ one_le_lbOf
  have hb2 : b.lbCapacity < 64 := new_lbCapacity arraySize hb ▸ lbOf_lt
  have hsplit : ∀ hash, hash >>> (64 - a.lbCapacity) =
      hash >>> (64 - b.lbCapacity) >>> (b.lbCapacity - a.lbCapacity) := fun hash => by
    rw [← Nat.shiftRight_add]; congr 1; omega
  have hmono : ∀ l, Monotone fun hash : Nat => hash >>> (64 - l) := fun l x y hxy => by
    simp only [Nat.shiftRight_eq_div_pow]; exact Nat.div_le_div_right hxy
  refine ⟨_, _, fun hash => ⟨calculateMetadataArrayIndex_eq ha1 (by omega) hash,
    calculateMetadataArrayIndex_eq (by omega) (by omega) hash⟩, hsplit, hmono _, hmono _,
    fun hash i => ?_⟩
  rw [hsplit]
  exact shiftRight_eq_iff

/-- Arrays of 32-slot cells for 64 and 2048 entries: `lb_capacity` is 1 and 6. -/
theorem calculateMetadataArrayIndex_split_64_2048 :
    ∃ a b : Array Unit Unit Unit, Array.new arraySize32 64 () = .ok a ∧
      Array.new arraySize32 2048 () = .ok b ∧ a.lbCapacity ≤ b.lbCapacity ∧
      ∃ indexA indexB : Nat → Nat,
        (∀ hash, a.calculateMetadataArrayIndex hash = .ok (indexA hash) ∧
          b.calculateMetadataArrayIndex hash = .ok (indexB hash)) ∧
        (∀ hash, indexA hash = indexB hash >>> (b.lbCapacity - a.lbCapacity)) ∧
        Monotone indexA ∧ Monotone indexB ∧
        ∀ hash i, indexA hash = i ↔ i * 2 ^ (b.lbCapacity - a.lbCapacity) ≤ indexB hash ∧
          indexB hash < (i + 1) * 2 ^ (b.lbCapacity - a.lbCapacity) :=
  ⟨_, _, rfl, rfl, by decide,
    @calculateMetadataArrayIndex_split arraySize32 Unit Unit Unit _ 64 2048 () () _ _ rfl rfl
      (by decide)⟩

end SccHashMap
