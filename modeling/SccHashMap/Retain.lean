import SccHashMap.HashTable

/-!
# `retain` and `retain_async`

`HashMap::retain` and `HashMap::retain_async` sweep the cells of the map's array in index
order, each under its lock, after driving any pending rehash to its end; `clear`, `for_each`
and their asynchronous variants are `retain` with a fixed filter.  They are modelled as a map
with no other operation in flight sees them: no lock is contended, so `try_lock` never fails,
a yield resumes at once, and the array is replaced only by the `resize` at the end.  Their
unbounded loops take `fuel` and return `none` when it runs out.

* `retainLoop_eq`: the loop of `retain` ends, given more fuel than the rehash has steps left,
  in `sweepMap`: the rehash driven to its end, then one sweep of the cells.
* `retainAsyncLoop_eq` and `retainAsyncLoop_complete`: so does the loop of `retain_async`.
* `retainAsync_eq_retain`: `retain_async` agrees with `retain`, and hence `clear_async` with
  `clear` and `for_each_async` with `for_each`.
* `retain_spec`: `retain` is the filter's serial run over one enumeration of the entries; it
  keeps what the filter keeps, counts both, and `clear` and `for_each` follow.
-/

namespace SccHashMap

namespace HashMap

variable {K V σ : Type} (hash : K → UInt64) (policy : CellArray K V → Option Nat)

/-! ### The two loops -/

section Loops

variable (filter : σ → K → V → Bool × V × σ)

/-- The outer loop of `retain`, `while let Some(current_array_ref) = current_array_ptr.as_ref()`:
`some (gaveUp, sweep, map)` where it leaves the loop, `gaveUp` when a counter reached
`usize::MAX`; `none` when the fuel runs out. -/
def retainLoop : Nat → Sweep σ → MapState K V → Option (Bool × Sweep σ × MapState K V)
  | 0, _, _ => none
  | fuel + 1, acc, m =>
    match m.array with
    | none => some (false, acc, m)
    | some a =>
      if a.oldArray.isSome then retainLoop fuel acc ⟨some (a.partialRehash hash)⟩
      else
        let r := acc.cells filter a.cells
        let m' : MapState K V := ⟨some { a with cells := r.1 }⟩
        if r.2.stopped then some (true, r.2, m')
        else if m'.array.map CellArray.id = some a.id then some (false, r.2, m')
        else retainLoop fuel { r.2 with retained := 0 } m'

/-- The end of `retain` and `retain_async`: `if removed_entries >= retained_entries` the map is
resized, unless the loop gave up; the counters, the filter's state and the map. -/
def finish (r : Bool × Sweep σ × MapState K V) : Nat × Nat × σ × MapState K V :=
  (r.2.1.retained, r.2.1.removed, r.2.1.filterState,
    if !r.1 && r.2.1.retained ≤ r.2.1.removed then r.2.2.resize policy else r.2.2)

/-- `HashMap::retain(filter)`, the filter starting in state `st`. -/
def retain (st : σ) (fuel : Nat) (m : MapState K V) : Option (Nat × Nat × σ × MapState K V) :=
  (retainLoop hash filter fuel ⟨0, 0, st, false⟩ m).map (finish policy)

/-- `while !current_array.old_array(..).is_null()` in `retain_async`: a `partial_rehash`, then
`continue` or a yield, either of which comes back to the test. -/
def rehashAsync : Nat → CellArray K V → Option (CellArray K V)
  | 0, _ => none
  | fuel + 1, a => if a.oldArray.isSome then rehashAsync fuel (a.partialRehash hash) else some a

/-- The `loop` around `Locker::try_lock` in `retain_async` for one cell: `Err` yields and tries
again, `Ok(None)` passes a killed cell over, `Ok(Some(locker))` sweeps it. -/
def lockCellAsync : Nat → Sweep σ → Cell K V → Option (Cell K V × Sweep σ)
  | 0, _, _ => none
  | fuel + 1, acc, c =>
    match c.tryLock with
    | .ok none => some (c, acc)
    | .ok (some _) => some (acc.locked filter c)
    | .error _ => lockCellAsync fuel acc c

/-- `for cell_index in 0..current_array.num_cells()` in `retain_async`. -/
def sweepAsync (fuel : Nat) : Sweep σ → List (Cell K V) → Option (List (Cell K V) × Sweep σ)
  | acc, [] => some ([], acc)
  | acc, c :: cs => do
    let r₁ ← lockCellAsync filter fuel acc c
    let r₂ ← sweepAsync fuel r₁.2 cs
    return (r₁.1 :: r₂.1, r₂.2)

/-- The outer loop of `retain_async`, `while let Some(current_array) = current_array_holder.take()`,
with `holder` the array it holds and `m` the map. -/
def retainAsyncLoop : Nat → Sweep σ → Option (CellArray K V) → MapState K V →
    Option (Bool × Sweep σ × MapState K V)
  | 0, _, _, _ => none
  | fuel + 1, acc, holder, m =>
    match holder with
    | none => some (false, acc, m)
    | some a₀ => do
      let a ← rehashAsync hash fuel a₀
      let r ← sweepAsync filter fuel acc a.cells
      let m' : MapState K V := ⟨some { a with cells := r.1 }⟩
      if r.2.stopped then return (true, r.2, m')
      match m'.array with
      | some new =>
        if new.id = a.id then return (false, r.2, m')
        retainAsyncLoop fuel { r.2 with retained := 0 } (some new) m'
      | none => return (false, r.2, m')

/-- `HashMap::retain_async(filter)`, the filter starting in state `st`. -/
def retainAsync (st : σ) (fuel : Nat) (m : MapState K V) : Option (Nat × Nat × σ × MapState K V) :=
  (retainAsyncLoop hash filter fuel ⟨0, 0, st, false⟩ m.array m).map (finish policy)

end Loops

/-! ### `clear` and `for_each` -/

/-- The filter of `clear`, `|_, _| false`. -/
def clearFilter (_ : Unit) (_ : K) (v : V) : Bool × V × Unit := (false, v, ())

/-- The filter of `for_each(f)`, `|k, v| { f(k, v); true }`, for `f` with state `τ`. -/
def forEachFilter {τ : Type} (f : τ → K → V → V × τ) (st : τ) (k : K) (v : V) : Bool × V × τ :=
  (true, f st k v)

/-- `HashMap::clear`: `self.retain(|_, _| false).1`, with the map after. -/
def clear (fuel : Nat) (m : MapState K V) : Option (Nat × MapState K V) :=
  (retain hash policy clearFilter () fuel m).map fun r => (r.2.1, r.2.2.2)

/-- `HashMap::clear_async`. -/
def clearAsync (fuel : Nat) (m : MapState K V) : Option (Nat × MapState K V) :=
  (retainAsync hash policy clearFilter () fuel m).map fun r => (r.2.1, r.2.2.2)

/-- `HashMap::for_each(f)`: the state `f` ends in, and the map after. -/
def forEach {τ : Type} (f : τ → K → V → V × τ) (st : τ) (fuel : Nat) (m : MapState K V) :
    Option (τ × MapState K V) :=
  (retain hash policy (forEachFilter f) st fuel m).map fun r => (r.2.2.1, r.2.2.2)

/-- `HashMap::for_each_async(f)`. -/
def forEachAsync {τ : Type} (f : τ → K → V → V × τ) (st : τ) (fuel : Nat) (m : MapState K V) :
    Option (τ × MapState K V) :=
  (retainAsync hash policy (forEachFilter f) st fuel m).map fun r => (r.2.2.1, r.2.2.2)

/-! ### Both loops end in one sweep -/

section Sweep

variable (filter : σ → K → V → Bool × V × σ)

/-- What both loops compute on a map no other operation touches: the rehash driven to its end,
then one sweep of the cells, `true` when a counter reached `usize::MAX`. -/
def sweepMap (acc : Sweep σ) (m : MapState K V) : Bool × Sweep σ × MapState K V :=
  match m.array with
  | none => (false, acc, m)
  | some a =>
    let r := acc.cells filter (a.rehashAll hash).cells
    (r.2.stopped, r.2, ⟨some { a.rehashAll hash with cells := r.1 }⟩)

/-- The rehash steps the map has left. -/
def rehashTurns (m : MapState K V) : Nat := (m.array.map CellArray.rehashLeft).getD 0

theorem sweepMap_partialRehash {a : CellArray K V} (ho : a.oldArray.isSome) (acc : Sweep σ) :
    sweepMap hash filter acc ⟨some (a.partialRehash hash)⟩ = sweepMap hash filter acc ⟨some a⟩ := by
  simp only [sweepMap, CellArray.rehashAll_partialRehash hash ho]

theorem retainLoop_of_some {a : CellArray K V} (ho : a.oldArray.isSome) (fuel : Nat)
    (acc : Sweep σ) : retainLoop hash filter (fuel + 1) acc ⟨some a⟩ =
      retainLoop hash filter fuel acc ⟨some (a.partialRehash hash)⟩ := by
  simp [retainLoop, ho]

/-- Without a pending rehash, one turn of the loop of `retain` sweeps the cells and leaves: the
array it loads again is the one it swept. -/
theorem retainLoop_of_none {a : CellArray K V} (ho : a.oldArray = none) (fuel : Nat)
    (acc : Sweep σ) : retainLoop hash filter (fuel + 1) acc ⟨some a⟩ =
      some (sweepMap hash filter acc ⟨some a⟩) := by
  simp only [retainLoop, sweepMap, ho, CellArray.rehashAll_of_none hash ho]
  split_ifs <;> simp_all

/-- **Every run of the loop of `retain` that ends, ends in `sweepMap`.** -/
theorem retainLoop_eq {fuel : Nat} {acc : Sweep σ} {m : MapState K V} {r}
    (h : retainLoop hash filter fuel acc m = some r) : r = sweepMap hash filter acc m := by
  induction fuel generalizing m with
  | zero => simp [retainLoop] at h
  | succ fuel ih =>
    rcases m with ⟨_ | a⟩
    · simpa [retainLoop, sweepMap, eq_comm] using h
    · by_cases ho : a.oldArray.isSome
      · rw [← sweepMap_partialRehash hash filter ho]
        exact ih (by rwa [retainLoop_of_some hash filter ho] at h)
      · rw [retainLoop_of_none hash filter (by simpa using ho)] at h
        exact (Option.some.inj h).symm

/-- **The loop of `retain` ends given more fuel than the rehash has steps left.** -/
theorem retainLoop_complete {fuel : Nat} (acc : Sweep σ) {m : MapState K V}
    (h : rehashTurns m < fuel) :
    retainLoop hash filter fuel acc m = some (sweepMap hash filter acc m) := by
  induction fuel generalizing m with
  | zero => omega
  | succ fuel ih =>
    rcases m with ⟨_ | a⟩
    · rfl
    · by_cases ho : a.oldArray.isSome
      · have hl := CellArray.rehashLeft_partialRehash hash ho
        rw [retainLoop_of_some hash filter ho, ih, sweepMap_partialRehash hash filter ho]
        simp only [rehashTurns, Option.map_some', Option.getD_some] at h ⊢
        omega
      · exact retainLoop_of_none hash filter (by simpa using ho) fuel acc

/-! #### The loops of `retain_async` -/

/-- **Every run of the rehash loop of `retain_async` that ends, ends where the rehash ends.** -/
theorem rehashAsync_eq {fuel : Nat} {a a' : CellArray K V} (h : rehashAsync hash fuel a = some a') :
    a' = a.rehashAll hash := by
  induction fuel generalizing a with
  | zero => simp [rehashAsync] at h
  | succ fuel ih =>
    by_cases ho : a.oldArray.isSome
    · rw [← CellArray.rehashAll_partialRehash hash ho]
      exact ih (by simpa [rehashAsync, ho] using h)
    · simp only [rehashAsync, ho, Bool.false_eq_true, if_false, Option.some.injEq] at h
      rw [← h, CellArray.rehashAll_of_none hash (by simpa using ho)]

theorem rehashAsync_complete {fuel : Nat} {a : CellArray K V} (h : a.rehashLeft < fuel) :
    rehashAsync hash fuel a = some (a.rehashAll hash) := by
  induction fuel generalizing a with
  | zero => omega
  | succ fuel ih =>
    by_cases ho : a.oldArray.isSome
    · have hl := CellArray.rehashLeft_partialRehash hash ho
      rw [rehashAsync, if_pos ho, ih (by omega), CellArray.rehashAll_partialRehash hash ho]
    · rw [rehashAsync, if_neg ho, CellArray.rehashAll_of_none hash (by simpa using ho)]

/-- With no contention `try_lock` succeeds at once: one turn of the retry loop is the sweep of
the cell that `Locker::lock` would give. -/
theorem lockCellAsync_succ (fuel : Nat) (acc : Sweep σ) (c : Cell K V) :
    lockCellAsync filter (fuel + 1) acc c = some (acc.cell filter c) := by
  simp only [lockCellAsync, Cell.tryLock, Sweep.cell]
  cases c.lock <;> rfl

theorem sweepAsync_succ (fuel : Nat) (acc : Sweep σ) (cs : List (Cell K V)) :
    sweepAsync filter (fuel + 1) acc cs = some (acc.cells filter cs) := by
  induction cs generalizing acc with
  | nil => rfl
  | cons c cs ih => simp [sweepAsync, lockCellAsync_succ, ih, Sweep.cells]

/-- Every run of the cell loop of `retain_async` that ends is the sweep of `retain`. -/
theorem sweepAsync_eq {fuel : Nat} {acc : Sweep σ} {cs : List (Cell K V)} {r}
    (h : sweepAsync filter fuel acc cs = some r) : r = acc.cells filter cs := by
  cases fuel with
  | zero =>
    cases cs with
    | nil => simpa [sweepAsync, Sweep.cells, eq_comm] using h
    | cons c cs => simp [sweepAsync, lockCellAsync] at h
  | succ fuel => exact (Option.some.inj ((sweepAsync_succ filter fuel acc cs).symm.trans h)).symm

/-- One turn of the outer loop of `retain_async`: the rehash loop, the sweep, and, the array
it loads again being the one it swept, the end. -/
theorem retainAsyncLoop_succ (fuel : Nat) (acc : Sweep σ) (a₀ : CellArray K V)
    (m : MapState K V) : retainAsyncLoop hash filter (fuel + 1) acc (some a₀) m =
      (rehashAsync hash fuel a₀).bind fun a => (sweepAsync filter fuel acc a.cells).map
        fun r => (r.2.stopped, r.2, ⟨some { a with cells := r.1 }⟩) := by
  simp only [retainAsyncLoop]
  rcases rehashAsync hash fuel a₀ with _ | a
  · rfl
  simp only [Option.bind_eq_bind, Option.some_bind]
  rcases sweepAsync filter fuel acc a.cells with _ | ⟨cells, acc'⟩
  · rfl
  cases h : acc'.stopped <;> simp [h]

/-- **Every run of the loop of `retain_async` that ends, ends in `sweepMap`.** -/
theorem retainAsyncLoop_eq {fuel : Nat} {acc : Sweep σ} {m : MapState K V} {r}
    (h : retainAsyncLoop hash filter fuel acc m.array m = some r) :
    r = sweepMap hash filter acc m := by
  rcases fuel with _ | fuel
  · simp [retainAsyncLoop] at h
  rcases m with ⟨_ | a₀⟩
  · simpa [retainAsyncLoop, sweepMap, eq_comm] using h
  rw [retainAsyncLoop_succ] at h
  obtain ⟨a, ha, h⟩ := Option.bind_eq_some.1 h
  obtain ⟨r', hr', rfl⟩ := Option.map_eq_some'.1 h
  rw [rehashAsync_eq hash ha] at hr'
  rw [rehashAsync_eq hash ha, sweepAsync_eq filter hr']
  rfl

/-- **The loop of `retain_async` ends given two more turns than the rehash has steps left.** -/
theorem retainAsyncLoop_complete {fuel : Nat} (acc : Sweep σ) {m : MapState K V}
    (h : rehashTurns m + 1 < fuel) :
    retainAsyncLoop hash filter fuel acc m.array m = some (sweepMap hash filter acc m) := by
  obtain ⟨fuel, rfl⟩ : ∃ f, fuel = f + 1 := ⟨fuel - 1, by omega⟩
  rcases m with ⟨_ | a₀⟩
  · rfl
  have hl : a₀.rehashLeft < fuel := by simpa [rehashTurns] using h
  obtain ⟨f, rfl⟩ : ∃ f, fuel = f + 1 := ⟨fuel - 1, by omega⟩
  rw [retainAsyncLoop_succ, rehashAsync_complete hash hl]
  simp [sweepAsync_succ, sweepMap]

end Sweep

/-! ### `retain_async` agrees with `retain` -/

section Agree

variable (filter : σ → K → V → Bool × V × σ)

/-- What `retain` returns, driven to completion on a map no other operation touches. -/
def retainResult (st : σ) (m : MapState K V) : Nat × Nat × σ × MapState K V :=
  finish policy (sweepMap hash filter ⟨0, 0, st, false⟩ m)

theorem retain_eq_retainResult {st : σ} {fuel : Nat} {m : MapState K V} {r}
    (h : retain hash policy filter st fuel m = some r) :
    r = retainResult hash policy filter st m := by
  obtain ⟨r', hr', rfl⟩ := Option.map_eq_some'.1 h
  rw [retainLoop_eq hash filter hr', retainResult]

theorem retainAsync_eq_retainResult {st : σ} {fuel : Nat} {m : MapState K V} {r}
    (h : retainAsync hash policy filter st fuel m = some r) :
    r = retainResult hash policy filter st m := by
  obtain ⟨r', hr', rfl⟩ := Option.map_eq_some'.1 h
  rw [retainAsyncLoop_eq hash filter hr', retainResult]

theorem retain_complete (st : σ) {fuel : Nat} {m : MapState K V} (h : rehashTurns m < fuel) :
    retain hash policy filter st fuel m = some (retainResult hash policy filter st m) := by
  rw [retain, retainLoop_complete hash filter _ h]
  rfl

theorem retainAsync_complete (st : σ) {fuel : Nat} {m : MapState K V}
    (h : rehashTurns m + 1 < fuel) :
    retainAsync hash policy filter st fuel m = some (retainResult hash policy filter st m) := by
  rw [retainAsync, retainAsyncLoop_complete hash filter _ h]
  rfl

/-- **`retain_async` computes what `retain` computes**: on the same map and filter both
complete given enough fuel, and any two runs of them that complete return the same counters,
leave the filter in the same state and the map with the same array.  Hence `clear_async`
agrees with `clear` and `for_each_async` with `for_each`. -/
theorem retainAsync_eq_retain (st : σ) (m : MapState K V) :
    (∃ fuel r, retain hash policy filter st fuel m = some r ∧
      retainAsync hash policy filter st fuel m = some r) ∧
    (∀ f₁ f₂ r₁ r₂, retain hash policy filter st f₁ m = some r₁ →
      retainAsync hash policy filter st f₂ m = some r₂ → r₁ = r₂) ∧
    (∀ f₁ f₂ r₁ r₂, clear hash policy f₁ m = some r₁ → clearAsync hash policy f₂ m = some r₂ →
      r₁ = r₂) ∧
    ∀ {τ : Type} (f : τ → K → V → V × τ) (st : τ) (f₁ f₂ : Nat) r₁ r₂,
      forEach hash policy f st f₁ m = some r₁ → forEachAsync hash policy f st f₂ m = some r₂ →
        r₁ = r₂ := by
  have agree : ∀ {τ : Type} (g : τ → K → V → Bool × V × τ) (st : τ) (f₁ f₂ : Nat) r₁ r₂,
      retain hash policy g st f₁ m = some r₁ → retainAsync hash policy g st f₂ m = some r₂ →
        r₁ = r₂ := fun g _ _ _ _ _ h₁ h₂ =>
    (retain_eq_retainResult hash policy g h₁).trans (retainAsync_eq_retainResult hash policy g h₂).symm
  refine ⟨⟨rehashTurns m + 2, _, retain_complete hash policy filter st (by omega),
    retainAsync_complete hash policy filter st (by omega)⟩, agree filter st, ?_, fun f st => ?_⟩ <;>
  · intro f₁ f₂ r₁ r₂ h₁ h₂
    obtain ⟨_, hr₁, rfl⟩ := Option.map_eq_some'.1 h₁
    obtain ⟨_, hr₂, rfl⟩ := Option.map_eq_some'.1 h₂
    rw [agree _ _ _ _ _ _ hr₁ hr₂]

end Agree

/-! ### What `retain` computes -/

section Spec

/-- The entries of a map in the order `retain` visits them: the cells of its array in index
order, once the rehash is over. -/
def sweepOrder (m : MapState K V) : List (K × V) :=
  (m.array.map fun a => (a.rehashAll hash).cells.flatMap Cell.entries).getD []

/-- On a well-formed map the sweep visits every entry once. -/
theorem sweepOrder_perm {m : MapState K V} (hm : m.WellFormed) :
    (sweepOrder hash m).Perm m.entries := by
  rcases m with ⟨_ | a⟩
  · exact .refl _
  · have hp : (a.rehashAll hash).entries.Perm a.entries := ((hm a rfl).rehashN hash _).2
    simpa [sweepOrder, MapState.entries, CellArray.entries, CellArray.rehashAll_oldArray] using hp

@[simp] theorem finish_entries (r : Bool × Sweep σ × MapState K V) :
    (finish policy r).2.2.2.entries = r.2.2.entries := by
  unfold finish
  split_ifs <;> simp [MapState.entries_resize]

variable (filter : σ → K → V → Bool × V × σ)

/-- On a well-formed map with at most `usize::MAX` entries, what `retain` returns is the
filter's serial run over the sweep order. -/
theorem retainResult_eq_serialRetain (st : σ) {m : MapState K V} (hm : m.WellFormed)
    (hlen : m.len ≤ usizeMax) :
    (retainResult hash policy filter st m).1 =
        (serialRetain filter st (sweepOrder hash m)).1.length ∧
      (retainResult hash policy filter st m).2.1 =
        (serialRetain filter st (sweepOrder hash m)).2.1 ∧
      (retainResult hash policy filter st m).2.2.1 =
        (serialRetain filter st (sweepOrder hash m)).2.2 ∧
      (retainResult hash policy filter st m).2.2.2.entries =
        (serialRetain filter st (sweepOrder hash m)).1 := by
  rcases m with ⟨_ | a⟩
  · simp [retainResult, finish, sweepMap, sweepOrder, serialRetain, MapState.entries,
      MapState.resize]
  · have hes : (sweepOrder hash ⟨some a⟩).length ≤ usizeMax := by
      rw [(sweepOrder_perm hash hm).length_eq]; exact hlen
    obtain ⟨h₁, h₂, -⟩ := Sweep.cells_entries filter ⟨0, 0, st, false⟩ (a.rehashAll hash).cells
    obtain ⟨k₁, k₂, k₃, k₄⟩ := Sweep.run_eq_serialRetain filter ⟨0, 0, st, false⟩
      (sweepOrder hash ⟨some a⟩) (by simpa using hes) (by simp)
    simp only [sweepOrder, Option.map_some', Option.getD_some] at k₁ k₂ k₃ k₄ ⊢
    refine ⟨?_, ?_, ?_, ?_⟩
    · simp [retainResult, finish, sweepMap, h₂, k₂]
    · simp [retainResult, finish, sweepMap, h₂, k₃]
    · simp [retainResult, finish, sweepMap, h₂, k₄]
    · rw [retainResult, finish_entries]
      simp [sweepMap, MapState.entries, CellArray.entries, CellArray.rehashAll_oldArray, h₁, k₁]

/-- **`retain` keeps the map well formed**, for a resize policy within `2 ^ 64` cells: the
maps it leaves are again in the domain of `retain_spec`. -/
theorem retain_wellFormed (hpol : ∀ a lb, policy a = some lb → lb ≤ 64) (st : σ) {fuel : Nat}
    {m : MapState K V} (hm : m.WellFormed) {r} (h : retain hash policy filter st fuel m = some r) :
    r.2.2.2.WellFormed := by
  have hs : (sweepMap hash filter ⟨0, 0, st, false⟩ m).2.2.WellFormed := by
    rcases m with ⟨_ | a⟩
    · rintro _ ⟨⟩
    · obtain ⟨hw, -⟩ := (hm a rfl).rehashN hash a.rehashLeft
      obtain ⟨-, -, hk⟩ := Sweep.cells_entries filter ⟨0, 0, st, false⟩ (a.rehashAll hash).cells
      have hl := congrArg List.length hk
      simp only [List.length_map] at hl
      rintro _ ⟨⟩
      exact ⟨hl.trans hw.cells_length, hw.lbCapacity_le, CellArray.live_of_map_killed hk hw.live,
        fun _ h => absurd h (by simp [CellArray.rehashAll_oldArray])⟩
  rw [retain_eq_retainResult hash policy filter h, retainResult, finish]
  split_ifs
  · exact hs.resize hpol
  · exact hs

/-- `clear`'s filter erases every entry. -/
theorem serialRetain_clearFilter (es : List (K × V)) :
    serialRetain clearFilter () es = ([], es.length, ()) := by
  induction es with
  | nil => rfl
  | cons e es ih => obtain ⟨k, v⟩ := e; simp [serialRetain, clearFilter, ih]

/-- `for_each`'s filter keeps every entry under its key. -/
theorem serialRetain_forEachFilter_keys {τ : Type} (f : τ → K → V → V × τ) (st : τ)
    (es : List (K × V)) :
    (serialRetain (forEachFilter f) st es).1.map Prod.fst = es.map Prod.fst := by
  induction es generalizing st with
  | nil => rfl
  | cons e es ih =>
    obtain ⟨k, v⟩ := e
    rcases h : f st k v with ⟨v', st'⟩
    simp [serialRetain, forEachFilter, h, ih]

/-- **`retain` is the filter's serial run over one enumeration of the entries**: on a
well-formed map with at most `usize::MAX` entries it completes, and every run of it that
completes applies the filter once to each entry in that order, keeps exactly the entries the
filter keeps with the values it left in them, erases the others and inserts nothing; it
returns the numbers kept and erased, which add up to `len()` before the call, the first being
`len()` after it.  Hence `clear` returns the prior `len()` and empties the map, and `for_each`
keeps its keys. -/
theorem retain_spec (st : σ) (m : MapState K V) (hm : m.WellFormed) (hlen : m.len ≤ usizeMax) :
    ∃ order : List (K × V), order.Perm m.entries ∧
      (∃ fuel r, retain hash policy filter st fuel m = some r) ∧
      (∀ fuel r, retain hash policy filter st fuel m = some r →
        r.1 = (serialRetain filter st order).1.length ∧
        r.2.1 = (serialRetain filter st order).2.1 ∧
        r.2.2.1 = (serialRetain filter st order).2.2 ∧
        r.2.2.2.entries = (serialRetain filter st order).1 ∧
        r.1 + r.2.1 = m.len ∧ r.2.2.2.len = r.1) ∧
      (∀ fuel r, clear hash policy fuel m = some r → r.1 = m.len ∧ r.2.entries = []) ∧
      ∀ {τ : Type} (f : τ → K → V → V × τ) (st : τ) (fuel : Nat) r,
        forEach hash policy f st fuel m = some r →
          (r.2.entries.map Prod.fst).Perm (m.entries.map Prod.fst) := by
  have hp := sweepOrder_perm hash hm
  refine ⟨sweepOrder hash m, hp, ⟨_, _, retain_complete hash policy filter st (Nat.lt_succ_self _)⟩,
    fun fuel r h => ?_, fun fuel r h => ?_, fun f st fuel r h => ?_⟩
  · obtain ⟨h₁, h₂, h₃, h₄⟩ := retainResult_eq_serialRetain hash policy filter st hm hlen
    rw [retain_eq_retainResult hash policy filter h]
    refine ⟨h₁, h₂, h₃, h₄, ?_, by rw [MapState.len, h₄, h₁]⟩
    rw [h₁, h₂, serialRetain_length, hp.length_eq, MapState.len]
  · obtain ⟨r', hr', rfl⟩ := Option.map_eq_some'.1 h
    obtain ⟨-, h₂, -, h₄⟩ := retainResult_eq_serialRetain hash policy clearFilter () hm hlen
    rw [retain_eq_retainResult hash policy _ hr']
    rw [serialRetain_clearFilter] at h₂ h₄
    exact ⟨h₂.trans hp.length_eq, h₄⟩
  · obtain ⟨r', hr', rfl⟩ := Option.map_eq_some'.1 h
    obtain ⟨-, -, -, h₄⟩ := retainResult_eq_serialRetain hash policy (forEachFilter f) st hm hlen
    rw [retain_eq_retainResult hash policy _ hr']
    dsimp only
    rw [h₄, serialRetain_forEachFilter_keys]
    exact hp.map _

end Spec

end HashMap

end SccHashMap
