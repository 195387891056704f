import SccHashMap.Word
import Mathlib.Algebra.BigOperators.Group.List
import Mathlib.Algebra.Order.Ring.Nat

/-!
# Capacity reservations: `HashMap::reserve` and `Ticket`

`reserve(capacity)` raises `additional_capacity` by a compare-and-swap loop, and the `Ticket`
it returns lowers it by the same amount when dropped; both then call `resize`, which reads
`HashTable::minimum_capacity()`, the sum `minimum_capacity + additional_capacity`.  Any number
of threads run these steps interleaved.  A `Sys` holds the two counters, the program counter
of every `reserve` call in flight, and the increments of the live tickets; `step` performs one
atomic step of one thread.  The atomic steps are the load, one turn of the loop (the bound
check, which reads only the thread's own copy and the immutable `minimum_capacity`, then the
`compare_exchange`) and a ticket drop (`fetch_sub`, `resize`, then the `debug_assert!` on the
value `fetch_sub` returned).  `resize` is kept only for the read of `minimum_capacity()` it
makes and is counted in `resizes`.

* `Inv`: `additional_capacity` is the sum of the live tickets, `minimum_capacity +
  additional_capacity < usize::MAX`, and so is `minimum_capacity` plus every stale copy a
  `reserve` call holds.
* `step_inv`: from a state satisfying `Inv` no step panics, and `Inv` holds after it.
* `reserve_ticket_safe`: hence in every reachable state the invariant holds and no step of any
  thread, nor `minimum_capacity()`, panics.
* `reserve_solo`: a `reserve(n)` call that runs alone returns `None` exactly when
  `minimum_capacity + additional_capacity + n ≥ usize::MAX`; on `None` nothing changes, and on
  `Some` the counter grows by `n` and `resize` is called once.
-/

namespace SccHashMap

namespace Reserve

/-- The program counter of one `reserve(capacity)` call. -/
inductive Pc where
  /-- Before `additional_capacity.load(Relaxed)`. -/
  | load (capacity : Nat)
  /-- At the head of the loop, holding `current_additional_capacity = current`. -/
  | check (capacity current : Nat)
  /-- Returned: `none` for `None`, `some increment` for a `Ticket`. -/
  | done (ticket : Option Nat)
  deriving DecidableEq, Repr

/-- The reservation state of a `HashMap` with the threads working on it. -/
structure Sys where
  /-- `minimum_capacity`, fixed at construction. -/
  minimumCapacity : Nat
  /-- `additional_capacity: AtomicUsize`. -/
  additionalCapacity : Nat
  /-- The `reserve` calls started so far, by start order. -/
  calls : List Pc
  /-- The `increment` of every `Ticket` not yet dropped. -/
  tickets : List Nat
  /-- How many times `resize` has been called. -/
  resizes : Nat
  deriving DecidableEq, Repr

/-- A map built with `minimum_capacity = m`, before any reservation. -/
def Sys.init (m : Nat) : Sys := ⟨m, 0, [], [], 0⟩

/-- One atomic step of one thread. -/
inductive Event where
  /-- A thread calls `reserve(capacity)`. -/
  | reserve (capacity : Nat)
  /-- Call `i` loads `additional_capacity`. -/
  | load (i : Nat)
  /-- Call `i` runs one turn of its loop. -/
  | loop (i : Nat)
  /-- A live ticket with this increment is dropped. -/
  | drop (increment : Nat)
  /-- Another operation calls `resize`. -/
  | resize
  deriving DecidableEq, Repr

namespace Sys

/-- `HashTable::minimum_capacity` of a `HashMap`. -/
def tableMinimumCapacity (s : Sys) : Checked Nat :=
  checkedAdd usizeBits s.minimumCapacity s.additionalCapacity

/-- `HashTable::resize`, as far as reservations see it: it reads `minimum_capacity()`. -/
def resize (s : Sys) : Checked Sys := do
  let _ ← s.tableMinimumCapacity
  .ok { s with resizes := s.resizes + 1 }

/-- One turn of the loop of `reserve` by call `i`: the bound check on its copy `current`,
then `compare_exchange(current, current + capacity)`.  On success `resize` runs and the
`Ticket` is returned; on failure the copy becomes the value the exchange found. -/
def reserveLoop (s : Sys) (i capacity current : Nat) : Checked Sys := do
  if (← checkedSub (← checkedSub usizeMax s.minimumCapacity) current) ≤ capacity then
    .ok { s with calls := s.calls.set i (.done none) }
  else
    let new ← checkedAdd usizeBits current capacity
    if s.additionalCapacity = current then
      resize { s with additionalCapacity := new, tickets := capacity :: s.tickets
                      calls := s.calls.set i (.done (some capacity)) }
    else
      .ok { s with calls := s.calls.set i (.check capacity s.additionalCapacity) }

/-- `Ticket::drop`: `fetch_sub(increment)`, which wraps around, then `resize`, then
`debug_assert!(result >= self.increment)` on the value `fetch_sub` returned. -/
def ticketDrop (s : Sys) (increment : Nat) : Checked Sys := do
  let result := s.additionalCapacity
  let s' ← resize { s with additionalCapacity := (result + (2 ^ usizeBits - increment)) % 2 ^ usizeBits
                           tickets := s.tickets.erase increment }
  debugAssert (increment ≤ result) "assertion failed: result >= self.increment"
  .ok s'

end Sys

/-- One step.  A step no thread can take (a call that is not at that point, a ticket that is
not live, an argument that is not a `usize`) leaves the state as it is. -/
def step (s : Sys) : Event → Checked Sys
  | .reserve capacity =>
    .ok (if capacity ≤ usizeMax then { s with calls := s.calls ++ [.load capacity] } else s)
  | .load i =>
    match s.calls[i]? with
    | some (.load capacity) =>
      .ok { s with calls := s.calls.set i (.check capacity s.additionalCapacity) }
    | _ => .ok s
  | .loop i =>
    match s.calls[i]? with
    | some (.check capacity current) => s.reserveLoop i capacity current
    | _ => .ok s
  | .drop increment => if increment ∈ s.tickets then s.ticketDrop increment else .ok s
  | .resize => s.resize

/-- A schedule of steps, run in order; the first panic stops it. -/
def run (s : Sys) : List Event → Checked Sys
  | [] => .ok s
  | e :: es => do run (← step s e) es

/-- The states some schedule reaches from a fresh map with `minimum_capacity < usize::MAX`. -/
inductive Reachable : Sys → Prop
  | init {m : Nat} : m < usizeMax → Reachable (Sys.init m)
  | step {s s' : Sys} (e : Event) : Reachable s → step s e = .ok s' → Reachable s'

/-! ### The invariant -/

/-- What a call in flight keeps: its copy of `additional_capacity`, however stale, leaves room
below `usize::MAX`. -/
def Pc.Fits (m : Nat) : Pc → Prop
  | .check _ current => m + current < usizeMax
  | _ => True

/-- The reservation invariant. -/
structure Inv (s : Sys) : Prop where
  additional_eq : s.additionalCapacity = s.tickets.sum
  lt_max : s.minimumCapacity + s.additionalCapacity < usizeMax
  calls_fit : ∀ c ∈ s.calls, c.Fits s.minimumCapacity

theorem fits_set {m i : Nat} {calls : List Pc} {c : Pc} (h : ∀ c ∈ calls, c.Fits m)
    (hc : c.Fits m) : ∀ c' ∈ calls.set i c, c'.Fits m := fun _ hc' =>
  (List.mem_or_eq_of_mem_set hc').elim (h _) (fun e => e ▸ hc)

section Steps

variable {s : Sys}

theorem tableMinimumCapacity_eq (h : s.minimumCapacity + s.additionalCapacity < usizeMax) :
    s.tableMinimumCapacity = .ok (s.minimumCapacity + s.additionalCapacity) :=
  checkedAdd_of_lt (by rw [usizeMax_eq] at h; rw [two_pow_usizeBits]; omega)

theorem resize_eq (h : s.minimumCapacity + s.additionalCapacity < usizeMax) :
    s.resize = .ok { s with resizes := s.resizes + 1 } := by
  rw [Sys.resize, tableMinimumCapacity_eq h, Checked.ok_bind]

/-- The spec lemma of one turn of the loop: on a copy that fits it never panics, and it
returns `None`, takes the ticket (when the copy is current) or refreshes the copy. -/
theorem reserveLoop_cases {i capacity current : Nat}
    (hfit : s.minimumCapacity + current < usizeMax) :
    (usizeMax ≤ s.minimumCapacity + current + capacity ∧
      s.reserveLoop i capacity current = .ok { s with calls := s.calls.set i (.done none) }) ∨
    (s.minimumCapacity + current + capacity < usizeMax ∧ s.additionalCapacity = current ∧
      s.reserveLoop i capacity current = .ok
        { s with additionalCapacity := current + capacity, tickets := capacity :: s.tickets
                 calls := s.calls.set i (.done (some capacity)), resizes := s.resizes + 1 }) ∨
    (s.minimumCapacity + current + capacity < usizeMax ∧ s.additionalCapacity ≠ current ∧
      s.reserveLoop i capacity current = .ok
        { s with calls := s.calls.set i (.check capacity s.additionalCapacity) }) := by
  have h0 := usizeMax_eq
  have h1 := two_pow_usizeBits
  rw [Sys.reserveLoop, checkedSub_of_le (show s.minimumCapacity ≤ usizeMax by omega),
    Checked.ok_bind, checkedSub_of_le (show current ≤ usizeMax - s.minimumCapacity by omega),
    Checked.ok_bind]
  by_cases hroom : usizeMax - s.minimumCapacity - current ≤ capacity
  · exact .inl ⟨by omega, if_pos hroom⟩
  rw [if_neg hroom, checkedAdd_of_lt (show current + capacity < 2 ^ usizeBits by omega),
    Checked.ok_bind]
  by_cases hcas : s.additionalCapacity = current
  · refine .inr (.inl ⟨by omega, hcas, ?_⟩)
    rw [if_pos hcas, resize_eq (by simp only; omega)]
  · exact .inr (.inr ⟨by omega, hcas, if_neg hcas⟩)

/-- The spec lemma of `Ticket::drop` on a live ticket whose increment the counter covers. -/
theorem ticketDrop_eq {increment : Nat} (h : increment ≤ s.additionalCapacity)
    (hlt : s.minimumCapacity + s.additionalCapacity < usizeMax) :
    s.ticketDrop increment = .ok
      { s with additionalCapacity := s.additionalCapacity - increment
               tickets := s.tickets.erase increment, resizes := s.resizes + 1 } := by
  have h0 := usizeMax_eq
  have h1 := two_pow_usizeBits
  have hwrap : (s.additionalCapacity + (2 ^ usizeBits - increment)) % 2 ^ usizeBits =
      s.additionalCapacity - increment := by
    rw [show s.additionalCapacity + (2 ^ usizeBits - increment) =
      s.additionalCapacity - increment + 2 ^ usizeBits by omega, Nat.add_mod_right,
      Nat.mod_eq_of_lt (by omega)]
  rw [Sys.ticketDrop, hwrap, resize_eq (by simp only; omega), Checked.ok_bind,
    show decide (increment ≤ s.additionalCapacity) = true from decide_eq_true h,
    debugAssert_true, Checked.ok_bind]

/-- **One step keeps the invariant and does not panic.** -/
theorem step_inv (hs : Inv s) (e : Event) : ∃ s', step s e = .ok s' ∧ Inv s' := by
  obtain ⟨hsum, hlt, hfit⟩ := hs
  cases e with
  | reserve capacity =>
    refine ⟨_, rfl, ?_⟩
    split
    · refine ⟨hsum, hlt, fun c hc => ?_⟩
      rcases List.mem_append.1 hc with hc | hc
      · exact hfit c hc
      · rw [List.mem_singleton.1 hc]; trivial
    · exact ⟨hsum, hlt, hfit⟩
  | load i =>
    simp only [step]
    split
    · exact ⟨_, rfl, hsum, hlt, fits_set hfit hlt⟩
    · exact ⟨_, rfl, hsum, hlt, hfit⟩
  | loop i =>
    simp only [step]
    split
    · rename_i capacity current hi
      have : s.minimumCapacity + current < usizeMax := hfit _ (List.getElem?_mem hi)
      rcases reserveLoop_cases this with ⟨-, h⟩ | ⟨hroom, hcas, h⟩ | ⟨-, -, h⟩ <;> rw [h]
      · exact ⟨_, rfl, hsum, hlt, fits_set hfit trivial⟩
      · exact ⟨_, rfl, by simp only [List.sum_cons, ← hsum]; omega, by simp only; omega,
          fits_set hfit trivial⟩
      · exact ⟨_, rfl, hsum, hlt, fits_set hfit hlt⟩
    · exact ⟨_, rfl, hsum, hlt, hfit⟩
  | drop increment =>
    simp only [step]
    split
    · rename_i hmem
      have hsplit := List.sum_erase hmem
      rw [ticketDrop_eq (by omega) hlt]
      exact ⟨_, rfl, by simp only; omega, by simp only; omega, hfit⟩
    · exact ⟨_, rfl, hsum, hlt, hfit⟩
  | resize => exact ⟨_, resize_eq hlt, hsum, hlt, hfit⟩

end Steps

/-! ### Every interleaving -/

theorem inv_init {m : Nat} (h : m < usizeMax) : Inv (Sys.init m) :=
  ⟨rfl, h, fun _ hc => by cases hc⟩

theorem Reachable.inv {s : Sys} (h : Reachable s) : Inv s := by
  induction h with
  | init h => exact inv_init h
  | step e _ hstep ih =>
    obtain ⟨_, h', hinv⟩ := step_inv ih e
    rw [hstep] at h'
    cases h'
    exact hinv

/-- **Reservations never overflow, whatever the interleaving.**  In every state reached by
any schedule of `reserve` steps, ticket drops and `resize` calls from a fresh map:
`additional_capacity` is the sum of the increments of the tickets not yet dropped;
`minimum_capacity + additional_capacity < usize::MAX`, and the same holds for every copy of
`additional_capacity` a `reserve` call holds, however stale, so the bound check of `reserve`
cannot underflow; every live ticket's increment is covered, so `fetch_sub` cannot wrap and its
`debug_assert!` holds; `minimum_capacity()` does not overflow; and no step of any thread
panics. -/
theorem reserve_ticket_safe {s : Sys} (h : Reachable s) :
    s.additionalCapacity = s.tickets.sum ∧
    s.minimumCapacity + s.additionalCapacity < usizeMax ∧
    (∀ capacity current, Pc.check capacity current ∈ s.calls →
      s.minimumCapacity + current < usizeMax) ∧
    (∀ increment ∈ s.tickets, increment ≤ s.additionalCapacity) ∧
    s.tableMinimumCapacity = .ok (s.minimumCapacity + s.additionalCapacity) ∧
    ∀ e, ∃ s', step s e = .ok s' := by
  obtain ⟨hsum, hlt, hfit⟩ := h.inv
  refine ⟨hsum, hlt, fun _ _ hc => hfit _ hc, fun i hi => ?_, tableMinimumCapacity_eq hlt,
    fun e => (step_inv ⟨hsum, hlt, hfit⟩ e).imp fun _ => And.left⟩
  have := List.sum_erase hi
  omega

/-- Every state a schedule reaches from a reachable state without panicking is reachable. -/
theorem Reachable.of_run {s s' : Sys} (h : Reachable s) {es : List Event}
    (hr : Reserve.run s es = .ok s') : Reachable s' := by
  induction es generalizing s with
  | nil => cases hr; exact h
  | cons e es ih =>
    cases hs : Reserve.step s e with
    | error msg => rw [Reserve.run, hs, Checked.error_bind] at hr; cases hr
    | ok s₁ => exact ih (.step e h hs) (by rwa [Reserve.run, hs, Checked.ok_bind] at hr)

/-- Two `reserve` calls overlap on a map with the default `minimum_capacity` of 64: both load
`0`, `reserve(7)` wins the exchange, `reserve(5)` fails it, retries on the value it found and
wins, and its ticket is dropped; the ticket of `7` stays live. -/
theorem reserve_ticket_safe_afterRetry :
    let s : Sys := ⟨64, 7, [.done (some 5), .done (some 7)], [7], 3⟩
    Reachable s ∧ s.additionalCapacity = s.tickets.sum ∧
      s.minimumCapacity + s.additionalCapacity < usizeMax ∧
      (∀ capacity current, Pc.check capacity current ∈ s.calls →
        s.minimumCapacity + current < usizeMax) ∧
      (∀ increment ∈ s.tickets, increment ≤ s.additionalCapacity) ∧
      s.tableMinimumCapacity = .ok (s.minimumCapacity + s.additionalCapacity) ∧
      ∀ e, ∃ s', step s e = .ok s' :=
  have h : Reachable ⟨64, 7, [.done (some 5), .done (some 7)], [7], 3⟩ :=
    Reachable.of_run (.init (by decide)) (show run (Sys.init 64) [.reserve 5, .load 0, .reserve 7,
      .load 1, .loop 1, .loop 0, .loop 0, .drop 5] = .ok ⟨64, 7, [.done (some 5), .done (some 7)],
        [7], 3⟩ by decide)
  ⟨h, reserve_ticket_safe h⟩

/-! ### A `reserve` call on its own -/

/-- **`reserve(n)` run alone.**  From any reachable state, a call of `reserve(n)` whose steps
no other thread interleaves returns `None` exactly when
`minimum_capacity + additional_capacity + n ≥ usize::MAX`, leaving the counter alone and
calling no `resize`; otherwise it returns a ticket of `n`, the counter grows by `n`, and
`resize` is called once. -/
theorem reserve_solo {s : Sys} (h : Reachable s) {capacity : Nat} (hc : capacity ≤ usizeMax) :
    ∃ s', run s [.reserve capacity, .load s.calls.length, .loop s.calls.length] = .ok s' ∧
      ((usizeMax ≤ s.minimumCapacity + s.additionalCapacity + capacity ∧
          s'.calls[s.calls.length]? = some (.done none) ∧
          s'.additionalCapacity = s.additionalCapacity ∧ s'.resizes = s.resizes) ∨
        (s.minimumCapacity + s.additionalCapacity + capacity < usizeMax ∧
          s'.calls[s.calls.length]? = some (.done (some capacity)) ∧
          s'.additionalCapacity = s.additionalCapacity + capacity ∧
          s'.resizes = s.resizes + 1)) := by
  have hlt := h.inv.lt_max
  have hget : (s.calls ++ [Pc.load capacity])[s.calls.length]? = some (.load capacity) := by
    simp
  have hget' : ((s.calls ++ [Pc.load capacity]).set s.calls.length
      (.check capacity s.additionalCapacity))[s.calls.length]? =
        some (.check capacity s.additionalCapacity) := by
    simp
  simp only [run, step, if_pos hc, Checked.ok_bind, hget, hget']
  rcases @reserveLoop_cases { s with calls := ((s.calls ++ [Pc.load capacity]).set
      s.calls.length (.check capacity s.additionalCapacity)) } s.calls.length capacity
      s.additionalCapacity hlt with
    ⟨hge, hr⟩ | ⟨hlt', -, hr⟩ | ⟨-, hne, -⟩
  · rw [hr, Checked.ok_bind]
    exact ⟨_, rfl, .inl ⟨hge, by simp, rfl, rfl⟩⟩
  · rw [hr, Checked.ok_bind]
    exact ⟨_, rfl, .inr ⟨hlt', by simp, rfl, rfl⟩⟩
  · exact absurd rfl hne

/-- A fresh map with `minimum_capacity = 64` and `n = usize::MAX - 64`. -/
theorem reserve_solo_init :
    Reachable (Sys.init 64) ∧ usizeMax - 64 ≤ usizeMax ∧
    ∃ s', run (Sys.init 64) [.reserve (usizeMax - 64), .load 0, .loop 0] = .ok s' ∧
      ((usizeMax ≤ 64 + 0 + (usizeMax - 64) ∧ s'.calls[0]? = some (.done none) ∧
          s'.additionalCapacity = 0 ∧ s'.resizes = 0) ∨
        (64 + 0 + (usizeMax - 64) < usizeMax ∧ s'.calls[0]? = some (.done (some (usizeMax - 64))) ∧
          s'.additionalCapacity = 0 + (usizeMax - 64) ∧ s'.resizes = 0 + 1)) :=
  ⟨.init (by decide), by decide, reserve_solo (.init (by decide)) (by decide)⟩

/-- The spec's bound is off by one: when `minimum_capacity + additional_capacity + n` is exactly
`usize::MAX`, which a `usize` can hold, `reserve(n)` still returns `None`. -/
theorem reserve_none_at_usizeMax :
    run (Sys.init 64) [.reserve (usizeMax - 64), .load 0, .loop 0] =
        .ok { Sys.init 64 with calls := [.done none] } ∧
      ¬ usizeMax < 64 + 0 + (usizeMax - 64) := by
  decide

end Reserve

end SccHashMap
