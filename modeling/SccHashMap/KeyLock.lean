import Mathlib.Data.List.Nodup

/-!
# Operations on one key under the cell lock: `update` and `upsert`

`HashMap::update` and `HashMap::upsert` both start with `acquire`, which returns the
`Locker` of the key's cell with an iterator on the key's entry, and then run the caller's
closure on the value.  `acquire`, the `Locker` and the incremental rehash live in
`hash_table.rs` and `cell.rs`, which are not part of the sources; they are modelled here from
the spec (§4.2 to §4.4), as far as one key `k` sees them.

The state is `k`'s cell in every array generation (`slot g`, its lock and `k`'s entry in it),
the generation of `self.array` (`current`), whether that array still has an `old_array`, and
a program counter per thread.  A thread runs `acquire` (load the array; if it has an old array,
lock `k`'s cell there, move its entry into the current array and kill it; lock `k`'s cell in
the current array, and retry if the array has changed meanwhile) and then its operation:

* `upsert`: with `locker` bound, the updater (a load, then a store) or `locker.insert` runs
  before the locker is dropped at the end of the function;
* `update`: the statement `let (_, _, iterator) = ...` binds no name to the locker, so it is
  dropped at the end of that statement, before the updater runs;
* `other`: an operation on another key of the same cell, which only takes and releases the lock;
* `rehash`: a `partial_rehash` batch that migrates `k`'s old cell.

Any number of threads interleave their steps with `resize` (a new array whose old array is the
current one) and the end of a rehash (the old array is cleared once `k`'s old cell is killed).

* `update_lost_update`: two `update(&k, |_, v| *v += 1)` calls on `k ↦ 0` can both return
  `Some` and leave `k ↦ 1`.
* `upsert_linearizable`: every interleaving of upserts on `k`, with resizes, migrations and
  operations on other keys of the cell, ends with `k` present in exactly one cell and with the
  value of the upserts applied one after the other in some order, the constructor of the first
  one running exactly when `k` was absent.
-/

namespace SccHashMap

namespace KeyLock

/-- Modelled from the spec: the lock of a `Cell` (`cell.rs`, not in the sources, spec §4.2), as
exclusive lockers see it: free, held by a thread, or killed once its entries have been
migrated; killed is terminal. -/
inductive Lock where
  | free
  | locked (t : Nat)
  | killed
  deriving DecidableEq, Repr

/-- Modelled from the spec: key `k`'s `Cell` in one `CellArray` (`cell.rs`, not in the
sources): its lock, and `k`'s entry in it, if any. -/
structure Slot (V : Type) where
  lock : Lock
  value : Option V
  deriving DecidableEq, Repr

/-- The operation a thread runs. -/
inductive Op (V : Type) where
  /-- `upsert(k, constructor, updater)`. -/
  | upsert (constructor : V) (updater : V → V)
  /-- `update(&k, updater)`. -/
  | update (updater : V → V)
  /-- An operation on another key of `k`'s cell. -/
  | other
  /-- A `partial_rehash` batch that migrates `k`'s old cell. -/
  | rehash

/-- The program counter of a thread. -/
inductive Pc (V : Type) where
  /-- `acquire` loads `self.array` and its `old_array`. -/
  | start
  /-- Lock `k`'s cell in the old array of generation `g`. -/
  | rehash (g : Nat)
  /-- Holding it: lock the target cell, move the entry, kill the old cell, unlock both. -/
  | migrate (g : Nat)
  /-- `Locker::lock` on `k`'s cell in generation `g`. -/
  | lock (g : Nat)
  /-- Holding it: retry if `self.array` has changed, else search for `k`. -/
  | check (g : Nat)
  /-- The updater loads the value through the iterator. -/
  | read (g : Nat)
  /-- The updater stores its result for the loaded value `x`. -/
  | write (g : Nat) (x : V)
  /-- `locker.insert(key, constructor(), ..)`. -/
  | insert (g : Nat)
  /-- The `Locker` is dropped; the thread goes on at `next`. -/
  | unlock (g : Nat) (next : Pc V)
  /-- Returned; `found` says whether the key was there (`Some` for `update`). -/
  | done (found : Bool)
  deriving DecidableEq

/-- A thread: its operation and where it is. -/
structure Thread (V : Type) where
  op : Op V
  pc : Pc V

/-- The system as key `k` sees it. -/
structure State (V : Type) where
  /-- `k`'s cell in array generation `g`. -/
  slot : Nat → Slot V
  /-- The generation of `self.array`. -/
  current : Nat
  /-- Whether `self.array` still has an `old_array`. -/
  hasOld : Bool
  /-- Every thread. -/
  thread : Nat → Thread V
  /-- The threads whose store or insert took effect, in order (a ghost history). -/
  log : List Nat

/-- A step of the schedule. -/
inductive Event where
  /-- Thread `t` takes its next step. -/
  | step (t : Nat)
  /-- `resize` publishes a new array whose `old_array` is the current one. -/
  | resize
  /-- The rehash is complete: the old array is cleared. -/
  | clearOld
  deriving DecidableEq, Repr

variable {V : Type}

namespace State

/-- The thread `t` moves to `pc`. -/
def setPc (s : State V) (t : Nat) (pc : Pc V) : State V :=
  { s with thread := Function.update s.thread t { s.thread t with pc := pc } }

/-- The cell of generation `g` becomes `c`. -/
def setSlot (s : State V) (g : Nat) (c : Slot V) : State V :=
  { s with slot := Function.update s.slot g c }

/-- The lock of the cell of generation `g` becomes `l`. -/
def setLock (s : State V) (g : Nat) (l : Lock) : State V := s.setSlot g { s.slot g with lock := l }

/-- `k`'s entry in the cell of generation `g` becomes `v`. -/
def setValue (s : State V) (g : Nat) (v : Option V) : State V :=
  s.setSlot g { s.slot g with value := v }

@[simp] theorem setPc_slot (s : State V) (t pc) : (s.setPc t pc).slot = s.slot := rfl
@[simp] theorem setPc_current (s : State V) (t pc) : (s.setPc t pc).current = s.current := rfl
@[simp] theorem setPc_hasOld (s : State V) (t pc) : (s.setPc t pc).hasOld = s.hasOld := rfl
@[simp] theorem setPc_log (s : State V) (t pc) : (s.setPc t pc).log = s.log := rfl

theorem setPc_thread (s : State V) (t pc t') :
    (s.setPc t pc).thread t' = if t' = t then { s.thread t with pc := pc } else s.thread t' :=
  Function.update_apply ..

@[simp] theorem setPc_thread_self (s : State V) (t pc) :
    (s.setPc t pc).thread t = { s.thread t with pc := pc } := by
  simp [setPc_thread]

@[simp] theorem setPc_thread_ne (s : State V) {t t'} (pc) (h : t' ≠ t) :
    (s.setPc t pc).thread t' = s.thread t' := by
  simp [setPc_thread, h]

@[simp] theorem setPc_thread_op (s : State V) (t pc t') :
    ((s.setPc t pc).thread t').op = (s.thread t').op := by
  by_cases h : t' = t
  · subst h; simp
  · simp [h]

@[simp] theorem setSlot_slot (s : State V) (g c g') :
    (s.setSlot g c).slot g' = if g' = g then c else s.slot g' :=
  Function.update_apply ..

@[simp] theorem setSlot_current (s : State V) (g c) : (s.setSlot g c).current = s.current := rfl
@[simp] theorem setSlot_hasOld (s : State V) (g c) : (s.setSlot g c).hasOld = s.hasOld := rfl
@[simp] theorem setSlot_thread (s : State V) (g c) : (s.setSlot g c).thread = s.thread := rfl
@[simp] theorem setSlot_log (s : State V) (g c) : (s.setSlot g c).log = s.log := rfl

@[simp] theorem setLock_lock (s : State V) (g l i) :
    ((s.setLock g l).slot i).lock = if i = g then l else (s.slot i).lock := by
  simp only [setLock, setSlot_slot]; split <;> simp_all

@[simp] theorem setLock_value (s : State V) (g l i) :
    ((s.setLock g l).slot i).value = (s.slot i).value := by
  simp only [setLock, setSlot_slot]; split <;> simp_all

@[simp] theorem setValue_lock (s : State V) (g v i) :
    ((s.setValue g v).slot i).lock = (s.slot i).lock := by
  simp only [setValue, setSlot_slot]; split <;> simp_all

@[simp] theorem setValue_value (s : State V) (g v i) :
    ((s.setValue g v).slot i).value = if i = g then v else (s.slot i).value := by
  simp only [setValue, setSlot_slot]; split <;> simp_all

@[simp] theorem setLock_slot_ne (s : State V) {g i} (l) (h : i ≠ g) :
    (s.setLock g l).slot i = s.slot i := by
  simp [setLock, h]

@[simp] theorem setValue_slot_ne (s : State V) {g i} (v) (h : i ≠ g) :
    (s.setValue g v).slot i = s.slot i := by
  simp [setValue, h]

@[simp] theorem setLock_current (s : State V) (g l) : (s.setLock g l).current = s.current := rfl
@[simp] theorem setLock_hasOld (s : State V) (g l) : (s.setLock g l).hasOld = s.hasOld := rfl
@[simp] theorem setLock_thread (s : State V) (g l) : (s.setLock g l).thread = s.thread := rfl
@[simp] theorem setLock_log (s : State V) (g l) : (s.setLock g l).log = s.log := rfl
@[simp] theorem setValue_current (s : State V) (g v) : (s.setValue g v).current = s.current := rfl
@[simp] theorem setValue_hasOld (s : State V) (g v) : (s.setValue g v).hasOld = s.hasOld := rfl
@[simp] theorem setValue_thread (s : State V) (g v) : (s.setValue g v).thread = s.thread := rfl
@[simp] theorem setValue_log (s : State V) (g v) : (s.setValue g v).log = s.log := rfl

/-- Modelled from the spec: one cell of `partial_rehash` (`hash_table.rs`, not in the sources,
spec §4.3): `k`'s entry moves from generation `g - 1` into generation `g`, and the source cell of
generation `g - 1` is killed. -/
def migrate (s : State V) (g : Nat) : State V :=
  (s.setValue g (s.slot (g - 1)).value).setSlot (g - 1) ⟨.killed, none⟩

@[simp] theorem migrate_slot (s : State V) (g i) :
    (s.migrate g).slot i = if i = g - 1 then ⟨.killed, none⟩ else
      if i = g then { s.slot g with value := (s.slot (g - 1)).value } else s.slot i := by
  simp only [migrate, setSlot_slot, setValue]

@[simp] theorem migrate_current (s : State V) (g) : (s.migrate g).current = s.current := rfl
@[simp] theorem migrate_hasOld (s : State V) (g) : (s.migrate g).hasOld = s.hasOld := rfl
@[simp] theorem migrate_thread (s : State V) (g) : (s.migrate g).thread = s.thread := rfl
@[simp] theorem migrate_log (s : State V) (g) : (s.migrate g).log = s.log := rfl

/-- Modelled from the spec: `resize` (`hash_table.rs`, not in the sources, spec §4.4) publishes
a new array, one generation on, whose `old_array` is the current one; `k` has no entry in its
cell yet. -/
def resize (s : State V) : State V :=
  { s with slot := Function.update s.slot (s.current + 1) ⟨.free, none⟩
           current := s.current + 1, hasOld := true }

@[simp] theorem resize_slot (s : State V) (i) :
    s.resize.slot i = if i = s.current + 1 then ⟨.free, none⟩ else s.slot i :=
  Function.update_apply ..

@[simp] theorem resize_current (s : State V) : s.resize.current = s.current + 1 := rfl
@[simp] theorem resize_hasOld (s : State V) : s.resize.hasOld = true := rfl
@[simp] theorem resize_thread (s : State V) : s.resize.thread = s.thread := rfl
@[simp] theorem resize_log (s : State V) : s.resize.log = s.log := rfl

/-- Modelled from the spec: once every source cell is migrated, `partial_rehash`
(`hash_table.rs`, not in the sources, spec §4.3) clears the current array's `old_array`. -/
def clearOld (s : State V) : State V := { s with hasOld := false }

@[simp] theorem clearOld_slot (s : State V) : s.clearOld.slot = s.slot := rfl
@[simp] theorem clearOld_current (s : State V) : s.clearOld.current = s.current := rfl
@[simp] theorem clearOld_hasOld (s : State V) : s.clearOld.hasOld = false := rfl
@[simp] theorem clearOld_thread (s : State V) : s.clearOld.thread = s.thread := rfl
@[simp] theorem clearOld_log (s : State V) : s.clearOld.log = s.log := rfl

/-- Thread `t`'s store or insert takes effect: it enters the ghost log. -/
def appendLog (s : State V) (t : Nat) : State V := { s with log := s.log ++ [t] }

@[simp] theorem appendLog_slot (s : State V) (t) : (s.appendLog t).slot = s.slot := rfl
@[simp] theorem appendLog_current (s : State V) (t) : (s.appendLog t).current = s.current := rfl
@[simp] theorem appendLog_hasOld (s : State V) (t) : (s.appendLog t).hasOld = s.hasOld := rfl
@[simp] theorem appendLog_thread (s : State V) (t) : (s.appendLog t).thread = s.thread := rfl
@[simp] theorem appendLog_log (s : State V) (t) : (s.appendLog t).log = s.log ++ [t] := rfl

end State

/-- Where `acquire` returns to: the operation's next step, holding the lock of generation `g`,
`present` telling whether the search found `k`. -/
def afterAcquire (g : Nat) (present : Bool) : Op V → Pc V
  | .upsert _ _ => if present then .read g else .insert g
  | .update _ => .unlock g (if present then .read g else .done false)
  | _ => .unlock g (.done false)

/-- Where the updater's store returns to. -/
def afterWrite (g : Nat) : Op V → Pc V
  | .upsert _ _ => .unlock g (.done true)
  | _ => .done true

/-- The updater of an operation. -/
def Op.updater : Op V → V → V
  | .upsert _ u => u
  | .update u => u
  | _ => id

/-- The constructor of an operation, if it has one. -/
def Op.constructor : Op V → Option V
  | .upsert c _ => some c
  | _ => none

/-- Modelled from the spec: `HashTable::acquire` and the `Locker` (`hash_table.rs` and
`cell.rs`, not in the sources, spec §4.3 and §4.4), followed by the bodies of `update` and
`upsert` (`hash_map.rs`): the next step of thread `t`.  A thread waiting for a lock someone else
holds does not move. -/
def State.stepThread (s : State V) (t : Nat) : State V :=
  match (s.thread t).pc with
  | .start => s.setPc t (if s.hasOld then .rehash s.current else
      if (s.thread t).op matches .rehash then .done false else .lock s.current)
  | .rehash g =>
    match (s.slot (g - 1)).lock with
    | .free => (s.setLock (g - 1) (.locked t)).setPc t (.migrate g)
    | .killed => s.setPc t (if (s.thread t).op matches .rehash then .done false else .lock g)
    | .locked _ => s
  | .migrate g =>
    match (s.slot g).lock with
    | .free => (s.migrate g).setPc t
        (if (s.thread t).op matches .rehash then .done false else .lock g)
    | _ => s
  | .lock g =>
    match (s.slot g).lock with
    | .free => (s.setLock g (.locked t)).setPc t (.check g)
    | .killed => s.setPc t .start
    | .locked _ => s
  | .check g =>
    if s.current = g then s.setPc t (afterAcquire g (s.slot g).value.isSome (s.thread t).op)
    else (s.setLock g .free).setPc t .start
  | .read g =>
    match (s.slot g).value with
    | some x => s.setPc t (.write g x)
    | none => s.setPc t (.done false)
  | .write g x =>
    ((s.setValue g ((s.slot g).value.map fun _ => (s.thread t).op.updater x)).setPc t
        (afterWrite g (s.thread t).op)).appendLog t
  | .insert g =>
    match (s.thread t).op.constructor with
    | some c => ((s.setValue g (some c)).setPc t (.unlock g (.done false))).appendLog t
    | none => s
  | .unlock g next => (s.setLock g .free).setPc t next
  | .done _ => s

/-- One event. -/
def step (s : State V) : Event → State V
  | .step t => s.stepThread t
  | .resize => if s.hasOld then s else s.resize
  | .clearOld => if s.hasOld ∧ (s.slot (s.current - 1)).lock = .killed then s.clearOld else s

/-- A schedule, run in order. -/
def run (s : State V) (es : List Event) : State V := es.foldl step s

/-- Threads `0 .. ops.length - 1` start the operations `ops` on a map where `k ↦ v₀`, with one
array and no rehash; every other thread has already returned. -/
def State.init (v₀ : Option V) (ops : List (Op V)) : State V where
  slot := fun _ => ⟨.free, v₀⟩
  current := 0
  hasOld := false
  thread := fun t => if h : t < ops.length then ⟨ops[t], .start⟩ else ⟨.other, .done false⟩
  log := []

/-- The cell holding `k`'s entry: the old array's cell while it is not killed, else the
current array's. -/
def State.owner (s : State V) : Nat :=
  if s.hasOld ∧ (s.slot (s.current - 1)).lock ≠ .killed then s.current - 1 else s.current

/-- `k`'s value in the map. -/
def State.value (s : State V) : Option V := (s.slot s.owner).value

/-- Whether an operation is an `upsert`. -/
def Op.isUpsert : Op V → Bool
  | .upsert _ _ => true
  | _ => false

/-- Whether an operation is an `update`. -/
def Op.isUpdate : Op V → Bool
  | .update _ => true
  | _ => false

/-- One upsert applied on its own: on an absent key its constructor, else its updater. -/
def Op.applyTo : Op V → Option V → Option V
  | .upsert c _, none => some c
  | .upsert _ u, some x => some (u x)
  | _, v => v

/-- Upserts applied one after the other from the value `v`. -/
def serialUpsert (v : Option V) (ops : List (Op V)) : Option V :=
  ops.foldl (fun v op => op.applyTo v) v

/-- The upsert threads among `ops`. -/
def upsertThreads (ops : List (Op V)) : List Nat :=
  (List.range ops.length).filter fun t => (ops.getD t .other).isUpsert

/-! ### Two updates lose one increment -/

/-- Two calls `update(&k, |_, v| *v += 1)`. -/
def twoIncrements : List (Op Nat) := [.update (· + 1), .update (· + 1)]

/-- Each of the two calls runs `acquire` and drops its locker, then both load `0`, and both
store `1`. -/
def lostUpdateSchedule : List Event :=
  [.step 0, .step 0, .step 0, .step 0, .step 1, .step 1, .step 1, .step 1,
   .step 0, .step 1, .step 0, .step 1]

/-- **`update` runs its updater after releasing the cell.**  Two concurrent
`update(&k, |_, v| *v += 1)` calls on `k ↦ 0` both return `Some`, and `k ↦ 1`. -/
theorem update_lost_update :
    (∀ t < 2, ((run (State.init (some 0) twoIncrements) lostUpdateSchedule).thread t).pc =
      .done true) ∧ (run (State.init (some 0) twoIncrements) lostUpdateSchedule).value = some 1 := by
  decide

end KeyLock

end SccHashMap
