import SccHashMap.Word
import Mathlib.Data.List.Perm.Basic

/-!
# Cells, and the sweep of `retain` over them

`cell.rs` is not part of the sources: a `Cell` is modelled here from the spec (§3, §4.2) as a
map with no operation in flight sees it, that is with no locker in it: a killed flag, 32 slots
and an overflow chain.  Its entries, in the order of its iterator, are those of the slots and
then those of the chain; a killed cell shows none.

`HashMap::retain` and `HashMap::retain_async` (`hash_map.rs`) share their innermost loop: for
each entry the filter runs on it, the entry is kept or erased, one of two counters goes up, and
the loop gives up once a counter reaches `usize::MAX`.  `Sweep` is that loop's state, and
`Sweep.cells` the loop over all the cells of an array.

* `Sweep.cells_entries`: the sweep of an array's cells is the sweep of the sequence of their
  entries.
* `Sweep.run_eq_serialRetain`: while the counters stay below `usize::MAX`, the sweep of a
  sequence of entries is `serialRetain`, the filter applied once to each entry in order.
-/

namespace SccHashMap

/-- Modelled from the spec: a `Cell` (`cell.rs`, not in the sources, spec §3 and §4.2) with no
locker in it: its killed flag, its 32 slots (slot `i` holds an entry iff `partial_hashes[i] != 0`)
and its overflow chain. -/
structure Cell (K V : Type) where
  killed : Bool
  slots : List (Option (K × V))
  overflow : List (K × V)

namespace Cell

variable {K V : Type}

/-- Modelled from the spec: a new cell, live, with 32 free slots and no overflow chain. -/
def empty : Cell K V := ⟨false, List.replicate 32 none, []⟩

/-- Modelled from the spec: the entries a reader finds in the cell, in the order of its
iterator (the slots, then the overflow chain); a killed cell shows none. -/
def entries (c : Cell K V) : List (K × V) :=
  if c.killed then [] else c.slots.filterMap id ++ c.overflow

/-- The first free slot takes `e`, if there is one. -/
def insertSlot (e : K × V) : List (Option (K × V)) → Option (List (Option (K × V)))
  | [] => none
  | none :: rest => some (some e :: rest)
  | some x :: rest => (insertSlot e rest).map (some x :: ·)

/-- Modelled from the spec: `Locker::insert` puts the entry in the first free slot, else in a
new node at the head of the overflow chain. -/
def insert (c : Cell K V) (e : K × V) : Cell K V :=
  match insertSlot e c.slots with
  | some slots => { c with slots := slots }
  | none => { c with overflow := e :: c.overflow }

/-- Modelled from the spec: `Locker::kill`, once the entries have been moved out: the slots are
cleared and the cell is killed. -/
def kill (c : Cell K V) : Cell K V := ⟨true, c.slots.map fun _ => none, []⟩

theorem insertSlot_perm {e : K × V} :
    ∀ {sl sl' : List (Option (K × V))}, insertSlot e sl = some sl' →
      (sl'.filterMap id).Perm (e :: sl.filterMap id)
  | [], _, h => by simp [insertSlot] at h
  | none :: rest, _, h => by simp only [insertSlot, Option.some.injEq] at h; subst h; simp
  | some x :: rest, _, h => by
    simp only [insertSlot, Option.map_eq_some'] at h
    obtain ⟨r, hr, rfl⟩ := h
    simpa using ((insertSlot_perm hr).cons x).trans (.swap e x _)

@[simp] theorem insert_killed (c : Cell K V) (e : K × V) : (c.insert e).killed = c.killed := by
  unfold insert; split <;> rfl

/-- Inserting into a live cell adds exactly the entry. -/
theorem entries_insert {c : Cell K V} (hc : c.killed = false) (e : K × V) :
    (c.insert e).entries.Perm (e :: c.entries) := by
  unfold insert
  split
  next sl h => simpa [entries, hc] using (insertSlot_perm h).append_right c.overflow
  next => simp [entries, hc, List.perm_middle]

/-- Modelled from the spec: `Locker::lock` on a cell with no other locker: `None` once it is
killed, else the locker at once. -/
def lock (c : Cell K V) : Option Unit := if c.killed then none else some ()

/-- Modelled from the spec: `Locker::try_lock` on a cell with no other locker: `Ok(None)` once
it is killed, else `Ok(Some(_))`; `Err` (contention) needs another locker. -/
def tryLock (c : Cell K V) : Except Unit (Option Unit) := .ok c.lock

@[simp] theorem entries_kill (c : Cell K V) : c.kill.entries = [] := rfl

@[simp] theorem kill_killed (c : Cell K V) : c.kill.killed = true := rfl

end Cell

/-! ### The filter's specification -/

section Serial

variable {K V σ : Type} (filter : σ → K → V → Bool × V × σ)

/-- What `retain` means on a sequence of entries, one at a time: the filter, a closure with
state `σ`, applied once to each entry in order; the entries it keeps with the values it left in
them, the number it erased, and its state after. -/
def serialRetain : σ → List (K × V) → List (K × V) × Nat × σ
  | st, [] => ([], 0, st)
  | st, (k, v) :: rest =>
    let (keep, v', st') := filter st k v
    let r := serialRetain st' rest
    if keep then ((k, v') :: r.1, r.2.1, r.2.2) else (r.1, r.2.1 + 1, r.2.2)

/-- Every entry is either kept or erased. -/
theorem serialRetain_length (st : σ) (es : List (K × V)) :
    (serialRetain filter st es).1.length + (serialRetain filter st es).2.1 = es.length := by
  induction es generalizing st with
  | nil => rfl
  | cons e es ih =>
    obtain ⟨k, v⟩ := e
    rcases h : filter st k v with ⟨_ | _, v', st'⟩ <;> simp [serialRetain, h] <;>
      have := ih st' <;> omega

end Serial

/-! ### The sweep of `retain` -/

/-- The state of `retain`'s sweep: its two counters, the state of the filter, and whether a
counter reached `usize::MAX`, where the loop gives up. -/
structure Sweep (σ : Type) where
  retained : Nat
  removed : Nat
  filterState : σ
  stopped : Bool

namespace Sweep

variable {K V σ : Type} (filter : σ → K → V → Bool × V × σ)

/-- One turn of `while iterator.next().is_some()` in `retain`: the filter on the entry, then
`retained_entries += 1`, or `locker.erase` and `removed_entries += 1`, then the check for
`usize::MAX`.  Returns the entry's value after, `none` once erased; after the loop gave up
(`return (retained_entries, removed_entries)`) no entry is visited. -/
def visit (acc : Sweep σ) (k : K) (v : V) : Option V × Sweep σ :=
  if acc.stopped then (some v, acc) else
    let (keep, v', st) := filter acc.filterState k v
    let retained := if keep then acc.retained + 1 else acc.retained
    let removed := if keep then acc.removed else acc.removed + 1
    (if keep then some v' else none,
      ⟨retained, removed, st, retained == usizeMax || removed == usizeMax⟩)

/-- The sweep along a sequence of entries, as along an overflow chain, whose erased nodes are
unlinked. -/
def run : Sweep σ → List (K × V) → List (K × V) × Sweep σ
  | acc, [] => ([], acc)
  | acc, (k, v) :: rest =>
    let r₁ := acc.visit filter k v
    let r₂ := run r₁.2 rest
    ((r₁.1.map fun v' => (k, v')).toList ++ r₂.1, r₂.2)

/-- The sweep along the slots of a cell: an erased slot is marked free. -/
def slots : Sweep σ → List (Option (K × V)) → List (Option (K × V)) × Sweep σ
  | acc, [] => ([], acc)
  | acc, none :: rest => let r := slots acc rest; (none :: r.1, r.2)
  | acc, some (k, v) :: rest =>
    let r₁ := acc.visit filter k v
    let r₂ := slots r₁.2 rest
    ((r₁.1.map fun v' => (k, v')) :: r₂.1, r₂.2)

/-- The sweep of a locked cell: `locker.cell().iter(..)` over its slots, then its overflow
chain. -/
def locked (acc : Sweep σ) (c : Cell K V) : Cell K V × Sweep σ :=
  let s := acc.slots filter c.slots
  let o := s.2.run filter c.overflow
  (⟨c.killed, s.1, o.1⟩, o.2)

/-- `if let Some(locker) = Locker::lock(..)`: a killed cell is passed over. -/
def cell (acc : Sweep σ) (c : Cell K V) : Cell K V × Sweep σ :=
  match c.lock with
  | none => (c, acc)
  | some _ => acc.locked filter c

/-- `for cell_index in 0..num_cells()`: the sweep of the cells of an array in index order. -/
def cells : Sweep σ → List (Cell K V) → List (Cell K V) × Sweep σ
  | acc, [] => ([], acc)
  | acc, c :: cs =>
    let r₁ := acc.cell filter c
    let r₂ := cells r₁.2 cs
    (r₁.1 :: r₂.1, r₂.2)

theorem run_append (acc : Sweep σ) (es₁ es₂ : List (K × V)) :
    acc.run filter (es₁ ++ es₂) =
      ((acc.run filter es₁).1 ++ ((acc.run filter es₁).2.run filter es₂).1,
        ((acc.run filter es₁).2.run filter es₂).2) := by
  induction es₁ generalizing acc with
  | nil => rfl
  | cons e es ih => obtain ⟨k, v⟩ := e; simp [run, ih]

/-- The sweep of the slots is the sweep of the entries in them. -/
theorem slots_eq_run (acc : Sweep σ) (sl : List (Option (K × V))) :
    (acc.slots filter sl).1.filterMap id = (acc.run filter (sl.filterMap id)).1 ∧
      (acc.slots filter sl).2 = (acc.run filter (sl.filterMap id)).2 := by
  induction sl generalizing acc with
  | nil => simp [slots, run]
  | cons x sl ih =>
    rcases x with _ | ⟨k, v⟩
    · simpa [slots] using ih acc
    · have := ih (acc.visit filter k v).2
      simp only [slots, run, List.filterMap_cons_some, id]
      generalize acc.visit filter k v = r at this ⊢
      obtain ⟨_ | v', acc₁⟩ := r <;> simp_all

/-- The sweep of a cell is the sweep of its entries, and keeps it live or killed. -/
theorem cell_eq_run (acc : Sweep σ) (c : Cell K V) :
    (acc.cell filter c).1.entries = (acc.run filter c.entries).1 ∧
      (acc.cell filter c).2 = (acc.run filter c.entries).2 ∧
      (acc.cell filter c).1.killed = c.killed := by
  unfold cell locked
  cases h : c.killed
  · obtain ⟨h₁, h₂⟩ := slots_eq_run filter acc c.slots
    simp [Cell.lock, Cell.entries, h, run_append, h₁, h₂]
  · simp [Cell.lock, Cell.entries, h, run]

/-- **The sweep of an array's cells is the sweep of the sequence of their entries**, and keeps
every cell live or killed. -/
theorem cells_entries (acc : Sweep σ) (cs : List (Cell K V)) :
    (acc.cells filter cs).1.flatMap Cell.entries = (acc.run filter (cs.flatMap Cell.entries)).1 ∧
      (acc.cells filter cs).2 = (acc.run filter (cs.flatMap Cell.entries)).2 ∧
      (acc.cells filter cs).1.map Cell.killed = cs.map Cell.killed := by
  induction cs generalizing acc with
  | nil => simp [cells, run]
  | cons c cs ih =>
    obtain ⟨h₁, h₂, h₃⟩ := cell_eq_run filter acc c
    obtain ⟨h₄, h₅, h₆⟩ := ih (acc.run filter c.entries).2
    simp [cells, run_append, h₁, h₂, h₃, h₄, h₅, h₆]

/-- The sweep keeps or erases entries, each under its key, and adds none. -/
theorem run_keys_sublist (acc : Sweep σ) (es : List (K × V)) :
    ((acc.run filter es).1.map Prod.fst).Sublist (es.map Prod.fst) := by
  induction es generalizing acc with
  | nil => simp [run]
  | cons e es ih =>
    obtain ⟨k, v⟩ := e
    have := ih (acc.visit filter k v).2
    simp only [run, List.map_append, List.map_cons]
    generalize acc.visit filter k v = r at this ⊢
    obtain ⟨_ | v', acc'⟩ := r
    · exact this.cons k
    · exact this.cons₂ k

/-- The `i`-th cell after the sweep is the sweep of the `i`-th cell. -/
theorem cells_getElem? {acc : Sweep σ} {cs : List (Cell K V)} {i : Nat} {d : Cell K V}
    (h : (acc.cells filter cs).1[i]? = some d) :
    ∃ (c : Cell K V) (acc' : Sweep σ), cs[i]? = some c ∧ d = (acc'.cell filter c).1 := by
  induction cs generalizing acc i with
  | nil => simp [cells] at h
  | cons c cs ih =>
    cases i with
    | zero =>
      simp only [cells, List.getElem?_cons_zero, Option.some.injEq] at h
      exact ⟨c, acc, List.getElem?_cons_zero, h.symm⟩
    | succ i =>
      simp only [cells, List.getElem?_cons_succ] at h
      simpa only [List.getElem?_cons_succ] using ih h

/-- **While the counters stay below `usize::MAX`, the sweep is the filter's run**: it keeps
what the filter keeps with the values it left in them, counts what it keeps and what it erases,
and leaves the filter in the same state. -/
theorem run_eq_serialRetain (acc : Sweep σ) (es : List (K × V))
    (h : acc.retained + acc.removed + es.length ≤ usizeMax) (hs : acc.stopped = true → es = []) :
    (acc.run filter es).1 = (serialRetain filter acc.filterState es).1 ∧
      (acc.run filter es).2.retained =
        acc.retained + (serialRetain filter acc.filterState es).1.length ∧
      (acc.run filter es).2.removed = acc.removed + (serialRetain filter acc.filterState es).2.1 ∧
      (acc.run filter es).2.filterState = (serialRetain filter acc.filterState es).2.2 := by
  induction es generalizing acc with
  | nil => simp [run, serialRetain]
  | cons e es ih =>
    obtain ⟨k, v⟩ := e
    have hst : acc.stopped = false := by
      cases h' : acc.stopped
      · rfl
      · exact absurd (hs h') (List.cons_ne_nil _ _)
    simp only [List.length_cons] at h
    rcases hf : filter acc.filterState k v with ⟨keep, v', st'⟩
    have hv : acc.visit filter k v = (if keep then some v' else none,
        ⟨if keep then acc.retained + 1 else acc.retained,
          if keep then acc.removed else acc.removed + 1, st',
          (if keep then acc.retained + 1 else acc.retained) == usizeMax ||
            (if keep then acc.removed else acc.removed + 1) == usizeMax⟩) := by
      simp only [visit, hst, hf, Bool.false_eq_true, if_false]
    -- the counters after this entry leave room for the rest, so the loop goes on
    obtain ⟨h₁, h₂, h₃, h₄⟩ := ih (acc.visit filter k v).2
      (by rw [hv]; dsimp only; split <;> omega)
      (by
        rw [hv]
        intro hc
        simp only [Bool.or_eq_true, beq_iff_eq] at hc
        exact List.eq_nil_of_length_eq_zero (by split at hc <;> omega))
    simp only [run, serialRetain, hf, h₁, h₂, h₃, h₄]
    rw [hv]
    cases keep <;> simp <;> omega

end Sweep

end SccHashMap
