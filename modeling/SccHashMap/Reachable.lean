import SccHashMap.Update

/-!
# Every map the operations reach, and the finite map it stands for

A map starts as `HashMap::new` leaves it and then goes through any sequence of the operations
modelled so far, none of them in flight at once: `insert`, `remove_if`, `update`, `upsert`, a
rehash step, a resize, and `retain`.  Every array it reaches is `Valid`: well formed, every entry in the cell
its hash selects, no key twice.  On such an array the operations act on the map it stands for,
`toMap`, as on a finite map.

* `Reachable.valid`: every array a map reaches is valid, and so well formed, which is what
  `retain_spec` asks of it.
* `Reachable.refines`: on every array a map reaches, `insert`, `remove_if`, `update`,
  `upsert`, `read` and `contains` are a finite map's insertion of an absent key, conditional
  removal, update, upsert, lookup and membership test, and a rehash step or a resize leaves the
  map as it is.
-/

namespace SccHashMap

namespace MapState

variable {K V : Type} (hash : K → UInt64) (policy : CellArray K V → Option Nat)

/-- **A resize keeps the array valid and moves no entry.** -/
theorem valid_resize (hpol : ∀ a lb, policy a = some lb → lb ≤ 64) {a a' : CellArray K V}
    (hv : a.Valid hash) (h : (MapState.resize policy ⟨some a⟩).array = some a') :
    a'.Valid hash ∧ a'.entries = a.entries := by
  have he := entries_resize policy ⟨some a⟩
  have hw := (show MapState.WellFormed ⟨some a⟩ from fun _ h => by
    cases h; exact hv.wellFormed).resize hpol
  simp only [MapState.entries, h, Option.map_some', Option.getD_some] at he
  refine ⟨⟨hw a' h, ?_, he ▸ hv.nodupKeys⟩, he⟩
  unfold MapState.resize at h
  simp only at h
  split at h
  · cases h; exact hv.placed
  · split_ifs at h
    · cases h
      refine ⟨fun i c hc e he => ?_, fun old hold => ?_⟩
      · rw [show c = Cell.empty from List.eq_of_mem_replicate (List.mem_iff_getElem?.2 ⟨i, hc⟩)]
          at he
        simp at he
      · cases hold; exact hv.placed.cells
    · cases h; exact hv.placed

end MapState

namespace HashMap

section Retain

variable {K V σ : Type} (hash : K → UInt64) (policy : CellArray K V → Option Nat)
  (filter : σ → K → V → Bool × V × σ)

/-- The sweep of `retain` keeps a valid array valid: each cell keeps entries under its own
keys. -/
theorem valid_sweepMap {a : CellArray K V} (hv : a.Valid hash) (acc : Sweep σ) :
    ∃ a', (sweepMap hash filter acc ⟨some a⟩).2.2 = ⟨some a'⟩ ∧ a'.Valid hash := by
  obtain ⟨hv', -⟩ := hv.rehashAll hash
  have hold := CellArray.rehashAll_oldArray hash a
  obtain ⟨h₁, -, hk⟩ := Sweep.cells_entries filter acc (a.rehashAll hash).cells
  refine ⟨_, rfl, ⟨?_, ⟨fun i d hd e he => ?_, fun _ h => absurd h (by simp [hold])⟩, ?_⟩⟩
  · have hl := congrArg List.length hk
    simp only [List.length_map] at hl
    exact ⟨hl.trans hv'.wellFormed.cells_length, hv'.wellFormed.lbCapacity_le,
      CellArray.live_of_map_killed hk hv'.wellFormed.live, fun _ h => absurd h (by simp [hold])⟩
  · obtain ⟨c, acc', hc, rfl⟩ := Sweep.cells_getElem? filter hd
    rw [(Sweep.cell_eq_run filter acc' c).1] at he
    obtain ⟨⟨k, v⟩, hm, hk⟩ := List.mem_map.1 <|
      (Sweep.run_keys_sublist filter acc' c.entries).subset (List.mem_map_of_mem Prod.fst he)
    exact hk ▸ hv'.placed.cells i c hc (k, v) hm
  · have hent : (a.rehashAll hash).entries = (a.rehashAll hash).cells.flatMap Cell.entries := by
      simp [CellArray.entries, hold]
    have hnd : ((a.rehashAll hash).entries.map Prod.fst).Nodup := by
      simpa [List.NodupKeys] using hv'.nodupKeys
    simp only [List.NodupKeys, keys_map_toSigma, CellArray.entries, hold, h₁, Option.map_none',
      Option.getD_none, List.append_nil]
    exact (Sweep.run_keys_sublist filter acc _).nodup (hent ▸ hnd)

/-- **`retain` keeps a valid array valid.** -/
theorem valid_retain (hpol : ∀ a lb, policy a = some lb → lb ≤ 64) {a a' : CellArray K V}
    (hv : a.Valid hash) {st : σ} {fuel : Nat} {r} (h : retain hash policy filter st fuel ⟨some a⟩ = some r)
    (ha : r.2.2.2.array = some a') : a'.Valid hash := by
  rw [retain_eq_retainResult hash policy filter h] at ha
  obtain ⟨b, hb, hvb⟩ := valid_sweepMap hash filter hv ⟨0, 0, st, false⟩
  simp only [retainResult, finish, hb] at ha
  split_ifs at ha
  · exact (MapState.valid_resize hash policy hpol hvb ha).1
  · cases ha; exact hvb

end Retain

end HashMap

/-! ### The maps a map reaches -/

section Reach

variable {K V : Type} [DecidableEq K] (hash : K → UInt64) (policy : CellArray K V → Option Nat)

/-- The arrays a map goes through from `HashMap::new`, one operation at a time: `insert`,
`remove_if`, `update`, `upsert`, a rehash step, a resize with the capacity `policy` chooses,
and `retain` with any filter. -/
inductive Reachable : CellArray K V → Prop
  | new (lb : Nat) : lb ≤ 64 → Reachable (CellArray.new lb)
  | insert {a : CellArray K V} (k : K) (v : V) : Reachable a →
      Reachable (HashMap.insert hash k v a).2
  | removeIf {a : CellArray K V} (k : K) (condition : V → Bool) : Reachable a →
      Reachable (HashMap.removeIf hash k condition a).2
  | update {a : CellArray K V} {R : Type} (k : K) (updater : K → V → V × R) : Reachable a →
      Reachable (HashMap.update hash k updater a).2
  | upsert {a : CellArray K V} (k : K) (constructor : V) (updater : K → V → V) : Reachable a →
      Reachable (HashMap.upsert hash k constructor updater a)
  | partialRehash {a : CellArray K V} : Reachable a → Reachable (a.partialRehash hash)
  | resize {a a' : CellArray K V} : Reachable a →
      (MapState.resize policy ⟨some a⟩).array = some a' → Reachable a'
  | retain {a a' : CellArray K V} {σ : Type} (filter : σ → K → V → Bool × V × σ) (st : σ)
      (fuel : Nat) (r : Nat × Nat × σ × MapState K V) : Reachable a →
      HashMap.retain hash policy filter st fuel ⟨some a⟩ = some r → r.2.2.2.array = some a' →
      Reachable a'

variable {hash policy}

/-- **Every array a map reaches is valid**, for a resize policy within `2 ^ 64` cells. -/
theorem Reachable.valid (hpol : ∀ a lb, policy a = some lb → lb ≤ 64) {a : CellArray K V}
    (hr : Reachable hash policy a) : a.Valid hash := by
  induction hr with
  | new lb hlb => exact CellArray.Valid.new hash hlb
  | insert k v _ ih => exact (ih.insertEntry hash k v).1
  | removeIf k condition _ ih => exact (ih.removeEntry hash k condition).1
  | update k updater _ ih => exact (HashMap.valid_update ih k updater).1
  | upsert k constructor updater _ ih => exact (HashMap.valid_upsert ih k constructor updater).1
  | partialRehash _ ih => exact (ih.partialRehash hash).1
  | resize _ h ih => exact (MapState.valid_resize hash policy hpol ih h).1
  | retain filter st fuel r _ h ha ih => exact HashMap.valid_retain hash policy filter hpol ih h ha

/-- Every map reached is in the domain of `retain_spec`. -/
theorem Reachable.wellFormed (hpol : ∀ a lb, policy a = some lb → lb ≤ 64) {a : CellArray K V}
    (hr : Reachable hash policy a) : MapState.WellFormed ⟨some a⟩ := by
  rintro _ ⟨⟩
  exact (hr.valid hpol).wellFormed

/-- **The hash map refines a finite map.**  On every array a map reaches, `insert` adds `k ↦ v`
exactly when `k` is absent and otherwise hands `(k, v)` back; `remove_if` removes `k` exactly
when its value meets the condition, handing the entry back; `update` rewrites the value of a
present `k`; `upsert` sets `k` to its updater's value or its constructor's; `read` and
`contains` look `k` up; and a rehash step or a resize leaves the map as it is. -/
theorem Reachable.refines (hpol : ∀ a lb, policy a = some lb → lb ≤ 64) {a : CellArray K V}
    (hr : Reachable hash policy a) (k : K) :
    (∀ v, (HashMap.insert hash k v a).1 =
        (if (a.toMap k).isSome then .error (k, v) else .ok ()) ∧
      (HashMap.insert hash k v a).2.toMap =
        if (a.toMap k).isSome then a.toMap else Function.update a.toMap k (some v)) ∧
    (∀ condition, (HashMap.removeIf hash k condition a).1 =
        ((a.toMap k).filter condition).map (k, ·) ∧
      (HashMap.removeIf hash k condition a).2.toMap =
        if ((a.toMap k).filter condition).isSome then Function.update a.toMap k none
        else a.toMap) ∧
    (∀ {R : Type} (updater : K → V → V × R),
      (HashMap.update hash k updater a).1 = (a.toMap k).map (fun v => (updater k v).2) ∧
      (HashMap.update hash k updater a).2.toMap =
        Function.update a.toMap k ((a.toMap k).map fun v => (updater k v).1)) ∧
    (∀ constructor updater, (HashMap.upsert hash k constructor updater a).toMap =
      Function.update a.toMap k ((KeyLock.Op.upsert constructor (updater k)).applyTo (a.toMap k))) ∧
    (∀ {R : Type} (reader : K → V → R), HashMap.read hash k reader a = (a.toMap k).map (reader k)) ∧
    HashMap.contains hash k a = (a.toMap k).isSome ∧
    (a.partialRehash hash).toMap = a.toMap ∧
    ∀ a', (MapState.resize policy ⟨some a⟩).array = some a' → a'.toMap = a.toMap := by
  have hv := hr.valid hpol
  have hread : ∀ {R : Type} (reader : K → V → R),
      HashMap.read hash k reader a = (a.toMap k).map (reader k) := fun reader => by
    rw [HashMap.read, hv.readEntry hash k]
  refine ⟨fun v => ?_, fun condition => (hv.removeEntry hash k condition).2,
    fun updater => (HashMap.valid_update hv k updater).2,
    fun constructor updater => (HashMap.valid_upsert hv k constructor updater).2, hread,
    by rw [HashMap.contains, hread, Option.isSome_map'], ?_, fun a' h => ?_⟩
  · obtain ⟨-, h₁, h₂⟩ := hv.insertEntry hash k v
    refine ⟨?_, h₂⟩
    simp only [HashMap.insert, h₁]
    split_ifs <;> rfl
  · obtain ⟨hv', hp⟩ := hv.partialRehash hash
    exact CellArray.toMap_perm hv'.nodupKeys hp
  · obtain ⟨-, he⟩ := MapState.valid_resize hash policy hpol hv h
    exact funext fun k => by rw [CellArray.toMap, he, CellArray.toMap]

/-- A map from `HashMap::default`'s array after `insert(1, 0)`, with no resize, at key `1`. -/
theorem Reachable.refines_afterInsert :
    (∀ (a : CellArray Nat Nat) lb, (fun _ => none : CellArray Nat Nat → Option Nat) a = some lb →
      lb ≤ 64) ∧
    Reachable Nat.toUInt64 (fun _ => none) (HashMap.insert Nat.toUInt64 1 0 (CellArray.new 1)).2 ∧
    let a : CellArray Nat Nat := (HashMap.insert Nat.toUInt64 1 0 (CellArray.new 1)).2
    (∀ v, (HashMap.insert Nat.toUInt64 1 v a).1 =
        (if (a.toMap 1).isSome then .error (1, v) else .ok ()) ∧
      (HashMap.insert Nat.toUInt64 1 v a).2.toMap =
        if (a.toMap 1).isSome then a.toMap else Function.update a.toMap 1 (some v)) ∧
    (∀ condition, (HashMap.removeIf Nat.toUInt64 1 condition a).1 =
        ((a.toMap 1).filter condition).map (1, ·) ∧
      (HashMap.removeIf Nat.toUInt64 1 condition a).2.toMap =
        if ((a.toMap 1).filter condition).isSome then Function.update a.toMap 1 none
        else a.toMap) ∧
    (∀ {R : Type} (updater : Nat → Nat → Nat × R),
      (HashMap.update Nat.toUInt64 1 updater a).1 = (a.toMap 1).map (fun v => (updater 1 v).2) ∧
      (HashMap.update Nat.toUInt64 1 updater a).2.toMap =
        Function.update a.toMap 1 ((a.toMap 1).map fun v => (updater 1 v).1)) ∧
    (∀ constructor updater, (HashMap.upsert Nat.toUInt64 1 constructor updater a).toMap =
      Function.update a.toMap 1
        ((KeyLock.Op.upsert constructor (updater 1)).applyTo (a.toMap 1))) ∧
    (∀ {R : Type} (reader : Nat → Nat → R),
      HashMap.read Nat.toUInt64 1 reader a = (a.toMap 1).map (reader 1)) ∧
    HashMap.contains Nat.toUInt64 1 a = (a.toMap 1).isSome ∧
    (a.partialRehash Nat.toUInt64).toMap = a.toMap ∧
    ∀ a', (MapState.resize (fun _ => none) ⟨some a⟩).array = some a' → a'.toMap = a.toMap :=
  have hpol : ∀ (a : CellArray Nat Nat) lb,
      (fun _ => none : CellArray Nat Nat → Option Nat) a = some lb → lb ≤ 64 :=
    fun _ _ h => Option.noConfusion h
  have hr : Reachable Nat.toUInt64 (fun _ => none)
      (HashMap.insert Nat.toUInt64 1 0 (CellArray.new 1 : CellArray Nat Nat)).2 :=
    .insert 1 0 (.new 1 (by decide))
  ⟨hpol, hr, Reachable.refines hpol hr 1⟩

/-- `insert`'s documentation example: `insert(1, 0)` is `Ok`, and then `insert(1, 1)` hands
`(1, 1)` back. -/
example : (HashMap.insert Nat.toUInt64 1 0 (CellArray.new 1 : CellArray Nat Nat)).1 = .ok () ∧
    (HashMap.insert Nat.toUInt64 1 1
      (HashMap.insert Nat.toUInt64 1 0 (CellArray.new 1 : CellArray Nat Nat)).2).1 =
      .error (1, 1) :=
  ⟨rfl, rfl⟩

end Reach

namespace HashMap

/-- The map of `retain`'s documentation example: `HashMap::default`'s array after
`insert(1, 0)`, `insert(2, 1)` and `insert(3, 2)`. -/
def docExample : MapState Nat Nat :=
  ⟨some (HashMap.insert Nat.toUInt64 3 2 (HashMap.insert Nat.toUInt64 2 1
    (HashMap.insert Nat.toUInt64 1 0 (CellArray.new 1)).2).2).2⟩

/-- The filter of the documentation example, `|k, v| *k == 1 && *v == 0`. -/
def docFilter (_ : Unit) (k v : Nat) : Bool × Nat × Unit := (k == 1 && v == 0, v, ())

/-- The array of the documentation example is one a map reaches, so it is well formed. -/
theorem docExample_wellFormed : docExample.WellFormed :=
  have hpol : ∀ (a : CellArray Nat Nat) lb,
      (fun _ => none : CellArray Nat Nat → Option Nat) a = some lb → lb ≤ 64 :=
    fun _ _ h => Option.noConfusion h
  Reachable.wellFormed hpol (.insert 3 2 (.insert 2 1 (.insert 1 0 (.new 1 (by decide)))))

theorem retain_spec_docExample :
    docExample.WellFormed ∧ docExample.len ≤ usizeMax ∧
      ∃ order : List (Nat × Nat), order.Perm docExample.entries ∧
        (∃ fuel r, retain Nat.toUInt64 (fun _ => none) docFilter () fuel docExample = some r) ∧
        (∀ fuel r, retain Nat.toUInt64 (fun _ => none) docFilter () fuel docExample = some r →
          r.1 = (serialRetain docFilter () order).1.length ∧
          r.2.1 = (serialRetain docFilter () order).2.1 ∧
          r.2.2.1 = (serialRetain docFilter () order).2.2 ∧
          r.2.2.2.entries = (serialRetain docFilter () order).1 ∧
          r.1 + r.2.1 = docExample.len ∧ r.2.2.2.len = r.1) ∧
        (∀ fuel r, clear Nat.toUInt64 (fun _ => none) fuel docExample = some r →
          r.1 = docExample.len ∧ r.2.entries = []) ∧
        ∀ {τ : Type} (f : τ → Nat → Nat → Nat × τ) (st : τ) (fuel : Nat) r,
          forEach Nat.toUInt64 (fun _ => none) f st fuel docExample = some r →
            (r.2.entries.map Prod.fst).Perm (docExample.entries.map Prod.fst) :=
  ⟨docExample_wellFormed, by decide,
    retain_spec Nat.toUInt64 (fun _ => none) docFilter () docExample docExample_wellFormed
      (by decide)⟩

/-- The documentation example's result: one entry retained, two removed. -/
example : (retain Nat.toUInt64 (fun _ => none) docFilter () 1 docExample).map
    (fun r => (r.1, r.2.1)) = some (1, 2) := by decide

end HashMap

end SccHashMap
