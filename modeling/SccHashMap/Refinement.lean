import SccHashMap.Reachable
import SccHashMap.FiniteMap

/-!
# The hash map refines a finite map, over every sequence of calls

A sequence of calls of the map's public API, one after the other with no operation in flight
on another thread, runs on the cell array (`Call.exec`) and on the finite map it is meant to
be (`Call.spec`).  The calls are `insert`, `remove_if`, `remove`, `update`, `upsert`,
`read`, `contains`, `retain` with a filter that keeps no state of its own, `clear`,
`for_each`, `len`, `is_empty`, and the two steps the map takes on its own inside other calls:
a rehash step and a resize with the capacity a `policy` chooses.

`Refines a m` says that the array `a` is valid and holds the entries of `m` in some order.
Every call keeps it and answers as the finite map does (`Call.exec_refines`); by induction
over the calls, a map that starts as `HashMap::new` leaves it, driven by any sequence of at
most `usize::MAX` calls, gives the replies of the finite map driven by the same calls and ends
holding its entries (`runCalls_new_refines`).  The bound keeps `retain`'s counters below
`usize::MAX`, where it would give up: each call adds at most one entry (`Call.len_spec_le`).

`insert_remove_roundTrip`: on every array a map reaches, `remove` undoes the `insert` of an
absent key.
-/

namespace SccHashMap

/-- A resize leaves the map an array. -/
theorem MapState.resize_some {K V : Type} (policy : CellArray K V → Option Nat) (a : CellArray K V) :
    ∃ a', (MapState.resize policy ⟨some a⟩).array = some a' := by
  unfold MapState.resize
  dsimp only
  cases policy a with
  | none => exact ⟨a, rfl⟩
  | some lb => dsimp only; split_ifs <;> exact ⟨_, rfl⟩

namespace HashMap

variable {K V R : Type}

/-- A call of the map's API.  `retain`'s filter and `for_each`'s closure keep no state of
their own; `update` and `read` return an `R`. -/
inductive Call (K V R : Type) where
  | insert (k : K) (v : V)
  | removeIf (k : K) (condition : V → Bool)
  | remove (k : K)
  | update (k : K) (updater : K → V → V × R)
  | upsert (k : K) (constructor : V) (updater : K → V → V)
  | read (k : K) (reader : K → V → R)
  | contains (k : K)
  | retain (filter : K → V → Bool × V)
  | clear
  | forEach (f : K → V → V)
  | len
  | isEmpty
  /-- A `partial_rehash` step another operation drives. -/
  | rehash
  /-- A `resize` another operation starts. -/
  | resize

/-- What a call returns. -/
inductive Reply (K V R : Type) where
  | inserted (r : Except (K × V) Unit)
  | removed (r : Option (K × V))
  | value (r : Option R)
  | found (b : Bool)
  | counts (retained removed : Nat)
  | count (n : Nat)
  | done

/-- A filter `|k, v| -> bool` that captures no state, as `retain` takes it: whether to keep
the entry, and the value it leaves in it. -/
def statelessFilter (g : K → V → Bool × V) (_ : Unit) (k : K) (v : V) : Bool × V × Unit :=
  ((g k v).1, (g k v).2, ())

variable [DecidableEq K] (hash : K → UInt64) (policy : CellArray K V → Option Nat)

/-- A call on the cell array, as the code runs it.  `retain`, `clear` and `for_each` get one
turn of their loop more than the rehash has steps left, which is enough (`retain_complete`);
their `none` branches and the `getD` fallbacks are never taken. -/
def Call.exec (a : CellArray K V) : Call K V R → Reply K V R × CellArray K V
  | .insert k v => (.inserted (HashMap.insert hash k v a).1, (HashMap.insert hash k v a).2)
  | .removeIf k condition => (.removed (HashMap.removeIf hash k condition a).1,
      (HashMap.removeIf hash k condition a).2)
  | .remove k => (.removed (HashMap.remove hash k a).1, (HashMap.remove hash k a).2)
  | .update k updater => (.value (HashMap.update hash k updater a).1, (HashMap.update hash k updater a).2)
  | .upsert k constructor updater => (.done, HashMap.upsert hash k constructor updater a)
  | .read k reader => (.value (HashMap.read hash k reader a), a)
  | .contains k => (.found (HashMap.contains hash k a), a)
  | .retain g =>
    match HashMap.retain hash policy (statelessFilter g) () (a.rehashLeft + 1) ⟨some a⟩ with
    | some (r, d, _, m) => (.counts r d, m.array.getD a)
    | none => (.counts 0 0, a)
  | .clear =>
    match HashMap.clear hash policy (a.rehashLeft + 1) ⟨some a⟩ with
    | some (d, m) => (.count d, m.array.getD a)
    | none => (.count 0, a)
  | .forEach f =>
    match HashMap.forEach hash policy (fun (_ : Unit) k v => (f k v, ())) () (a.rehashLeft + 1) ⟨some a⟩ with
    | some (_, m) => (.done, m.array.getD a)
    | none => (.done, a)
  | .len => (.count (MapState.len ⟨some a⟩), a)
  | .isEmpty => (.found (MapState.isEmpty ⟨some a⟩), a)
  | .rehash => (.done, a.partialRehash hash)
  | .resize => (.done, (MapState.resize policy ⟨some a⟩).array.getD a)

/-- The same call on the finite map. -/
def Call.spec (m : FiniteMap K V) : Call K V R → Reply K V R × FiniteMap K V
  | .insert k v => (.inserted (m.insert k v).1, (m.insert k v).2)
  | .removeIf k condition => (.removed (m.removeIf k condition).1, (m.removeIf k condition).2)
  | .remove k => (.removed (m.removeIf k fun _ => true).1, (m.removeIf k fun _ => true).2)
  | .update k updater => (.value (m.update k updater).1, (m.update k updater).2)
  | .upsert k constructor updater => (.done, m.upsert k constructor updater)
  | .read k reader => (.value ((m.find k).map (reader k)), m)
  | .contains k => (.found (m.find k).isSome, m)
  | .retain g => (.counts (m.retain g).1 (m.retain g).2.1, (m.retain g).2.2)
  | .clear => (.count m.len, ∅)
  | .forEach f => (.done, m.forEach f)
  | .len => (.count m.len, m)
  | .isEmpty => (.found m.entries.isEmpty, m)
  | .rehash => (.done, m)
  | .resize => (.done, m)

/-- Calls one after the other on the cell array, with their replies. -/
def runCalls : CellArray K V → List (Call K V R) → List (Reply K V R) × CellArray K V
  | a, [] => ([], a)
  | a, c :: cs =>
    ((c.exec hash policy a).1 :: (runCalls (c.exec hash policy a).2 cs).1,
      (runCalls (c.exec hash policy a).2 cs).2)

/-- Calls one after the other on the finite map. -/
def runSpec : FiniteMap K V → List (Call K V R) → List (Reply K V R) × FiniteMap K V
  | m, [] => ([], m)
  | m, c :: cs => ((c.spec m).1 :: (runSpec (c.spec m).2 cs).1, (runSpec (c.spec m).2 cs).2)

/-- The array is valid and holds the entries of the finite map, in some order. -/
structure Refines (a : CellArray K V) (m : FiniteMap K V) : Prop where
  valid : a.Valid hash
  perm : (a.entries.map Prod.toSigma).Perm m.entries

variable {hash policy}

theorem Refines.toMap_eq {a : CellArray K V} {m : FiniteMap K V} (h : Refines hash a m) :
    a.toMap = m.find :=
  funext fun k => (lookup_eq_dlookup a.entries k).trans
    (List.perm_dlookup k h.valid.nodupKeys m.nodupKeys h.perm)

theorem Refines.of_toMap {a : CellArray K V} {m : FiniteMap K V} (hv : a.Valid hash)
    (he : a.toMap = m.find) : Refines hash a m :=
  ⟨hv, List.lookup_ext hv.nodupKeys m.nodupKeys fun k v => by
    rw [← lookup_eq_dlookup]
    exact Iff.of_eq (congrArg (v ∈ ·) (congrFun he k))⟩

omit [DecidableEq K] in
theorem Refines.len_eq {a : CellArray K V} {m : FiniteMap K V} (h : Refines hash a m) :
    MapState.len ⟨some a⟩ = m.len :=
  (List.length_map a.entries Prod.toSigma).symm.trans h.perm.length_eq

/-- `remove_if` on an array that refines `m` answers as the finite map does and leaves an array
that refines what the finite map leaves. -/
theorem Refines.removeIf {a : CellArray K V} {m : FiniteMap K V} (h : Refines hash a m) (k : K)
    (condition : V → Bool) :
    (HashMap.removeIf hash k condition a).1 = (m.removeIf k condition).1 ∧
      Refines hash (HashMap.removeIf hash k condition a).2 (m.removeIf k condition).2 := by
  obtain ⟨hv, h₁, h₂⟩ := h.valid.removeEntry hash k condition
  refine ⟨?_, Refines.of_toMap hv ?_⟩
  · simp only [HashMap.removeIf, h₁, h.toMap_eq, FiniteMap.removeIf]
    split <;> rename_i hf <;> rw [hf] <;> rfl
  · rw [HashMap.removeIf, h₂, FiniteMap.find_removeIf, h.toMap_eq]

/-! ### `retain` with a stateless filter -/

section Retain

omit [DecidableEq K] in
/-- A stateless filter's serial run keeps what it keeps and counts what it erases, read as an
association list. -/
theorem serialRetain_statelessFilter (g : K → V → Bool × V) (es : List (K × V)) :
    (serialRetain (statelessFilter g) () es).1.map Prod.toSigma =
        (es.map Prod.toSigma).filterMap (FiniteMap.kept g) ∧
      (serialRetain (statelessFilter g) () es).2.1 =
        (es.map Prod.toSigma).countP (fun e => !(g e.1 e.2).1) := by
  induction es with
  | nil => exact ⟨rfl, rfl⟩
  | cons e es ih =>
    obtain ⟨k, v⟩ := e
    by_cases hk : (g k v).1 <;>
      simp [serialRetain, statelessFilter, FiniteMap.kept, hk, ih.1, ih.2, List.countP_cons]

variable (hpol : ∀ a lb, policy a = some lb → lb ≤ 64)
include hpol

omit [DecidableEq K] in
/-- `retain` with a stateless filter, driven to completion on an array that refines `m`,
returns the finite map's counts and leaves an array that refines what the finite map keeps. -/
theorem Refines.retain_stateless {a : CellArray K V} {m : FiniteMap K V} (h : Refines hash a m)
    (hlen : m.len ≤ usizeMax) (g : K → V → Bool × V) :
    (retainResult hash policy (statelessFilter g) () ⟨some a⟩).1 = (m.retain g).1 ∧
      (retainResult hash policy (statelessFilter g) () ⟨some a⟩).2.1 = (m.retain g).2.1 ∧
      ∃ a', (retainResult hash policy (statelessFilter g) () ⟨some a⟩).2.2.2.array = some a' ∧
        Refines hash a' (m.retain g).2.2 := by
  have hw : MapState.WellFormed ⟨some a⟩ := fun _ h' => by cases h'; exact h.valid.wellFormed
  have hl : MapState.len ⟨some a⟩ ≤ usizeMax := h.len_eq ▸ hlen
  -- the sweep visits the entries of `m` in some order
  have hp : ((sweepOrder hash ⟨some a⟩).map Prod.toSigma).Perm m.entries :=
    ((sweepOrder_perm hash hw).map _).trans (by simpa [MapState.entries] using h.perm)
  obtain ⟨h₁, h₂, -, h₄⟩ := retainResult_eq_serialRetain hash policy (statelessFilter g) () hw hl
  obtain ⟨hs₁, hs₂⟩ := serialRetain_statelessFilter g (sweepOrder hash ⟨some a⟩)
  have hr := retain_complete hash policy (statelessFilter g) ()
    (show rehashTurns (⟨some a⟩ : MapState K V) < a.rehashLeft + 1 from Nat.lt_succ_self _)
  obtain ⟨a', ha'⟩ : ∃ a', (retainResult hash policy (statelessFilter g) () ⟨some a⟩).2.2.2.array
      = some a' := by
    obtain ⟨b, hb, -⟩ := valid_sweepMap hash (statelessFilter g) h.valid ⟨0, 0, (), false⟩
    simp only [HashMap.retainResult, finish, hb]
    split_ifs
    · exact MapState.resize_some policy b
    · exact ⟨b, rfl⟩
  refine ⟨h₁.trans ?_, h₂.trans (hs₂.trans (hp.countP_eq _)), a', ha',
    valid_retain hash policy _ hpol h.valid hr ha', ?_⟩
  · rw [← List.length_map _ Prod.toSigma, hs₁]
    exact (hp.filterMap _).length_eq
  have he : a'.entries = (retainResult hash policy (statelessFilter g) () ⟨some a⟩).2.2.2.entries := by
    simp [MapState.entries, ha']
  rw [he, h₄, hs₁]
  exact hp.filterMap _

end Retain

/-! ### One call -/

/-- Each call adds at most one entry to the finite map. -/
theorem Call.len_spec_le (m : FiniteMap K V) (c : Call K V R) : (c.spec m).2.len ≤ m.len + 1 := by
  cases c with
  | insert k v => exact m.len_insert_le k v
  | removeIf k condition => exact (m.len_removeIf_le k condition).trans (Nat.le_succ _)
  | remove k => exact (m.len_removeIf_le k _).trans (Nat.le_succ _)
  | update k updater =>
    show (m.update k updater).2.len ≤ m.len + 1
    unfold FiniteMap.update
    split
    · exact m.len_alistInsert_le k _
    · exact Nat.le_succ _
  | upsert k constructor updater =>
    show (m.upsert k constructor updater).len ≤ m.len + 1
    unfold FiniteMap.upsert
    split <;> exact m.len_alistInsert_le k _
  | retain g => exact (List.length_filterMap_le _ _).trans (Nat.le_succ _)
  | clear => simp [Call.spec, FiniteMap.len]
  | forEach f => simp [Call.spec, FiniteMap.forEach, FiniteMap.len]
  | read | contains | len | isEmpty | rehash | resize => exact Nat.le_succ _

section Run

variable (hpol : ∀ a lb, policy a = some lb → lb ≤ 64)
include hpol

/-- **One call refines the finite map's**: on an array that refines `m`, with at most
`usize::MAX` entries, every call returns what the finite map returns and leaves an array that
refines the finite map it leaves. -/
theorem Call.exec_refines {a : CellArray K V} {m : FiniteMap K V} (h : Refines hash a m)
    (hlen : m.len ≤ usizeMax) (c : Call K V R) :
    (c.exec hash policy a).1 = (c.spec m).1 ∧ Refines hash (c.exec hash policy a).2 (c.spec m).2 := by
  have hmap := h.toMap_eq
  have hturns : ∀ b : CellArray K V, rehashTurns (⟨some b⟩ : MapState K V) < b.rehashLeft + 1 :=
    fun b => Nat.lt_succ_self _
  cases c with
  | insert k v =>
    obtain ⟨hv, h₁, h₂⟩ := h.valid.insertEntry hash k v
    refine ⟨?_, Refines.of_toMap hv ?_⟩
    · simp only [Call.exec, Call.spec, HashMap.insert, h₁, hmap, FiniteMap.insert]
      split_ifs <;> rfl
    · show (a.insertEntry hash k v).2.toMap = (m.insert k v).2.find
      rw [h₂, FiniteMap.find_insert, hmap]
  | removeIf k condition =>
    obtain ⟨h₁, h₂⟩ := h.removeIf k condition
    exact ⟨congrArg Reply.removed h₁, h₂⟩
  | remove k =>
    obtain ⟨h₁, h₂⟩ := h.removeIf k fun _ => true
    exact ⟨congrArg Reply.removed h₁, h₂⟩
  | update k updater =>
    obtain ⟨hv, h₁, h₂⟩ := valid_update h.valid k updater
    refine ⟨by simp only [Call.exec, Call.spec, h₁, hmap, FiniteMap.fst_update], Refines.of_toMap hv ?_⟩
    show (HashMap.update hash k updater a).2.toMap = (m.update k updater).2.find
    rw [h₂, FiniteMap.find_update, hmap]
  | upsert k constructor updater =>
    obtain ⟨hv, h₂⟩ := valid_upsert h.valid k constructor updater
    refine ⟨rfl, Refines.of_toMap hv ?_⟩
    show (HashMap.upsert hash k constructor updater a).toMap = (m.upsert k constructor updater).find
    rw [h₂, FiniteMap.find_upsert, hmap]
  | read k reader =>
    exact ⟨by simp only [Call.exec, Call.spec, HashMap.read, h.valid.readEntry hash k, hmap], h⟩
  | contains k =>
    exact ⟨by simp only [Call.exec, Call.spec, HashMap.contains, HashMap.read,
      h.valid.readEntry hash k, hmap, Option.isSome_map'], h⟩
  | retain g =>
    obtain ⟨h₁, h₂, a', ha', hr⟩ := h.retain_stateless hpol hlen g
    simp only [Call.exec, Call.spec, retain_complete hash policy _ () (hturns a), ha',
      Option.getD_some]
    exact ⟨by rw [h₁, h₂], hr⟩
  | clear =>
    obtain ⟨-, h₂, a', ha', hr⟩ := h.retain_stateless hpol hlen fun _ v => (false, v)
    rw [FiniteMap.retain_clear] at h₂ hr
    simp only [Call.exec, Call.spec, HashMap.clear, show clearFilter = statelessFilter
      (fun (_ : K) (v : V) => (false, v)) from rfl, retain_complete hash policy _ ()
      (hturns a), Option.map_some', ha', Option.getD_some]
    exact ⟨by rw [h₂], hr⟩
  | forEach f =>
    obtain ⟨-, -, a', ha', hr⟩ := h.retain_stateless hpol hlen fun k v => (true, f k v)
    rw [FiniteMap.retain_forEach] at hr
    simp only [Call.exec, Call.spec, HashMap.forEach, show forEachFilter (fun (_ : Unit) k v =>
      (f k v, ())) = statelessFilter (fun k v => (true, f k v)) from rfl,
      retain_complete hash policy _ () (hturns a), Option.map_some', ha',
      Option.getD_some, true_and]
    exact hr
  | len => exact ⟨congrArg Reply.count h.len_eq, h⟩
  | isEmpty =>
    refine ⟨congrArg Reply.found ?_, h⟩
    rw [MapState.isEmpty, h.len_eq, FiniteMap.len]
    cases m.entries <;> rfl
  | rehash =>
    obtain ⟨hv, hp⟩ := h.valid.partialRehash hash
    exact ⟨rfl, hv, (hp.map _).trans h.perm⟩
  | resize =>
    obtain ⟨a', ha'⟩ := MapState.resize_some policy a
    obtain ⟨hv, he⟩ := MapState.valid_resize hash policy hpol h.valid ha'
    simp only [Call.exec, Call.spec, ha', Option.getD_some, true_and]
    exact ⟨hv, he ▸ h.perm⟩

/-! ### Whole runs -/

/-- **Every run refines the finite map's**: from an array that refines `m`, a sequence of calls
that never takes the map past `usize::MAX` entries returns the finite map's replies and leaves
an array that refines the finite map it leaves. -/
theorem runCalls_refines {a : CellArray K V} {m : FiniteMap K V} (h : Refines hash a m)
    (cs : List (Call K V R)) (hb : m.len + cs.length ≤ usizeMax) :
    (runCalls hash policy a cs).1 = (runSpec m cs).1 ∧
      Refines hash (runCalls hash policy a cs).2 (runSpec m cs).2 := by
  induction cs generalizing a m with
  | nil => exact ⟨rfl, h⟩
  | cons c cs ih =>
    rw [List.length_cons] at hb
    obtain ⟨h₁, h'⟩ := Call.exec_refines hpol h (by omega) c
    have hg := Call.len_spec_le m c
    obtain ⟨ih₁, ih₂⟩ := ih h' (by omega)
    exact ⟨by rw [runCalls, runSpec, h₁, ih₁], ih₂⟩

variable (hash policy) in
/-- **A map from `HashMap::new` is a finite map over every run**: driven by any sequence of
at most `usize::MAX` calls, `retain`'s filter and `for_each`'s closure keeping no state of their
own, the array `HashMap::new` allocates returns, call by call, what the empty finite map driven
by the same calls returns, and ends valid and holding its entries. -/
theorem runCalls_new_refines (lb : Nat) (hlb : lb ≤ 64) (cs : List (Call K V R))
    (hb : cs.length ≤ usizeMax) :
    (runCalls hash policy (CellArray.new lb) cs).1 = (runSpec ∅ cs).1 ∧
      Refines hash (runCalls hash policy (CellArray.new lb) cs).2 (runSpec ∅ cs).2 :=
  runCalls_refines hpol ⟨CellArray.Valid.new hash hlb, by simp [CellArray.new, CellArray.entries]⟩
    cs (by simpa [FiniteMap.len] using hb)

end Run

theorem runCalls_new_refines_insertTwice :
    (∀ (a : CellArray Nat Nat) lb, (fun _ => none : CellArray Nat Nat → Option Nat) a = some lb →
      lb ≤ 64) ∧ 1 ≤ 64 ∧
    ([.insert 1 0, .insert 1 1, .len] : List (Call Nat Nat Nat)).length ≤ usizeMax ∧
    ((runCalls Nat.toUInt64 (fun _ => none) (CellArray.new 1)
        ([.insert 1 0, .insert 1 1, .len] : List (Call Nat Nat Nat))).1 =
      (runSpec ∅ ([.insert 1 0, .insert 1 1, .len] : List (Call Nat Nat Nat))).1 ∧
    Refines Nat.toUInt64 (runCalls Nat.toUInt64 (fun _ => none) (CellArray.new 1)
        ([.insert 1 0, .insert 1 1, .len] : List (Call Nat Nat Nat))).2
      (runSpec ∅ ([.insert 1 0, .insert 1 1, .len] : List (Call Nat Nat Nat))).2) :=
  have hpol : ∀ (a : CellArray Nat Nat) lb, (fun _ => none : CellArray Nat Nat → Option Nat) a =
      some lb → lb ≤ 64 := fun _ _ h => Option.noConfusion h
  ⟨hpol, by decide, by decide,
    runCalls_new_refines Nat.toUInt64 (fun _ => none) hpol 1 (by decide) _ (by decide)⟩

/-! ### A round trip -/

variable (policy) in
/-- **`remove` undoes `insert`**: on every array a map reaches, inserting an absent key and then
removing it returns `Ok(())`, then the inserted pair, and leaves the entries the map had, in some
order. -/
theorem insert_remove_roundTrip (hpol : ∀ a lb, policy a = some lb → lb ≤ 64) {a : CellArray K V}
    (hr : Reachable hash policy a) {k : K} (hk : a.toMap k = none) (v : V) :
    (HashMap.insert hash k v a).1 = .ok () ∧
      (HashMap.remove hash k (HashMap.insert hash k v a).2).1 = some (k, v) ∧
      (HashMap.remove hash k (HashMap.insert hash k v a).2).2.entries.Perm a.entries := by
  have hv := hr.valid hpol
  obtain ⟨hv₁, h₁, h₁'⟩ := hv.insertEntry hash k v
  obtain ⟨hv₂, h₂, h₂'⟩ := hv₁.removeEntry hash k fun _ => true
  have hk₁ : (a.insertEntry hash k v).2.toMap k = some v := by simp [h₁', hk]
  have hins : (HashMap.insert hash k v a).2 = (a.insertEntry hash k v).2 := rfl
  have hmap : ((a.insertEntry hash k v).2.removeEntry hash k fun _ => true).2.toMap = a.toMap := by
    rw [h₂', hk₁]
    simp [h₁', hk, Option.filter, Function.update_eq_self_iff]
  exact ⟨by simp [HashMap.insert, h₁, hk], by simp [hins, HashMap.remove, HashMap.removeIf, h₂, hk₁],
    perm_of_lookup hv₂.nodupKeys hv.nodupKeys (congrFun hmap)⟩

/-- `insert(1, 0)` then `remove(&1)` on `HashMap::default`'s array after `insert(2, 5)`: the
round trip leaves the entry of `2`. -/
theorem insert_remove_roundTrip_afterInsert :
    (∀ (a : CellArray Nat Nat) lb, (fun _ => none : CellArray Nat Nat → Option Nat) a = some lb →
      lb ≤ 64) ∧
    Reachable Nat.toUInt64 (fun _ => none) (HashMap.insert Nat.toUInt64 2 5 (CellArray.new 1)).2 ∧
    let a : CellArray Nat Nat := (HashMap.insert Nat.toUInt64 2 5 (CellArray.new 1)).2
    a.toMap 1 = none ∧
    (HashMap.insert Nat.toUInt64 1 0 a).1 = .ok () ∧
      (HashMap.remove Nat.toUInt64 1 (HashMap.insert Nat.toUInt64 1 0 a).2).1 = some (1, 0) ∧
      (HashMap.remove Nat.toUInt64 1 (HashMap.insert Nat.toUInt64 1 0 a).2).2.entries.Perm
        a.entries :=
  have hpol : ∀ (a : CellArray Nat Nat) lb,
      (fun _ => none : CellArray Nat Nat → Option Nat) a = some lb → lb ≤ 64 :=
    fun _ _ h => Option.noConfusion h
  have hr : Reachable Nat.toUInt64 (fun _ => none)
      (HashMap.insert Nat.toUInt64 2 5 (CellArray.new 1 : CellArray Nat Nat)).2 :=
    .insert 2 5 (.new 1 (by decide))
  have hk : (HashMap.insert Nat.toUInt64 2 5 (CellArray.new 1 : CellArray Nat Nat)).2.toMap 1 =
      none := rfl
  ⟨hpol, hr, hk, insert_remove_roundTrip (fun _ => none) hpol hr hk 0⟩

/-- The documentation examples of `insert` and `len` on `HashMap::default`'s array. -/
example : (runCalls Nat.toUInt64 (fun _ => none) (CellArray.new 1)
    ([.insert 1 0, .insert 1 1, .len, .remove 1, .isEmpty] : List (Call Nat Nat Nat))).1 =
    [.inserted (.ok ()), .inserted (.error (1, 1)), .count 1, .removed (some (1, 0)), .found true] :=
  rfl

end HashMap

end SccHashMap
