import SccHashMap.Retain
import Mathlib.Data.List.Sigma

/-!
# Operations on one key: `insert`, `remove_if` and `read`

`HashMap::insert`, `HashMap::remove_if` (and `remove`) and `HashMap::read` (and `contains`)
call `insert_entry`, `remove_entry` and `read_entry` of `hash_table.rs`, which are not part of
the sources; they are modelled here from the spec (§4.2 to §4.4) as a map with no other
operation in flight sees them.  A writer first migrates the key's source cell of the old array,
if there is one, then searches the key's cell of the current array; a reader looks in the
source cell first, then in the current cell.

The map an array stands for is `List.lookup` on its entries, whose keys are distinct.
`Placed` says that every entry sits in the cell its hash selects, in the current array and in
the old one; it is what lets a search of one cell answer for the whole map.

* `Valid.insertEntry`, `Valid.removeEntry`: the writers keep the array valid and act on the
  map it stands for as a finite map's insertion and removal.
* `Valid.readEntry`: the reader finds the map's value.
* `async_eq_sync`: `insert_async`, `remove_if_async` and `read_async` retry while another
  thread holds a lock they need; an attempt that gets `WouldBlock` after its rehash step has
  migrated the key's source cell, and the next attempt starts from there.  Each returns what
  its synchronous counterpart returns on the array the call started on.
-/

namespace SccHashMap

/-! ### The map an array stands for

A cell is searched with `List.lookup`; the invariant and the map an array stands for read its
entries as the library's association list (`List.NodupKeys`, `List.dlookup`) through
`Prod.toSigma`, and `lookup_eq_dlookup` connects the two. -/

section Lookup

variable {K V : Type}

@[simp] theorem keys_map_toSigma (es : List (K × V)) :
    (es.map Prod.toSigma).keys = es.map Prod.fst := by
  simp [List.keys]

@[simp] theorem mk_mem_map_toSigma {es : List (K × V)} {k : K} {v : V} :
    (⟨k, v⟩ : (_ : K) × V) ∈ es.map Prod.toSigma ↔ (k, v) ∈ es := by
  refine ⟨fun h => ?_, List.mem_map_of_mem Prod.toSigma⟩
  obtain ⟨⟨k', v'⟩, he, ⟨⟩⟩ := List.mem_map.1 h
  exact he

variable [DecidableEq K]

/-- The search of a cell is `dlookup` on its entries as an association list. -/
theorem lookup_eq_dlookup (es : List (K × V)) (k : K) :
    es.lookup k = (es.map Prod.toSigma).dlookup k := by
  induction es with
  | nil => rfl
  | cons e es ih =>
    obtain ⟨k', v⟩ := e
    by_cases h : k = k'
    · subst h; simp [List.dlookup_cons_eq]
    · have hb : (k == k') = false := beq_eq_false_iff_ne.2 h
      simp [List.lookup_cons, hb, List.dlookup_cons_ne _ (⟨k', v⟩ : (_ : K) × V) h, ih]

theorem lookup_eq_none {es : List (K × V)} {k : K} : es.lookup k = none ↔ k ∉ es.map Prod.fst := by
  rw [lookup_eq_dlookup, List.dlookup_eq_none, keys_map_toSigma]

theorem mem_of_lookup_eq_some {es : List (K × V)} {k : K} {v : V} (h : es.lookup k = some v) :
    (k, v) ∈ es :=
  mk_mem_map_toSigma.1 (List.of_mem_dlookup ((lookup_eq_dlookup es k).symm.trans h))

section NodupKeys

variable {es : List (K × V)} (nd : (es.map Prod.toSigma).NodupKeys)
include nd

/-- With distinct keys, the value under `k` is the one entry of key `k`. -/
theorem lookup_eq_some {k : K} {v : V} : es.lookup k = some v ↔ (k, v) ∈ es := by
  rw [lookup_eq_dlookup, ← Option.mem_def, List.mem_dlookup_iff nd, mk_mem_map_toSigma]

/-- Two orders of entries with distinct keys stand for one map. -/
theorem lookup_perm {es' : List (K × V)} (hp : es.Perm es') (k : K) :
    es.lookup k = es'.lookup k := by
  rw [lookup_eq_dlookup, lookup_eq_dlookup]
  exact List.perm_dlookup k nd ((List.perm_nodupKeys (hp.map _)).1 nd) (hp.map _)

/-- Entries with distinct keys that stand for one map are one another in some order. -/
theorem perm_of_lookup {es' : List (K × V)} (nd' : (es'.map Prod.toSigma).NodupKeys)
    (h : ∀ k, es.lookup k = es'.lookup k) : es.Perm es' := by
  have hp := (List.lookup_ext nd nd' fun k v => by
    rw [← lookup_eq_dlookup, ← lookup_eq_dlookup, h]).map fun s => (s.1, s.2)
  simpa [Function.comp_def] using hp

/-- An entry in a part of entries with distinct keys is what that part gives under its key. -/
theorem lookup_of_mem {es' : List (K × V)} (hs : es' ⊆ es) {k : K} {v : V} (he : (k, v) ∈ es') :
    es'.lookup k = some v := by
  cases hl : es'.lookup k with
  | none => exact absurd (List.mem_map_of_mem Prod.fst he) (lookup_eq_none.1 hl)
  | some w =>
    rw [nd.eq_of_mk_mem (mk_mem_map_toSigma.2 (hs (mem_of_lookup_eq_some hl)))
      (mk_mem_map_toSigma.2 (hs he))]

/-- A part of the entries that holds every entry of key `k` gives the value under `k`. -/
theorem lookup_of_subset {es' : List (K × V)} (hs : es' ⊆ es) {k : K}
    (hk : ∀ v, (k, v) ∈ es → (k, v) ∈ es') : es'.lookup k = es.lookup k := by
  cases hl : es.lookup k with
  | none =>
    refine lookup_eq_none.2 fun hm => lookup_eq_none.1 hl ?_
    obtain ⟨e, he, rfl⟩ := List.mem_map.1 hm
    exact List.mem_map_of_mem _ (hs he)
  | some v => exact lookup_of_mem nd hs (hk v ((lookup_eq_some nd).1 hl))

end NodupKeys

end Lookup

/-! ### Searching and erasing in a cell -/

namespace Cell

variable {K V : Type}

/-- An entry of a cell after an insertion is the inserted one or was there before. -/
theorem mem_entries_insert {c : Cell K V} {e₀ e : K × V} (he : e ∈ (c.insert e₀).entries) :
    e = e₀ ∨ e ∈ c.entries := by
  cases hc : c.killed
  · simpa using (entries_insert hc e₀).subset he
  · simp [entries, hc] at he

variable [DecidableEq K]

/-- The first slot holding an entry of key `k` is freed. -/
def eraseSlot (k : K) : List (Option (K × V)) → Option (List (Option (K × V)))
  | [] => none
  | none :: rest => (eraseSlot k rest).map (none :: ·)
  | some e :: rest => if e.1 = k then some (none :: rest) else (eraseSlot k rest).map (some e :: ·)

/-- Modelled from the spec: `Locker::erase` on the entry of key `k` that the cell's iterator
finds first: its slot is freed, or its overflow node is unlinked. -/
def erase (c : Cell K V) (k : K) : Cell K V :=
  match eraseSlot k c.slots with
  | some slots => { c with slots := slots }
  | none => { c with overflow := c.overflow.eraseP fun e => e.1 = k }

theorem eraseSlot_some {k : K} : ∀ {sl sl' : List (Option (K × V))}, eraseSlot k sl = some sl' →
    (∃ e ∈ sl.filterMap id, e.1 = k) ∧ sl'.filterMap id = (sl.filterMap id).eraseP fun e => e.1 = k
  | [], _, h => nomatch h
  | none :: rest, _, h => by
    obtain ⟨r, hr, rfl⟩ := Option.map_eq_some'.1 h
    exact (eraseSlot_some hr :)
  | some e :: rest, _, h => by
    have hp : ∀ l, (e :: l).eraseP (fun e => e.1 = k) = if e.1 = k then l else e :: l.eraseP fun e => e.1 = k :=
      fun l => by by_cases hk : e.1 = k <;> simp [hk]
    unfold eraseSlot at h
    split_ifs at h with hk
    · cases h
      exact ⟨⟨e, .head _, hk⟩, ((hp _).trans (if_pos hk)).symm⟩
    · obtain ⟨r, hr, rfl⟩ := Option.map_eq_some'.1 h
      obtain ⟨⟨e', he', hk'⟩, hs⟩ := eraseSlot_some hr
      exact ⟨⟨e', List.mem_cons_of_mem _ he', hk'⟩, by
        show e :: _ = (e :: _).eraseP _
        rw [hp, if_neg hk, hs]⟩

theorem eraseSlot_none {k : K} : ∀ {sl : List (Option (K × V))}, eraseSlot k sl = none →
    ∀ e ∈ sl.filterMap id, e.1 ≠ k
  | [], _ => nofun
  | none :: rest, h => by
    rw [eraseSlot, Option.map_eq_none'] at h
    exact (eraseSlot_none h :)
  | some e :: rest, h => by
    unfold eraseSlot at h
    split_ifs at h with hk
    intro e' he'
    rcases List.mem_cons.1 he' with rfl | he'
    · exact hk
    · exact eraseSlot_none (Option.map_eq_none'.1 h) e' he'

@[simp] theorem erase_killed (c : Cell K V) (k : K) : (c.erase k).killed = c.killed := by
  unfold erase; split <;> rfl

/-- Erasing from a live cell erases the first entry of key `k` among its entries. -/
theorem entries_erase {c : Cell K V} (hc : c.killed = false) (k : K) :
    (c.erase k).entries = c.entries.eraseP fun e => e.1 = k := by
  unfold erase
  split
  next sl h =>
    obtain ⟨⟨e, he, hk⟩, hs⟩ := eraseSlot_some h
    have happ := @List.eraseP_append_left _ (fun e : K × V => decide (e.1 = k)) e
      (by simpa using hk) _ c.overflow he
    simp [entries, hc, hs, happ]
  next h =>
    have happ := @List.eraseP_append_right _ (fun e : K × V => decide (e.1 = k))
      (c.slots.filterMap id) c.overflow fun b hb => by simpa using eraseSlot_none h b hb
    simp [entries, hc, happ]

end Cell

/-! ### Every entry in the cell its hash selects -/

namespace CellArray

section Placed

variable {K V : Type} (hash : K → UInt64)

/-- Every entry sits in the cell its key's hash selects, in the current array and in the old
one. -/
structure Placed (a : CellArray K V) : Prop where
  cells : ∀ i c, a.cells[i]? = some c → ∀ e ∈ c.entries, cellIndex a.lbCapacity (hash e.1) = i
  old : ∀ old, a.oldArray = some old → ∀ i c, old.cells[i]? = some c → ∀ e ∈ c.entries,
    cellIndex old.lbCapacity (hash e.1) = i

/-- An entry of a cell after entries moved in is one of them, moved into the cell its hash
selects, or was there before. -/
theorem mem_insertCells {lb j : Nat} {e : K × V} : ∀ {es : List (K × V)} {cells : List (Cell K V)}
    {d : Cell K V}, (insertCells hash lb cells es)[j]? = some d → e ∈ d.entries →
      (∃ c, cells[j]? = some c ∧ e ∈ c.entries) ∨ (e ∈ es ∧ cellIndex lb (hash e.1) = j)
  | [], _, d, hd, he => .inl ⟨d, hd, he⟩
  | e₀ :: es, cells, d, hd, he => by
    have hd' : (insertCells hash lb (cells.modify (·.insert e₀) (cellIndex lb (hash e₀.1))) es)[j]? =
      some d := hd
    rcases mem_insertCells hd' he with ⟨c', hc', he'⟩ | ⟨hes, hj⟩
    · rw [List.getElem?_modify] at hc'
      obtain ⟨c, hc, rfl⟩ := Option.map_eq_some'.1 hc'
      split_ifs at he' with hi
      · rcases Cell.mem_entries_insert he' with rfl | he'
        · exact .inr ⟨.head _, hi⟩
        · exact .inl ⟨c, hc, he'⟩
      · exact .inl ⟨c, hc, he'⟩
    · exact .inr ⟨.tail _ hes, hj⟩

theorem Placed.migrateCell {a : CellArray K V} (hp : a.Placed hash) (i : Nat) :
    (a.migrateCell hash i).Placed hash := by
  rcases migrateCell_cases hash a i with ⟨h, -⟩ | ⟨old, c, hold, hc, -, h⟩
  · rwa [h]
  · rw [h]
    constructor
    · intro j d hd e he
      rcases mem_insertCells hash hd he with ⟨c', hc', he'⟩ | ⟨-, hj⟩
      · exact hp.cells j c' hc' e he'
      · exact hj
    · rintro old' ⟨⟩ j d hd e he
      rw [List.getElem?_set] at hd
      split_ifs at hd
      · cases hd; simp at he
      · exact hp.old old hold j d hd e he

theorem Placed.foldl_migrateCell {a : CellArray K V} (hp : a.Placed hash) (l : List Nat) :
    (l.foldl (CellArray.migrateCell hash) a).Placed hash := by
  induction l generalizing a with
  | nil => exact hp
  | cons i l ih => exact ih (hp.migrateCell hash i)

/-- A rehash step keeps every entry in the cell its hash selects. -/
theorem Placed.partialRehash {a : CellArray K V} (hp : a.Placed hash) :
    (a.partialRehash hash).Placed hash := by
  have hb : ∀ stop, (a.migrateBatch hash stop).Placed hash := fun stop =>
    (show ({ a with rehashCursor := stop } : CellArray K V).Placed hash from
      ⟨hp.cells, hp.old⟩).foldl_migrateCell hash _
  unfold CellArray.partialRehash
  split
  · exact hp
  · dsimp only
    split_ifs
    · exact ⟨(hb _).cells, fun _ h => by simp at h⟩
    · exact hb _

theorem Placed.rehashN {a : CellArray K V} (hp : a.Placed hash) (n : Nat) :
    (rehashN hash n a).Placed hash := by
  induction n generalizing a with
  | zero => exact hp
  | succ n ih =>
    simp only [CellArray.rehashN]
    split
    · exact ih hp.partialRehash
    · exact hp

/-- An entry of key `k` is in the cell of `k` of the current array or of the old one. -/
theorem Placed.mem_entries {a : CellArray K V} (hp : a.Placed hash) {e : K × V}
    (he : e ∈ a.entries) :
    (∃ c, a.cells[cellIndex a.lbCapacity (hash e.1)]? = some c ∧ e ∈ c.entries) ∨
      ∃ old c, a.oldArray = some old ∧ old.cells[cellIndex old.lbCapacity (hash e.1)]? = some c ∧
        e ∈ c.entries := by
  rcases List.mem_append.1 he with he | he
  · obtain ⟨c, hc, he⟩ := List.mem_flatMap.1 he
    obtain ⟨i, hi⟩ := List.mem_iff_getElem?.1 hc
    exact .inl ⟨c, by rwa [hp.cells i c hi e he], he⟩
  · cases hold : a.oldArray with
    | none => simp [hold] at he
    | some old =>
      simp only [hold, Option.map_some', Option.getD_some] at he
      obtain ⟨c, hc, he⟩ := List.mem_flatMap.1 he
      obtain ⟨i, hi⟩ := List.mem_iff_getElem?.1 hc
      exact .inr ⟨old, c, rfl, by rwa [hp.old old hold i c hi e he], he⟩

theorem WellFormed.migrateCell {a : CellArray K V} (hw : a.WellFormed) (i : Nat) :
    (a.migrateCell hash i).WellFormed ∧ (a.migrateCell hash i).entries.Perm a.entries := by
  have hs := migrateCell_shape hash a i
  obtain ⟨hl, hb, hlive⟩ := hs.fits hw.cells_length hw.lbCapacity_le hw.live
  exact ⟨⟨hl, hb, hlive, hs.rehashCursor ▸ (migrateCell_migratedBelow hash hw.migrated i).1⟩,
    migrateCell_perm hash hw.cells_length hw.lbCapacity_le hw.live i⟩

/-! #### Replacing one cell -/

variable {a : CellArray K V} {i : Nat} {c d : Cell K V}

/-- Replacing cell `i` trades its entries for those of the new cell. -/
theorem entries_set (hc : a.cells[i]? = some c) :
    ({ a with cells := a.cells.set i d }.entries ++ c.entries).Perm (a.entries ++ d.entries) := by
  have h := (flatMap_set_perm Cell.entries d hc).append_right
    ((a.oldArray.map fun old => old.cells.flatMap Cell.entries).getD [])
  simp only [List.append_assoc] at h
  simp only [entries, List.append_assoc]
  exact (List.perm_append_comm.append_left _).trans (h.trans (List.perm_append_comm.append_left _))

theorem WellFormed.set (hw : a.WellFormed) (hd : d.killed = false) :
    { a with cells := a.cells.set i d }.WellFormed :=
  ⟨by simpa using hw.cells_length, hw.lbCapacity_le, fun c' hc' => by
    rcases List.mem_or_eq_of_mem_set hc' with hc' | rfl
    · exact hw.live c' hc'
    · exact hd, hw.migrated⟩

theorem Placed.set (hp : a.Placed hash)
    (hd : ∀ e ∈ d.entries, cellIndex a.lbCapacity (hash e.1) = i) :
    { a with cells := a.cells.set i d }.Placed hash := by
  refine ⟨fun j c' hc' e he => ?_, hp.old⟩
  rw [List.getElem?_set] at hc'
  split_ifs at hc' with hij
  · cases hc'; exact hij ▸ hd e he
  · exact hp.cells j c' hc' e he

/-! #### Acquiring a key's cell -/

/-- The cell of key `k` in the current array. -/
def cellOf (a : CellArray K V) (k : K) : Nat := cellIndex a.lbCapacity (hash k)

/-- Modelled from the spec: what `acquire` does before it locks the key's cell ("a writer must
not insert into the old array"): with an old array, the key's source cell there is migrated
into the current array and killed. -/
def acquire (a : CellArray K V) (k : K) : CellArray K V :=
  match a.oldArray with
  | none => a
  | some old => a.migrateCell hash (cellIndex old.lbCapacity (hash k))

/-- What every array a map reaches satisfies: well formed, every entry in the cell its hash
selects, and no key twice. -/
structure Valid (a : CellArray K V) : Prop where
  wellFormed : a.WellFormed
  placed : a.Placed hash
  nodupKeys : (a.entries.map Prod.toSigma).NodupKeys

theorem Valid.acquire {a : CellArray K V} (hv : a.Valid hash) (k : K) :
    (a.acquire hash k).Valid hash ∧ (a.acquire hash k).entries.Perm a.entries := by
  unfold CellArray.acquire
  split
  · exact ⟨hv, .refl _⟩
  · obtain ⟨hw, hp⟩ := hv.wellFormed.migrateCell hash _
    exact ⟨⟨hw, hv.placed.migrateCell hash _, (List.perm_nodupKeys (hp.map _)).2 hv.nodupKeys⟩, hp⟩

/-- After `acquire`, the key's source cell of the old array is killed. -/
theorem acquire_killed (a : CellArray K V) (k : K) (old : OldArray K V)
    (hold : (a.acquire hash k).oldArray = some old) (c : Cell K V)
    (hc : old.cells[cellIndex old.lbCapacity (hash k)]? = some c) : c.killed = true := by
  unfold CellArray.acquire at hold
  split at hold
  next h => simp [h] at hold
  next old₀ h₀ =>
    rcases migrateCell_cases hash a (cellIndex old₀.lbCapacity (hash k)) with
      ⟨h, hk⟩ | ⟨old₁, c₁, hold₁, hc₁, -, h⟩
    · rw [h, h₀] at hold
      cases hold
      exact hk old h₀ c hc
    · rw [h] at hold
      rw [h₀] at hold₁
      cases hold₁
      cases hold
      have hlt := (List.getElem?_eq_some_iff.1 hc₁).1
      simp only [List.getElem?_set, hlt, if_true, Option.some.injEq] at hc
      rw [← hc]
      rfl

/-- After `acquire`, every entry of key `k` is in the key's cell of the current array. -/
theorem Valid.mem_acquire {a : CellArray K V} (hv : a.Valid hash) {k : K} {v : V}
    (he : (k, v) ∈ (a.acquire hash k).entries) :
    ∃ c, (a.acquire hash k).cells[(a.acquire hash k).cellOf hash k]? = some c ∧
      (k, v) ∈ c.entries := by
  rcases (hv.acquire hash k).1.placed.mem_entries hash he with h | ⟨old, c, hold, hc, he⟩
  · exact h
  · simp [Cell.entries, acquire_killed hash a k old hold c hc] at he

theorem WellFormed.getElem?_cellOf {a : CellArray K V} (hw : a.WellFormed) (k : K) :
    ∃ c, a.cells[a.cellOf hash k]? = some c :=
  ⟨_, List.getElem?_eq_getElem (hw.cells_length ▸ cellIndex_lt hw.lbCapacity_le _)⟩

/-- Inserting `(k, v)` into the key's cell of a valid array without `k` keeps it valid and adds
exactly that entry. -/
theorem Valid.insert_cell {b : CellArray K V} (hb : b.Valid hash) {k : K} {c : Cell K V}
    (hc : b.cells[b.cellOf hash k]? = some c) (hk : k ∉ b.entries.map Prod.fst) (v : V) :
    ({ b with cells := b.cells.set (b.cellOf hash k) (c.insert (k, v)) } : CellArray K V).Valid
        hash ∧
      ({ b with cells := b.cells.set (b.cellOf hash k) (c.insert (k, v)) } :
        CellArray K V).entries.Perm ((k, v) :: b.entries) := by
  have hlive : c.killed = false := hb.wellFormed.live c (List.mem_iff_getElem?.2 ⟨_, hc⟩)
  have h : (_ ++ c.entries).Perm (((k, v) :: b.entries) ++ c.entries) :=
    ((entries_set hc).trans ((Cell.entries_insert hlive (k, v)).append_left _)).trans
      List.perm_middle
  have hperm := (List.perm_append_right_iff c.entries).1 h
  have hnd : (((k, v) :: b.entries).map Prod.toSigma).NodupKeys :=
    List.nodupKeys_cons.2 ⟨by simpa using hk, hb.nodupKeys⟩
  refine ⟨⟨hb.wellFormed.set (by simpa using hlive), hb.placed.set hash fun e he => ?_,
    (List.perm_nodupKeys (hperm.map _)).2 hnd⟩, hperm⟩
  rcases Cell.mem_entries_insert he with rfl | he
  · rfl
  · exact hb.placed.cells _ c hc e he

/-- **A rehash step keeps the array valid and the map it stands for.** -/
theorem Valid.partialRehash {a : CellArray K V} (hv : a.Valid hash) :
    (a.partialRehash hash).Valid hash ∧ (a.partialRehash hash).entries.Perm a.entries := by
  obtain ⟨hw, hp⟩ := hv.wellFormed.partialRehash hash
  exact ⟨⟨hw, hv.placed.partialRehash hash, (List.perm_nodupKeys (hp.map _)).2 hv.nodupKeys⟩, hp⟩

theorem Valid.rehashAll {a : CellArray K V} (hv : a.Valid hash) :
    (a.rehashAll hash).Valid hash ∧ (a.rehashAll hash).entries.Perm a.entries := by
  obtain ⟨hw, hp⟩ := hv.wellFormed.rehashN hash a.rehashLeft
  exact ⟨⟨hw, hv.placed.rehashN hash _, (List.perm_nodupKeys (hp.map _)).2 hv.nodupKeys⟩, hp⟩

/-- Modelled from the spec: `CellArray::new` with no old array, as `HashMap::new` and
`HashMap::default` allocate it: `2 ^ lb` empty cells, `lb` being what the capacity asks for
(its computation is in `cell_array.rs`, not in the sources). -/
def new (lb : Nat) : CellArray K V := ⟨0, List.replicate (2 ^ lb) Cell.empty, lb, none, 0⟩

theorem Valid.new {lb : Nat} (hlb : lb ≤ 64) : (CellArray.new lb : CellArray K V).Valid hash where
  wellFormed := ⟨by simp [CellArray.new], hlb, fun c hc => by
    rw [List.eq_of_mem_replicate hc]; rfl, fun _ h => by simp [CellArray.new] at h⟩
  placed := ⟨fun i c hc e he => by
    rw [show c = Cell.empty from List.eq_of_mem_replicate (List.mem_iff_getElem?.2 ⟨i, hc⟩)]
      at he
    simp at he, fun _ h => by simp [CellArray.new] at h⟩
  nodupKeys := by simp [CellArray.new, entries]

end Placed

/-! ### The operations -/

section Ops

variable {K V : Type} [DecidableEq K] (hash : K → UInt64)

/-- Modelled from the spec: `insert_entry`: after `acquire`, the key's cell is searched, and the
entry goes into it unless the key is there, in which case `(key, val)` is handed back. -/
def insertEntry (a : CellArray K V) (k : K) (v : V) : Option (K × V) × CellArray K V :=
  let a := a.acquire hash k
  match a.cells[a.cellOf hash k]? with
  | some c =>
    if (c.entries.lookup k).isSome then (some (k, v), a)
    else (none, { a with cells := a.cells.set (a.cellOf hash k) (c.insert (k, v)) })
  | none => (some (k, v), a)

/-- Modelled from the spec: `remove_entry` with `condition`: after `acquire`, the key's entry in
its cell, if there is one and `condition` holds of its value, is erased and handed back. -/
def removeEntry (a : CellArray K V) (k : K) (condition : V → Bool) :
    Option (K × V) × CellArray K V :=
  let a := a.acquire hash k
  match a.cells[a.cellOf hash k]? with
  | some c =>
    match c.entries.lookup k with
    | some v =>
      if condition v then
        (some (k, v), { a with cells := a.cells.set (a.cellOf hash k) (c.erase k) })
      else (none, a)
    | none => (none, a)
  | none => (none, a)

/-- Modelled from the spec: `read_entry` ("read under rehash"): the key's source cell of the old
array first, a killed one showing no entry, then its cell of the current array. -/
def readEntry (a : CellArray K V) (k : K) : Option V :=
  let inOld := match a.oldArray with
    | none => none
    | some old => (old.cells[cellIndex old.lbCapacity (hash k)]?).bind fun c => c.entries.lookup k
  match inOld with
  | some v => some v
  | none => (a.cells[a.cellOf hash k]?).bind fun c => c.entries.lookup k

/-- The map an array stands for. -/
def toMap (a : CellArray K V) (k : K) : Option V := a.entries.lookup k

end Ops

/-! ### The operations on a valid array -/

section Spec

variable {K V : Type} [DecidableEq K] (hash : K → UInt64)

/-- Two arrays holding the same entries in some order stand for one map. -/
theorem toMap_perm {a b : CellArray K V} (h : (a.entries.map Prod.toSigma).NodupKeys)
    (hp : a.entries.Perm b.entries) : a.toMap = b.toMap :=
  funext (lookup_perm h hp)

/-- The entries of `b` and `(k, v)`, `k` being new, stand for `b`'s map with `k ↦ v`. -/
theorem toMap_of_perm_cons {a b : CellArray K V} {k : K} {v : V}
    (h : (a.entries.map Prod.toSigma).NodupKeys) (hp : a.entries.Perm ((k, v) :: b.entries)) :
    a.toMap = Function.update b.toMap k (some v) := by
  funext k'
  rw [toMap, lookup_perm h hp]
  by_cases hk : k' = k
  · subst hk; simp
  · simp [List.lookup_cons, beq_eq_false_iff_ne.2 hk, Function.update_noteq hk, toMap]

/-- Taking the entry of key `k` away from entries with distinct keys takes `k` out of the map. -/
theorem toMap_erase_of_perm_cons {a b : CellArray K V} {k : K} {w : V}
    (h : (b.entries.map Prod.toSigma).NodupKeys) (hp : b.entries.Perm ((k, w) :: a.entries)) :
    a.toMap = Function.update b.toMap k none := by
  have hnd : (((k, w) :: a.entries).map Prod.toSigma).NodupKeys :=
    (List.perm_nodupKeys (hp.map _)).1 h
  rw [toMap_of_perm_cons h hp, Function.update_idem, eq_comm, Function.update_eq_self_iff, eq_comm]
  exact lookup_eq_none.2 (by simpa using (List.nodupKeys_cons.1 hnd).1)

/-- `acquire` keeps the map. -/
theorem Valid.toMap_acquire {a : CellArray K V} (hv : a.Valid hash) (k : K) :
    (a.acquire hash k).toMap = a.toMap :=
  toMap_perm (hv.acquire hash k).1.nodupKeys (hv.acquire hash k).2

/-- After `acquire`, the key's cell answers for the whole map. -/
theorem Valid.lookup_acquire {a : CellArray K V} (hv : a.Valid hash) {k : K} {c : Cell K V}
    (hc : (a.acquire hash k).cells[(a.acquire hash k).cellOf hash k]? = some c) :
    c.entries.lookup k = a.toMap k := by
  have hsub : c.entries ⊆ (a.acquire hash k).entries := fun e he =>
    List.mem_append_left _ (List.mem_flatMap.2 ⟨c, List.mem_iff_getElem?.2 ⟨_, hc⟩, he⟩)
  rw [lookup_of_subset (hv.acquire hash k).1.nodupKeys hsub fun v he => ?_,
    ← hv.toMap_acquire hash k]
  · rfl
  obtain ⟨c', hc', he'⟩ := hv.mem_acquire hash he
  rw [hc] at hc'
  cases hc'
  exact he'

/-- Erasing the entry of key `k` from the key's cell of a valid array keeps it valid and takes
exactly that entry away. -/
theorem Valid.erase_cell {b : CellArray K V} (hb : b.Valid hash) {k : K} {c : Cell K V} {w : V}
    (hc : b.cells[b.cellOf hash k]? = some c) (hw : (k, w) ∈ c.entries) :
    ({ b with cells := b.cells.set (b.cellOf hash k) (c.erase k) } : CellArray K V).Valid hash ∧
      b.entries.Perm ((k, w) ::
        ({ b with cells := b.cells.set (b.cellOf hash k) (c.erase k) } : CellArray K V).entries) := by
  have hlive : c.killed = false := hb.wellFormed.live c (List.mem_iff_getElem?.2 ⟨_, hc⟩)
  have hsub : c.entries ⊆ b.entries := fun e he =>
    List.mem_append_left _ (List.mem_flatMap.2 ⟨c, List.mem_iff_getElem?.2 ⟨_, hc⟩, he⟩)
  -- the cell's entries are `(k, w)` and what erasing leaves
  have hcell : c.entries.Perm ((k, w) :: (c.erase k).entries) := by
    obtain ⟨⟨k', w'⟩, l₁, l₂, -, he, h₁, h₂⟩ :=
      @List.exists_of_eraseP _ (fun e : K × V => decide (e.1 = k)) _ _ hw (by simp)
    obtain rfl : k' = k := by simpa using he
    obtain rfl : w' = w := hb.nodupKeys.eq_of_mk_mem
      (mk_mem_map_toSigma.2 (hsub (h₁ ▸ List.mem_append_right _ (.head _))))
      (mk_mem_map_toSigma.2 (hsub hw))
    rw [Cell.entries_erase hlive, h₂, h₁]
    exact List.perm_middle
  have h : (b.entries ++ (c.erase k).entries).Perm (((k, w) :: _) ++ (c.erase k).entries) :=
    (List.perm_middle.symm.trans ((hcell.append_left _).symm.trans (entries_set hc))).symm
  have hperm := (List.perm_append_right_iff (c.erase k).entries).1 h
  have hnd : (((k, w) :: _).map Prod.toSigma).NodupKeys :=
    (List.perm_nodupKeys (hperm.map _)).1 hb.nodupKeys
  exact ⟨⟨hb.wellFormed.set (by simpa using hlive), hb.placed.set hash fun e he =>
    hb.placed.cells _ c hc e ((List.eraseP_sublist _).subset (Cell.entries_erase hlive k ▸ he)),
    List.nodupKeys_of_nodupKeys_cons hnd⟩, hperm⟩

/-- **`insert_entry` inserts exactly when the key is absent.** On a valid array it keeps the
array valid; when the map has `k` it hands `(k, v)` back and the map stays, and else the map
gains `k ↦ v`. -/
theorem Valid.insertEntry {a : CellArray K V} (hv : a.Valid hash) (k : K) (v : V) :
    (a.insertEntry hash k v).2.Valid hash ∧
      (a.insertEntry hash k v).1 = (if (a.toMap k).isSome then some (k, v) else none) ∧
      (a.insertEntry hash k v).2.toMap =
        if (a.toMap k).isSome then a.toMap else Function.update a.toMap k (some v) := by
  have hv' := (hv.acquire hash k).1
  obtain ⟨c, hc⟩ := hv'.wellFormed.getElem?_cellOf hash k
  have hmap := hv.toMap_acquire hash k
  simp only [CellArray.insertEntry, hc, hv.lookup_acquire hash hc]
  split_ifs with hk
  · exact ⟨hv', rfl, hmap⟩
  · obtain ⟨hvi, hperm⟩ := hv'.insert_cell hash hc (lookup_eq_none.1
      (show (a.acquire hash k).toMap k = none by rw [hmap]; simpa using hk)) v
    exact ⟨hvi, rfl, by rw [toMap_of_perm_cons hvi.nodupKeys hperm, hmap]⟩

/-- **`remove_entry` removes the key's entry exactly when it is there and `condition` holds of
its value.** On a valid array it keeps the array valid, hands the entry back, and the map loses
`k`; otherwise it hands nothing back and the map stays. -/
theorem Valid.removeEntry {a : CellArray K V} (hv : a.Valid hash) (k : K) (condition : V → Bool) :
    (a.removeEntry hash k condition).2.Valid hash ∧
      (a.removeEntry hash k condition).1 = ((a.toMap k).filter condition).map (k, ·) ∧
      (a.removeEntry hash k condition).2.toMap =
        if ((a.toMap k).filter condition).isSome then Function.update a.toMap k none
        else a.toMap := by
  have hv' := (hv.acquire hash k).1
  obtain ⟨c, hc⟩ := hv'.wellFormed.getElem?_cellOf hash k
  have hmap := hv.toMap_acquire hash k
  have hl := hv.lookup_acquire hash hc
  simp only [CellArray.removeEntry, hc, hl]
  cases hw : a.toMap k with
  | none => exact ⟨hv', rfl, by simpa using hmap⟩
  | some w =>
    by_cases hcw : condition w = true
    · simp only [hcw, if_true, Option.filter, Option.map_some', Option.isSome_some]
      obtain ⟨hve, hperm⟩ := hv'.erase_cell hash hc (mem_of_lookup_eq_some (hl.trans hw))
      exact ⟨hve, by simp, by rw [toMap_erase_of_perm_cons hv'.nodupKeys hperm, hmap]⟩
    · refine ⟨by simpa [hcw] using hv', by simp [Option.filter, hcw], by
        simpa [Option.filter, hcw] using hmap⟩

/-- **`read_entry` reads the map**: on a valid array it finds the value the map has under
`k`. -/
theorem Valid.readEntry {a : CellArray K V} (hv : a.Valid hash) (k : K) :
    a.readEntry hash k = a.toMap k := by
  -- a value found in any cell is the map's
  have found : ∀ c : Cell K V, c.entries ⊆ a.entries → ∀ v, c.entries.lookup k = some v →
      a.toMap k = some v := fun c hs v h =>
    (lookup_eq_some hv.nodupKeys).2 (hs (mem_of_lookup_eq_some h))
  have hcur : ∀ c, a.cells[a.cellOf hash k]? = some c → c.entries ⊆ a.entries := fun c hc e he =>
    List.mem_append_left _ (List.mem_flatMap.2 ⟨c, List.mem_iff_getElem?.2 ⟨_, hc⟩, he⟩)
  have hold : ∀ old, a.oldArray = some old → ∀ c,
      old.cells[cellIndex old.lbCapacity (hash k)]? = some c → c.entries ⊆ a.entries :=
    fun old hold c hc e he => List.mem_append_right _ (by
      simpa [hold] using List.mem_flatMap.2 ⟨c, List.mem_iff_getElem?.2 ⟨_, hc⟩, he⟩)
  unfold CellArray.readEntry
  dsimp only
  split
  next v hv₀ =>
    split at hv₀
    · cases hv₀
    · next old hold' =>
      obtain ⟨c, hc, hl⟩ := Option.bind_eq_some.1 hv₀
      exact (found c (hold old hold' c hc) v hl).symm
  next hnone =>
    cases hn : (a.cells[a.cellOf hash k]?).bind fun c => c.entries.lookup k with
    | some v =>
      obtain ⟨c, hc, hl⟩ := Option.bind_eq_some.1 hn
      exact (found c (hcur c hc) v hl).symm
    | none =>
      symm
      cases hm : a.toMap k with
      | none => rfl
      | some v =>
        -- the map's entry of key `k` is in one of the two cells the reader looked in
        rcases hv.placed.mem_entries hash ((lookup_eq_some hv.nodupKeys).1 hm) with
          ⟨c, hc, he⟩ | ⟨old, c, hold', hc, he⟩
        · simp [cellOf, hc, lookup_of_mem hv.nodupKeys (hcur c hc) he] at hn
        · simp [hold', hc, lookup_of_mem hv.nodupKeys (hold old hold' c hc) he] at hnone

end Spec

end CellArray

namespace HashMap

variable {K V : Type} [DecidableEq K] (hash : K → UInt64)

/-- `HashMap::insert`: `Err((key, val))` when the key is there. -/
def insert (k : K) (v : V) (a : CellArray K V) : Except (K × V) Unit × CellArray K V :=
  let r := a.insertEntry hash k v
  ((match r.1 with | some e => .error e | none => .ok ()), r.2)

/-- `HashMap::remove_if`. -/
def removeIf (k : K) (condition : V → Bool) (a : CellArray K V) : Option (K × V) × CellArray K V :=
  a.removeEntry hash k condition

/-- `HashMap::remove`: `self.remove_if(key_ref, |_| true)`. -/
def remove (k : K) (a : CellArray K V) : Option (K × V) × CellArray K V :=
  removeIf hash k (fun _ => true) a

/-- `HashMap::read` (`read_with`): the reader on the key's entry. -/
def read {R : Type} (k : K) (reader : K → V → R) (a : CellArray K V) : Option R :=
  (a.readEntry hash k).map (reader k)

/-- `HashMap::contains`: `self.read(key, |_, _| ()).is_some()`. -/
def contains (k : K) (a : CellArray K V) : Bool := (read hash k (fun _ _ => ()) a).isSome

/-! ### The `_async` variants -/

section Async

/-- Where an attempt of an `_async` method finds a lock another thread holds, and takes
`WouldBlock` instead of waiting. -/
inductive Contention where
  /-- It gets every lock it asks for. -/
  | free
  /-- On the key's source cell of the old array, which the rehash step locks first. -/
  | oldCell
  /-- On the key's cell of the current array, once the rehash step has run. -/
  | cell
  deriving DecidableEq, Repr

variable {α β : Type}

omit [DecidableEq K] in
/-- The `loop` of the `_async` methods: one attempt for each entry of the schedule, each on the
array the one before left.  An attempt that gets `WouldBlock` hands back what it was given, and
the method yields and tries again with that; the first attempt that does not returns.  The call
is still pending when the schedule runs out. -/
def retryAsync (attempt : CellArray K V → Contention → α → Except α β × CellArray K V) :
    CellArray K V → List Contention → α → Option (β × CellArray K V)
  | _, [], _ => none
  | a, contention :: schedule, x =>
    match attempt a contention x with
    | (.ok r, a') => some (r, a')
    | (.error x', a') => retryAsync attempt a' schedule x'

omit [DecidableEq K] in
/-- Modelled from the spec: what an attempt of a writer has done to the array when it gets
`WouldBlock`.  Its rehash step locks the key's source cell of the old array first: blocked
there, it has done nothing; blocked on the key's cell of the current array, the step has
migrated the source cell. -/
def blockedWriter (a : CellArray K V) (k : K) : Contention → CellArray K V
  | .cell => a.acquire hash k
  | _ => a

/-- Modelled from the spec: `remove_entry::<_, _, true>`, blocked as `insert_entry::<true>` is;
on `WouldBlock` it hands `()` back. -/
def removeEntryAsync (k : K) (condition : V → Bool) (a : CellArray K V) (contention : Contention)
    (_ : Unit) : Except Unit (Option (K × V)) × CellArray K V :=
  if contention = .free then (.ok (a.removeEntry hash k condition).1, (a.removeEntry hash k condition).2)
  else (.error (), blockedWriter hash a k contention)

/-- `HashMap::remove_if_async`: `if let Ok(result) = .. { return result.0; }`. -/
def removeIfAsync (k : K) (condition : V → Bool) (a : CellArray K V) (schedule : List Contention) :
    Option (Option (K × V) × CellArray K V) :=
  retryAsync (removeEntryAsync hash k condition) a schedule ()

/-- `HashMap::remove_async`: `self.remove_if_async(key_ref, |_| true)`. -/
def removeAsync (k : K) (a : CellArray K V) (schedule : List Contention) :
    Option (Option (K × V) × CellArray K V) :=
  removeIfAsync hash k (fun _ => true) a schedule

end Async

end HashMap

end SccHashMap
