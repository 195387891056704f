import SccHashMap.Cell
import SccHashMap.Array

/-!
# The cell array and its incremental rehash

`hash_table.rs` and its `CellArray` are not part of the sources; they are modelled here from
the spec (§3, §4.3, §4.4) as a map with no operation in flight sees them.  A `CellArray` has
`2 ^ lbCapacity` cells, a key's cell being given by the top `lbCapacity` bits of its 64-bit
hash; during a rehash it keeps the old array, whose cells `partial_rehash` migrates sixteen at
a time from the rehash cursor on, killing each, and clears once they are all migrated.

* `calculateMetadataArrayIndex_eq_cellIndex`: a cell array routes a key to the cell
  `map::array::Array` routes it to, for every capacity the model allows.
* `CellArray.WellFormed.partialRehash`: a rehash step keeps the array well formed, and moves
  entries without losing any.
* `CellArray.rehashN_eq_rehashAll`: the rehash driven to its end, `rehashAll`, is reached after
  `rehashLeft` steps, and then stays; `CellArray.WellFormed.rehashN` keeps it well formed.
* `MapState.entries_resize`: a resize moves no entry.
-/

namespace SccHashMap

/-- Modelled from the spec: the `old_array` of a `CellArray` during a rehash: its cells, and
their number `2 ^ lbCapacity`. -/
structure OldArray (K V : Type) where
  cells : List (Cell K V)
  lbCapacity : Nat

/-- Modelled from the spec: a `CellArray` (not in the sources, spec §3 and §4.3): its allocation
(`id`, what a pointer comparison sees), its `2 ^ lbCapacity` cells, the old array while a rehash
is pending, and the rehash cursor. -/
structure CellArray (K V : Type) where
  id : Nat
  cells : List (Cell K V)
  lbCapacity : Nat
  oldArray : Option (OldArray K V)
  rehashCursor : Nat

/-- The map as `retain` sees it: its `array`. -/
structure MapState (K V : Type) where
  array : Option (CellArray K V)

/-- Modelled from the spec: the cell of a key with 64-bit hash `hash` among `2 ^ lbCapacity`
cells, the top `lbCapacity` bits of the hash (spec §4.3). -/
def cellIndex (lbCapacity : Nat) (hash : UInt64) : Nat := hash.toNat >>> (64 - lbCapacity)

theorem cellIndex_lt {lb : Nat} (h : lb ≤ 64) (hash : UInt64) : cellIndex lb hash < 2 ^ lb :=
  shiftRight_lt_two_pow hash.val.isLt h

/-- The cell array routes a key as `map::array::Array` does: for `1 ≤ lb_capacity ≤ 64`,
`calculate_metadata_array_index` of a 64-bit hash is its `cellIndex`. -/
theorem calculateMetadataArrayIndex_eq_cellIndex {C E P : Type} {a : Array C E P}
    (h1 : 1 ≤ a.lbCapacity) (h2 : a.lbCapacity ≤ 64) (hash : UInt64) :
    a.calculateMetadataArrayIndex hash.toNat = .ok (cellIndex a.lbCapacity hash) :=
  calculateMetadataArrayIndex_eq h1 h2 hash.toNat

namespace CellArray

variable {K V : Type} (hash : K → UInt64)

/-- The entries move, one after the other, into the cells of `2 ^ lb` cells that their hashes
select. -/
def insertCells (lb : Nat) (cells : List (Cell K V)) (es : List (K × V)) : List (Cell K V) :=
  es.foldl (fun cells e => cells.modify (·.insert e) (cellIndex lb (hash e.1))) cells

/-- Modelled from the spec: steps 2 and 3 of `partial_rehash` for source cell `i`: unless it is
killed already, its entries move into the current array and it is killed. -/
def migrateCell (a : CellArray K V) (i : Nat) : CellArray K V :=
  match a.oldArray with
  | none => a
  | some old =>
    match old.cells[i]? with
    | none => a
    | some c =>
      if c.killed then a else
        { a with
          cells := insertCells hash a.lbCapacity a.cells c.entries
          oldArray := some { old with cells := old.cells.set i c.kill } }

/-- Modelled from the spec: steps 1 to 3 of `partial_rehash`: the cursor moves on to `stop`,
reserving the source cells from the old cursor up to `stop`, which are migrated. -/
def migrateBatch (a : CellArray K V) (stop : Nat) : CellArray K V :=
  (List.range' a.rehashCursor (stop - a.rehashCursor)).foldl (migrateCell hash)
    { a with rehashCursor := stop }

/-- Modelled from the spec: `partial_rehash` (not in the sources, spec §4.3): it reserves the
next `min 16 remaining` source cells by moving the cursor, migrates them, and clears `old_array`
once every source cell is migrated. -/
def partialRehash (a : CellArray K V) : CellArray K V :=
  match a.oldArray with
  | none => a
  | some old =>
    let stop := min (a.rehashCursor + 16) old.cells.length
    if stop = old.cells.length then { a.migrateBatch hash stop with oldArray := none }
    else a.migrateBatch hash stop

/-- The rehash steps still to come: none without an old array, else one per batch of cells. -/
def rehashLeft (a : CellArray K V) : Nat :=
  match a.oldArray with
  | none => 0
  | some old => old.cells.length - a.rehashCursor + 1

/-- `n` rehash steps, or fewer once the old array is cleared. -/
def rehashN : Nat → CellArray K V → CellArray K V
  | 0, a => a
  | n + 1, a => if a.oldArray.isSome then rehashN n (a.partialRehash hash) else a

/-- The rehash driven to its end. -/
def rehashAll (a : CellArray K V) : CellArray K V := rehashN hash a.rehashLeft a

/-- The entries of the map in this array: those of its cells, then those of the old array's
cells not yet migrated. -/
def entries (a : CellArray K V) : List (K × V) :=
  a.cells.flatMap Cell.entries ++ (a.oldArray.map fun old => old.cells.flatMap Cell.entries).getD []

/-- The old array's cells below `n` are migrated (killed). -/
def MigratedBelow (a : CellArray K V) (n : Nat) : Prop :=
  ∀ old, a.oldArray = some old → ∀ i < n, ∀ c, old.cells[i]? = some c → c.killed = true

/-- What every reachable array satisfies: `2 ^ lbCapacity` live cells, and the old array's cells
below the cursor migrated. -/
structure WellFormed (a : CellArray K V) : Prop where
  cells_length : a.cells.length = 2 ^ a.lbCapacity
  lbCapacity_le : a.lbCapacity ≤ 64
  live : ∀ c ∈ a.cells, c.killed = false
  migrated : a.MigratedBelow a.rehashCursor

/-! ### Moving entries -/

section Move

variable {α β : Type} (f : α → List β)

/-- Replacing the `i`-th element `c` of a list by `d` trades `f c` for `f d` in its flat map. -/
theorem flatMap_set_perm : ∀ {l : List α} {i : Nat} {c : α} (d : α), l[i]? = some c →
    ((l.set i d).flatMap f ++ f c).Perm (l.flatMap f ++ f d)
  | [], _, _, _, h => by simp at h
  | x :: xs, 0, c, d, h => by
    simp only [List.getElem?_cons_zero, Option.some.injEq] at h
    subst h
    simp only [List.set_cons_zero, List.flatMap_cons, List.append_assoc]
    exact ((List.perm_append_comm.append_left _).trans (List.perm_append_comm_assoc _ _ _)).trans
      (List.perm_append_comm.append_left _)
  | x :: xs, i + 1, c, d, h => by
    simp only [List.getElem?_cons_succ] at h
    simpa [List.append_assoc] using (flatMap_set_perm d h).append_left (f x)

end Move

section Insert

variable {K V : Type} (hash : K → UInt64)

theorem killed_modify_insert (e : K × V) :
    ∀ (cells : List (Cell K V)) (i : Nat),
      (cells.modify (·.insert e) i).map Cell.killed = cells.map Cell.killed
  | [], i => by cases i <;> rfl
  | c :: cs, 0 => by simp
  | c :: cs, i + 1 => by simp [killed_modify_insert e cs i]

theorem flatMap_modify_insert (e : K × V) : ∀ {cells : List (Cell K V)} {i : Nat},
    i < cells.length → (∀ c ∈ cells, c.killed = false) →
      ((cells.modify (·.insert e) i).flatMap Cell.entries).Perm
        (e :: cells.flatMap Cell.entries)
  | [], _, hi, _ => absurd hi (Nat.not_lt_zero _)
  | c :: cs, 0, _, hl => by
    simpa using (Cell.entries_insert (hl c (.head _)) e).append_right _
  | c :: cs, i + 1, hi, hl => by
    simp only [List.modify_succ_cons, List.flatMap_cons]
    exact ((flatMap_modify_insert e (by simpa using hi) fun c' h => hl c' (.tail _ h)).append_left
      _).trans List.perm_middle

theorem live_of_map_killed {cs cs' : List (Cell K V)} (h : cs'.map Cell.killed = cs.map Cell.killed)
    (hl : ∀ c ∈ cs, c.killed = false) : ∀ c ∈ cs', c.killed = false := by
  intro c hc
  obtain ⟨c', hc', he⟩ := List.mem_map.1 (h ▸ List.mem_map_of_mem Cell.killed hc)
  exact he ▸ hl c' hc'

theorem killed_insertCells (lb : Nat) (es : List (K × V)) :
    ∀ cells : List (Cell K V), (insertCells hash lb cells es).map Cell.killed = cells.map Cell.killed := by
  induction es with
  | nil => intro; rfl
  | cons e es ih => intro cells; exact (ih _).trans (killed_modify_insert e cells _)

/-- Entries moved into `2 ^ lb` live cells are all there. -/
theorem insertCells_perm {lb : Nat} (hlb : lb ≤ 64) (es : List (K × V)) :
    ∀ {cells : List (Cell K V)}, cells.length = 2 ^ lb → (∀ c ∈ cells, c.killed = false) →
      ((insertCells hash lb cells es).flatMap Cell.entries).Perm (es ++ cells.flatMap Cell.entries) := by
  induction es with
  | nil => intro cells _ _; exact .refl _
  | cons e es ih =>
    intro cells hlen hl
    have hi : cellIndex lb (hash e.1) < cells.length := hlen ▸ cellIndex_lt hlb _
    have hk := killed_modify_insert e cells (cellIndex lb (hash e.1))
    exact (ih (by simpa using hlen) (live_of_map_killed hk hl)).trans
      (((flatMap_modify_insert e hi hl).append_left es).trans List.perm_middle)

end Insert

/-! ### Migrating one cell -/

section Migrate

variable {K V : Type} (hash : K → UInt64)

/-- A migration either finds its source cell killed (or absent) and changes nothing, or moves
the entries of the live source cell into the current array and kills it. -/
theorem migrateCell_cases (a : CellArray K V) (i : Nat) :
    (a.migrateCell hash i = a ∧
      ∀ old, a.oldArray = some old → ∀ c, old.cells[i]? = some c → c.killed = true) ∨
    ∃ old c, a.oldArray = some old ∧ old.cells[i]? = some c ∧ c.killed = false ∧
      a.migrateCell hash i =
        { a with
          cells := insertCells hash a.lbCapacity a.cells c.entries
          oldArray := some { old with cells := old.cells.set i c.kill } } := by
  unfold migrateCell
  split
  next h => exact .inl ⟨rfl, by simp [h]⟩
  next old hold =>
    split
    next h => exact .inl ⟨rfl, by simp [hold, h]⟩
    next c hc =>
      split
      next hk => exact .inl ⟨rfl, by simp [hold, hc, hk]⟩
      next hk => exact .inr ⟨old, c, hold, hc, by simpa using hk, rfl⟩

/-- Two arrays alike but for the entries of their cells and of the old array's cells. -/
structure Shape (a b : CellArray K V) : Prop where
  id : b.id = a.id
  lbCapacity : b.lbCapacity = a.lbCapacity
  rehashCursor : b.rehashCursor = a.rehashCursor
  killed : b.cells.map Cell.killed = a.cells.map Cell.killed
  oldLength : b.oldArray.map (·.cells.length) = a.oldArray.map (·.cells.length)

theorem Shape.refl (a : CellArray K V) : Shape a a := ⟨rfl, rfl, rfl, rfl, rfl⟩

theorem Shape.trans {a b c : CellArray K V} (h₁ : Shape a b) (h₂ : Shape b c) : Shape a c :=
  ⟨h₂.id.trans h₁.id, h₂.lbCapacity.trans h₁.lbCapacity, h₂.rehashCursor.trans h₁.rehashCursor,
    h₂.killed.trans h₁.killed, h₂.oldLength.trans h₁.oldLength⟩

/-- Arrays of one shape are alike in everything `WellFormed` asks of the current cells. -/
theorem Shape.fits {a b : CellArray K V} (h : Shape a b) (hl : a.cells.length = 2 ^ a.lbCapacity)
    (hb : a.lbCapacity ≤ 64) (hlive : ∀ c ∈ a.cells, c.killed = false) :
    b.cells.length = 2 ^ b.lbCapacity ∧ b.lbCapacity ≤ 64 ∧ ∀ c ∈ b.cells, c.killed = false := by
  refine ⟨?_, h.lbCapacity ▸ hb, live_of_map_killed h.killed hlive⟩
  rw [h.lbCapacity, ← hl]; simpa using congrArg List.length h.killed

theorem migrateCell_shape (a : CellArray K V) (i : Nat) : Shape a (a.migrateCell hash i) := by
  rcases migrateCell_cases hash a i with ⟨h, -⟩ | ⟨old, c, hold, -, -, h⟩
  · rw [h]; exact .refl a
  · rw [h]; exact ⟨rfl, rfl, rfl, killed_insertCells .., by simp [hold]⟩

/-- A migration moves entries and loses none. -/
theorem migrateCell_perm {a : CellArray K V} (hl : a.cells.length = 2 ^ a.lbCapacity)
    (hb : a.lbCapacity ≤ 64) (hlive : ∀ c ∈ a.cells, c.killed = false) (i : Nat) :
    (a.migrateCell hash i).entries.Perm a.entries := by
  rcases migrateCell_cases hash a i with ⟨h, -⟩ | ⟨old, c, hold, hc, -, h⟩
  · rw [h]
  · rw [h]
    simp only [entries, hold, Option.map_some', Option.getD_some]
    have hs := flatMap_set_perm Cell.entries c.kill hc
    rw [Cell.entries_kill, List.append_nil] at hs
    refine ((insertCells_perm hash hb c.entries hl hlive).append_right _).trans ?_
    rw [List.append_assoc]
    exact List.perm_append_comm.trans (by rw [List.append_assoc]; exact hs.append_left _)

/-- After migrating cell `i`, the cells below `i + 1` are migrated if those below `i` were. -/
theorem migrateCell_migratedBelow {a : CellArray K V} {n : Nat} (h : a.MigratedBelow n)
    (i : Nat) : (a.migrateCell hash i).MigratedBelow n ∧
      (n = i → (a.migrateCell hash i).MigratedBelow (i + 1)) := by
  rcases migrateCell_cases hash a i with ⟨he, hi⟩ | ⟨old, c, hold, hc, -, he⟩
  · rw [he]
    refine ⟨h, fun hn old' hold' j hj c' hc' => ?_⟩
    rcases Nat.lt_or_ge j n with hjn | hjn
    · exact h old' hold' j hjn c' hc'
    · exact hi old' hold' c' (by rwa [show i = j by omega])
  · rw [he]
    have hlt : i < old.cells.length := (List.getElem?_eq_some_iff.1 hc).1
    have key : ∀ m, (∀ j < m, j ≠ i → ∀ c', old.cells[j]? = some c' → c'.killed = true) →
        ({ a with
            cells := insertCells hash a.lbCapacity a.cells c.entries
            oldArray := some { old with cells := old.cells.set i c.kill } } :
          CellArray K V).MigratedBelow m := by
      intro m hm old' hold' j hj c' hc'
      simp only [Option.some.injEq] at hold'
      subst hold'
      by_cases hji : j = i
      · subst hji; simp [List.getElem?_set, hlt] at hc'; rw [← hc']; rfl
      · rw [List.getElem?_set_ne (Ne.symm hji)] at hc'; exact hm j hj hji c' hc'
    exact ⟨key n fun j hj _ => h old hold j hj, fun hn => key (i + 1) fun j hj hji =>
      h old hold j (by omega)⟩

end Migrate

/-! ### Rehash steps -/

section Rehash

variable {K V : Type} (hash : K → UInt64)

theorem MigratedBelow.mono {a : CellArray K V} {m n : Nat} (h : a.MigratedBelow n) (hmn : m ≤ n) :
    a.MigratedBelow m :=
  fun old hold i hi => h old hold i (by omega)

/-- Once every cell of the old array is migrated, it holds no entry. -/
theorem MigratedBelow.flatMap_eq_nil {a : CellArray K V} {n : Nat} (h : a.MigratedBelow n)
    {old : OldArray K V} (hold : a.oldArray = some old) (hn : old.cells.length ≤ n) :
    old.cells.flatMap Cell.entries = [] := by
  refine List.flatMap_eq_nil_iff.2 fun c hc => ?_
  obtain ⟨i, hi, hc⟩ := List.getElem_of_mem hc
  simp [Cell.entries, h old hold i (by omega) c (by simp [← hc, hi])]

theorem foldl_migrateCell_shape (a : CellArray K V) (l : List Nat) :
    Shape a (l.foldl (migrateCell hash) a) := by
  induction l generalizing a with
  | nil => exact .refl a
  | cons i l ih => exact (migrateCell_shape hash a i).trans (ih _)

/-- The migrations of a batch of source cells lose no entry, and migrate the batch. -/
theorem foldl_migrateCell {a : CellArray K V} (hl : a.cells.length = 2 ^ a.lbCapacity)
    (hb : a.lbCapacity ≤ 64) (hlive : ∀ c ∈ a.cells, c.killed = false) (s k : Nat) :
    ((List.range' s k).foldl (migrateCell hash) a).entries.Perm a.entries ∧
      (a.MigratedBelow s → ((List.range' s k).foldl (migrateCell hash) a).MigratedBelow (s + k)) := by
  induction k generalizing a s with
  | zero => exact ⟨.refl _, fun h => h⟩
  | succ k ih =>
    simp only [List.range'_succ, List.foldl_cons]
    obtain ⟨hl', hb', hlive'⟩ := (migrateCell_shape hash a s).fits hl hb hlive
    obtain ⟨h₁, h₂⟩ := ih hl' hb' hlive' (s + 1)
    refine ⟨h₁.trans (migrateCell_perm hash hl hb hlive s), fun hm => ?_⟩
    rw [show s + (k + 1) = s + 1 + k by omega]
    exact h₂ ((migrateCell_migratedBelow hash hm s).2 rfl)

/-- A batch moves the cursor to its end and keeps the shape of the array. -/
theorem migrateBatch_shape (a : CellArray K V) (stop : Nat) :
    Shape { a with rehashCursor := stop } (a.migrateBatch hash stop) :=
  foldl_migrateCell_shape hash _ _

/-- A batch of a well-formed array loses no entry, and migrates the old cells below its end. -/
theorem WellFormed.migrateBatch {a : CellArray K V} (hw : a.WellFormed) (stop : Nat) :
    (a.migrateBatch hash stop).entries.Perm a.entries ∧
      (a.migrateBatch hash stop).MigratedBelow stop := by
  obtain ⟨hp, hm⟩ := foldl_migrateCell hash (a := { a with rehashCursor := stop })
    hw.cells_length hw.lbCapacity_le hw.live a.rehashCursor (stop - a.rehashCursor)
  exact ⟨hp, (hm hw.migrated).mono (by omega)⟩

/-- A rehash step brings the end of the rehash closer. -/
theorem rehashLeft_partialRehash {a : CellArray K V} (ho : a.oldArray.isSome) :
    (a.partialRehash hash).rehashLeft < a.rehashLeft := by
  obtain ⟨old, hold⟩ := Option.isSome_iff_exists.1 ho
  have hs := migrateBatch_shape hash a (min (a.rehashCursor + 16) old.cells.length)
  have hlen : (a.migrateBatch hash (min (a.rehashCursor + 16) old.cells.length)).oldArray.map
      (·.cells.length) = some old.cells.length := hs.oldLength.trans (by simp [hold])
  obtain ⟨old', hold', hl'⟩ := Option.map_eq_some'.1 hlen
  unfold partialRehash rehashLeft
  simp only [hold]
  split_ifs with h
  · simp
  · simp only [hold', hs.rehashCursor, hl']
    omega

/-- **A rehash step keeps the array well formed and loses no entry.** -/
theorem WellFormed.partialRehash {a : CellArray K V} (hw : a.WellFormed) :
    (a.partialRehash hash).WellFormed ∧ (a.partialRehash hash).entries.Perm a.entries := by
  unfold CellArray.partialRehash
  split
  · exact ⟨hw, .refl _⟩
  · next old hold =>
    have hs := migrateBatch_shape hash a (min (a.rehashCursor + 16) old.cells.length)
    obtain ⟨hl, hb, hlive⟩ := hs.fits hw.cells_length hw.lbCapacity_le hw.live
    obtain ⟨hp, hm⟩ := hw.migrateBatch hash (min (a.rehashCursor + 16) old.cells.length)
    dsimp only
    split_ifs with hend
    · have hlen : (a.migrateBatch hash (min (a.rehashCursor + 16) old.cells.length)).oldArray.map
          (·.cells.length) = some old.cells.length := hs.oldLength.trans (by simp [hold])
      obtain ⟨old', hold', hl'⟩ := Option.map_eq_some'.1 hlen
      refine ⟨⟨hl, hb, hlive, fun _ h => by simp at h⟩, List.Perm.trans ?_ hp⟩
      simp [entries, hold', hm.flatMap_eq_nil hold' (by omega)]
    · exact ⟨⟨hl, hb, hlive, by rw [hs.rehashCursor]; exact hm⟩, hp⟩

theorem rehashLeft_eq_zero {a : CellArray K V} : a.rehashLeft = 0 ↔ a.oldArray = none := by
  unfold rehashLeft; split <;> simp_all

theorem rehashN_of_none {a : CellArray K V} (h : a.oldArray = none) (n : Nat) :
    rehashN hash n a = a := by
  cases n <;> simp [rehashN, h]

/-- Once the rehash can end within `n` steps, `n` steps end it, whatever `n`. -/
theorem rehashN_eq_rehashAll {a : CellArray K V} {n : Nat} (h : a.rehashLeft ≤ n) :
    rehashN hash n a = a.rehashAll hash := by
  suffices ∀ n m (a : CellArray K V), a.rehashLeft ≤ n → a.rehashLeft ≤ m →
      rehashN hash n a = rehashN hash m a from this n _ a h le_rfl
  intro n
  induction n with
  | zero =>
    intro m a hn _
    rw [rehashN_of_none hash (rehashLeft_eq_zero.1 (by omega))]
    exact (rehashN_of_none hash (rehashLeft_eq_zero.1 (by omega)) m).symm
  | succ n ih =>
    intro m a hn hm
    cases ho : a.oldArray with
    | none => rw [rehashN_of_none hash ho, rehashN_of_none hash ho]
    | some old =>
      have hl := rehashLeft_partialRehash hash (a := a) (by simp [ho])
      obtain ⟨m, rfl⟩ : ∃ m', m = m' + 1 := ⟨m - 1, by
        have : 0 < a.rehashLeft := Nat.pos_of_ne_zero (by simp [rehashLeft_eq_zero, ho])
        omega⟩
      simp only [rehashN, ho, Option.isSome_some, if_true]
      exact ih m _ (by omega) (by omega)

/-- After `rehashLeft` steps the old array is cleared. -/
theorem rehashAll_oldArray (a : CellArray K V) : (a.rehashAll hash).oldArray = none := by
  suffices ∀ n (a : CellArray K V), a.rehashLeft ≤ n → (rehashN hash n a).oldArray = none from
    this _ a le_rfl
  intro n
  induction n with
  | zero => intro a h; simpa [rehashN] using rehashLeft_eq_zero.1 (by omega)
  | succ n ih =>
    intro a h
    cases ho : a.oldArray with
    | none => rw [rehashN_of_none hash ho, ho]
    | some old =>
      simp only [rehashN, ho, Option.isSome_some, if_true]
      exact ih _ (by have := rehashLeft_partialRehash hash (a := a) (by simp [ho]); omega)

/-- A rehash step does not move where the rehash ends. -/
theorem rehashAll_partialRehash {a : CellArray K V} (ho : a.oldArray.isSome) :
    (a.partialRehash hash).rehashAll hash = a.rehashAll hash := by
  have hl := rehashLeft_partialRehash hash ho
  obtain ⟨n, hn⟩ : ∃ n, a.rehashLeft = n + 1 := ⟨a.rehashLeft - 1, by omega⟩
  show _ = rehashN hash a.rehashLeft a
  rw [hn, rehashN, if_pos ho, rehashN_eq_rehashAll hash (by omega)]

theorem rehashAll_of_none {a : CellArray K V} (h : a.oldArray = none) : a.rehashAll hash = a :=
  rehashN_of_none hash h _

/-- **The rehash driven to its end keeps the array well formed and loses no entry.** -/
theorem WellFormed.rehashN {a : CellArray K V} (hw : a.WellFormed) (n : Nat) :
    (rehashN hash n a).WellFormed ∧ (rehashN hash n a).entries.Perm a.entries := by
  induction n generalizing a with
  | zero => exact ⟨hw, .refl _⟩
  | succ n ih =>
    simp only [CellArray.rehashN]
    split
    · obtain ⟨hw', hp⟩ := hw.partialRehash hash
      obtain ⟨hw'', hp'⟩ := ih hw'
      exact ⟨hw'', hp'.trans hp⟩
    · exact ⟨hw, .refl _⟩

end Rehash

end CellArray

/-! ### The map -/

namespace MapState

variable {K V : Type}

/-- Modelled from the spec: the entries of the map, those of its array and of the array's old
array (what `num_entries` counts, spec §4.4). -/
def entries (m : MapState K V) : List (K × V) := (m.array.map CellArray.entries).getD []

/-- `HashMap::len`. -/
def len (m : MapState K V) : Nat := m.entries.length

/-- `HashMap::is_empty`: `self.len() == 0`. -/
def isEmpty (m : MapState K V) : Bool := m.len == 0

/-- What every reachable map satisfies. -/
def WellFormed (m : MapState K V) : Prop := ∀ a, m.array = some a → a.WellFormed

/-- Modelled from the spec: `resize` (not in the sources, spec §4.4).  The new capacity, which
the spec chooses from sampled occupancies and the reservations, is left as `policy` (`none`: no
resize); a new array of `2 ^ lb` empty cells is published with the current one as its old
array, unless a rehash is still pending. -/
def resize (policy : CellArray K V → Option Nat) (m : MapState K V) : MapState K V :=
  match m.array with
  | none => m
  | some a =>
    match policy a with
    | none => m
    | some lb =>
      if a.oldArray.isNone then
        ⟨some ⟨a.id + 1, List.replicate (2 ^ lb) Cell.empty, lb, some ⟨a.cells, a.lbCapacity⟩, 0⟩⟩
      else m

@[simp] theorem entries_empty : (Cell.empty : Cell K V).entries = [] := by
  simp [Cell.empty, Cell.entries]

@[simp] theorem flatMap_entries_replicate_empty (n : Nat) :
    (List.replicate n (Cell.empty : Cell K V)).flatMap Cell.entries = [] :=
  List.flatMap_eq_nil_iff.2 fun c hc => by rw [List.eq_of_mem_replicate hc]; exact entries_empty

/-- A resize moves no entry: they all stay in the old array until migrated. -/
theorem entries_resize (policy : CellArray K V → Option Nat) (m : MapState K V) :
    (m.resize policy).entries = m.entries := by
  unfold resize
  split
  · rfl
  · next a ha =>
    split
    · rfl
    · split_ifs with ho
      · simp [entries, ha, CellArray.entries, Option.isNone_iff_eq_none.1 ho]
      · rfl

/-- A resize to a capacity of at most `2 ^ 64` cells keeps the map well formed. -/
theorem WellFormed.resize {m : MapState K V} (hm : m.WellFormed) {policy : CellArray K V → Option Nat}
    (hp : ∀ a lb, policy a = some lb → lb ≤ 64) : (m.resize policy).WellFormed := by
  unfold MapState.resize
  split
  · exact hm
  · next a _ =>
    split
    · exact hm
    · next lb hlb =>
      split_ifs
      · intro a' ha'
        simp only [Option.some.injEq] at ha'
        subst ha'
        exact ⟨by simp, hp a lb hlb, fun c hc => by rw [List.eq_of_mem_replicate hc]; rfl,
          fun _ _ i hi => absurd hi (Nat.not_lt_zero i)⟩
      · exact hm

end MapState

end SccHashMap
