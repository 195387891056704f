import SccHashMap.Entry
import SccHashMap.KeyLock
import Mathlib.Data.List.AList

/-!
# The finite map a hash map stands for

What `HashMap` is for, stated without cells, arrays or hashes: a finite map, the library's
association list `AList`, whose entries have no key twice and no particular order (a hash map
has none).  Its operations are the ones the documentation of `hash_map.rs` describes: `insert`
hands the pair back when the key is there, `remove_if` removes the key's entry when the
condition holds of its value, `update` and `upsert` rewrite the key's value, `retain` keeps the
entries its filter keeps with the values the filter left, `clear` empties the map, `for_each`
rewrites every value, and `len` counts the entries.  The single-key ones are `AList.insert`,
`AList.erase` and `AList.lookup`; the library has no counterpart of `retain` and `for_each`.

Two association lists are one map exactly when their entries are permutations of each other
(`List.perm_dlookup`, `List.lookup_ext`): this is what lets the refinement of
`SccHashMap.Refinement` compare a cell array's entries with a finite map's up to order.
-/

namespace SccHashMap

/-- A finite map from `K` to `V`. -/
abbrev FiniteMap (K V : Type) := AList fun _ : K => V

namespace FiniteMap

variable {K V R : Type}

/-- The entry an entry of `retain`'s sweep leaves, if the filter keeps it. -/
def kept (g : K → V → Bool × V) (e : (_ : K) × V) : Option ((_ : K) × V) :=
  if (g e.1 e.2).1 then some ⟨e.1, (g e.1 e.2).2⟩ else none

theorem keys_filterMap_kept_sublist (g : K → V → Bool × V) (es : List ((_ : K) × V)) :
    (es.filterMap (kept g)).keys.Sublist es.keys := by
  induction es with
  | nil => exact .slnil
  | cons e es ih =>
    by_cases hk : (g e.1 e.2).1
    · simpa [kept, hk] using ih.cons₂ e.1
    · simpa [kept, hk] using ih.cons e.1

/-- `retain` with a filter that keeps no state of its own: the numbers of entries kept and
erased, and the map of the kept ones with the values the filter left in them. -/
def retain (m : FiniteMap K V) (g : K → V → Bool × V) : Nat × Nat × FiniteMap K V :=
  ((m.entries.filterMap (kept g)).length, m.entries.countP (fun e => !(g e.1 e.2).1),
    ⟨m.entries.filterMap (kept g), (keys_filterMap_kept_sublist g m.entries).nodup m.nodupKeys⟩)

/-- `for_each`: every value rewritten in place. -/
def forEach (m : FiniteMap K V) (f : K → V → V) : FiniteMap K V :=
  ⟨m.entries.map fun e => ⟨e.1, f e.1 e.2⟩, by
    simpa [List.NodupKeys, List.keys, Function.comp_def] using m.nodupKeys⟩

/-- `len`: the number of entries. -/
def len (m : FiniteMap K V) : Nat := m.entries.length

/-- `clear` is `retain` with a filter that keeps nothing. -/
theorem retain_clear (m : FiniteMap K V) :
    m.retain (fun _ v => (false, v)) = (0, m.len, ∅) := by
  have h : m.entries.filterMap (kept fun (_ : K) (v : V) => (false, v)) = [] :=
    List.filterMap_eq_nil_iff.2 fun _ _ => rfl
  simp only [retain, h, List.length_nil, len, Bool.not_false, List.countP_true]
  rfl

/-- `for_each` is `retain` with a filter that keeps everything. -/
theorem retain_forEach (m : FiniteMap K V) (f : K → V → V) :
    (m.retain fun k v => (true, f k v)).2.2 = m.forEach f := by
  have hk : kept (fun k v => (true, f k v)) = some ∘ fun e : (_ : K) × V => ⟨e.1, f e.1 e.2⟩ :=
    rfl
  simp only [retain, hk, List.filterMap_eq_map]
  rfl

variable [DecidableEq K]

/-- The map as a function: the value `AList.lookup` finds under each key. -/
def find (m : FiniteMap K V) (k : K) : Option V := m.lookup k

/-- `insert`: `(k, v)` handed back when `k` is there, else `k ↦ v` added. -/
def insert (m : FiniteMap K V) (k : K) (v : V) : Except (K × V) Unit × FiniteMap K V :=
  if (m.find k).isSome then (.error (k, v), m) else (.ok (), AList.insert k v m)

/-- `remove_if`: the entry of `k` taken out and handed back when its value meets
`condition`. -/
def removeIf (m : FiniteMap K V) (k : K) (condition : V → Bool) :
    Option (K × V) × FiniteMap K V :=
  match (m.find k).filter condition with
  | some v => (some (k, v), m.erase k)
  | none => (none, m)

/-- `update`: the updater's result, and the value it writes under `k`, when `k` is there. -/
def update (m : FiniteMap K V) (k : K) (updater : K → V → V × R) : Option R × FiniteMap K V :=
  match m.find k with
  | some v => (some (updater k v).2, AList.insert k (updater k v).1 m)
  | none => (none, m)

/-- `upsert`: the updater on the value of `k`, or `k ↦ constructor` when `k` is absent. -/
def upsert (m : FiniteMap K V) (k : K) (constructor : V) (updater : K → V → V) : FiniteMap K V :=
  match m.find k with
  | some v => AList.insert k (updater k v) m
  | none => AList.insert k constructor m

/-! ### What the operations do to the map -/

theorem find_alistInsert (m : FiniteMap K V) (k : K) (v : V) :
    find (AList.insert k v m) = Function.update m.find k (some v) := by
  funext k'
  by_cases h : k' = k
  · subst h; simp [find]
  · simp [find, h]

theorem find_erase (m : FiniteMap K V) (k : K) : find (m.erase k) = Function.update m.find k none := by
  funext k'
  by_cases h : k' = k
  · subst h; simp [find]
  · simp [find, h]

theorem find_insert (m : FiniteMap K V) (k : K) (v : V) :
    (m.insert k v).2.find = if (m.find k).isSome then m.find else Function.update m.find k (some v) := by
  unfold insert
  split_ifs
  · rfl
  · exact find_alistInsert m k v

theorem find_removeIf (m : FiniteMap K V) (k : K) (condition : V → Bool) :
    (m.removeIf k condition).2.find =
      if ((m.find k).filter condition).isSome then Function.update m.find k none else m.find := by
  unfold removeIf
  split <;> rename_i h <;> rw [h]
  · exact find_erase m k
  · rfl

theorem find_update (m : FiniteMap K V) (k : K) (updater : K → V → V × R) :
    (m.update k updater).2.find =
      Function.update m.find k ((m.find k).map fun v => (updater k v).1) := by
  unfold update
  split <;> rename_i h
  · rw [find_alistInsert, h]
    rfl
  · rw [h, Option.map_none', ← h, Function.update_eq_self]

theorem fst_update (m : FiniteMap K V) (k : K) (updater : K → V → V × R) :
    (m.update k updater).1 = (m.find k).map fun v => (updater k v).2 := by
  unfold update
  split <;> rename_i h <;> rw [h] <;> rfl

theorem find_upsert (m : FiniteMap K V) (k : K) (constructor : V) (updater : K → V → V) :
    (m.upsert k constructor updater).find =
      Function.update m.find k ((KeyLock.Op.upsert constructor (updater k)).applyTo (m.find k)) := by
  unfold upsert
  split <;> rename_i h <;> rw [find_alistInsert, h] <;> rfl

theorem len_alistInsert_le (m : FiniteMap K V) (k : K) (v : V) :
    len (AList.insert k v m) ≤ m.len + 1 :=
  Nat.succ_le_succ (List.kerase_sublist k m.entries).length_le

theorem len_insert_le (m : FiniteMap K V) (k : K) (v : V) : (m.insert k v).2.len ≤ m.len + 1 := by
  unfold insert
  split_ifs
  · exact Nat.le_succ _
  · exact m.len_alistInsert_le k v

theorem len_removeIf_le (m : FiniteMap K V) (k : K) (condition : V → Bool) :
    (m.removeIf k condition).2.len ≤ m.len := by
  unfold removeIf
  split
  · exact (List.kerase_sublist k m.entries).length_le
  · exact le_rfl

end FiniteMap

end SccHashMap
