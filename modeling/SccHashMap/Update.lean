import SccHashMap.Entry
import SccHashMap.Upsert

/-!
# `update` and `upsert` with no other operation in flight

`HashMap::update` and `HashMap::upsert` run `acquire`, which leaves the key's cell locked with
an iterator on the key's entry, then the updater on that entry through `&mut V`, or, for
`upsert` on an absent key, `Locker::insert` with the constructor's value.  With no other
operation in flight the `Locker` that `update` drops early guards nothing, so both act on the
map the array stands for as a finite map's update and upsert.

* `HashMap.valid_update`, `HashMap.valid_upsert`: they keep a valid array valid, and change
  the value under the key as the updater or the constructor say.
* `HashMap.runOps_serial`: upserts on one key run one after the other, with rehash steps and
  operations on other keys in between, leave the value `serialUpsert` gives: the serial
  specification that `upsert_linearizable` holds interleaved runs to is what the code computes
  when the upserts do not overlap.
* `HashMap.upsert_interleaved_eq_runOps`: hence at every instant of every interleaving, the
  per-key model of `KeyLock` holds the value the code leaves running the upserts that have
  taken effect one after the other on the array, in the order they did.
-/

namespace SccHashMap

namespace Cell

variable {K V : Type} [DecidableEq K]

/-- The first entry of key `k` gets its value through `g`. -/
def updateFirst (k : K) (g : V → V) : List (K × V) → List (K × V)
  | [] => []
  | e :: rest => if e.1 = k then (k, g e.2) :: rest else e :: updateFirst k g rest

/-- The first slot holding an entry of key `k` gets its value through `g`. -/
def updateSlot (k : K) (g : V → V) : List (Option (K × V)) → Option (List (Option (K × V)))
  | [] => none
  | none :: rest => (updateSlot k g rest).map (none :: ·)
  | some e :: rest =>
    if e.1 = k then some (some (k, g e.2) :: rest) else (updateSlot k g rest).map (some e :: ·)

/-- Modelled from the spec: the updater run through `&mut V` on the entry of key `k` that the
cell's iterator finds first. -/
def update (c : Cell K V) (k : K) (g : V → V) : Cell K V :=
  match updateSlot k g c.slots with
  | some slots => { c with slots := slots }
  | none => { c with overflow := updateFirst k g c.overflow }

section UpdateFirst

variable {k : K} {g : V → V}

theorem updateFirst_append_of_mem {l₁ : List (K × V)} (h : ∃ e ∈ l₁, e.1 = k)
    (l₂ : List (K × V)) : updateFirst k g (l₁ ++ l₂) = updateFirst k g l₁ ++ l₂ := by
  induction l₁ with
  | nil => simp at h
  | cons e l₁ ih =>
    by_cases he : e.1 = k
    · simp [updateFirst, he]
    · have h' : ∃ e ∈ l₁, e.1 = k := by
        obtain ⟨e', he', hk⟩ := h
        rcases List.mem_cons.1 he' with rfl | he'
        · exact absurd hk he
        · exact ⟨e', he', hk⟩
      simp [updateFirst, he, ih h']

theorem updateFirst_append_of_forall {l₁ : List (K × V)} (h : ∀ e ∈ l₁, e.1 ≠ k)
    (l₂ : List (K × V)) : updateFirst k g (l₁ ++ l₂) = l₁ ++ updateFirst k g l₂ := by
  induction l₁ with
  | nil => rfl
  | cons e l₁ ih =>
    simp [updateFirst, h e (.head _), ih fun e' he' => h e' (.tail _ he')]

/-- The update keeps every key where it is. -/
@[simp] theorem map_fst_updateFirst (es : List (K × V)) :
    (updateFirst k g es).map Prod.fst = es.map Prod.fst := by
  induction es with
  | nil => rfl
  | cons e es ih => by_cases he : e.1 = k <;> simp [updateFirst, he, ih]

/-- The updated entry and the others: `(k, g w)` and what erasing the first entry of key `k`
leaves. -/
theorem updateFirst_perm {es : List (K × V)} {w : V} (h : es.lookup k = some w) :
    (updateFirst k g es).Perm ((k, g w) :: es.eraseP fun e => e.1 = k) := by
  induction es with
  | nil => simp at h
  | cons e es ih =>
    obtain ⟨k', v⟩ := e
    by_cases he : k' = k
    · subst he
      have : v = w := by simpa using h
      simp [updateFirst, this]
    · have h' : es.lookup k = some w := by
        simpa [List.lookup_cons, beq_eq_false_iff_ne.2 (Ne.symm he)] using h
      simp only [updateFirst, he, if_false, List.eraseP_cons, decide_eq_true_eq]
      exact ((ih h').cons _).trans (.swap _ _ _)

end UpdateFirst

theorem updateSlot_some {k : K} {g : V → V} : ∀ {sl sl' : List (Option (K × V))},
    updateSlot k g sl = some sl' →
      (∃ e ∈ sl.filterMap id, e.1 = k) ∧ sl'.filterMap id = updateFirst k g (sl.filterMap id)
  | [], _, h => nomatch h
  | none :: rest, _, h => by
    obtain ⟨r, hr, rfl⟩ := Option.map_eq_some'.1 h
    exact (updateSlot_some hr :)
  | some e :: rest, _, h => by
    unfold updateSlot at h
    split_ifs at h with hk
    · cases h
      exact ⟨⟨e, .head _, hk⟩, by
        show _ = updateFirst k g (e :: _)
        rw [updateFirst, if_pos hk]
        rfl⟩
    · obtain ⟨r, hr, rfl⟩ := Option.map_eq_some'.1 h
      obtain ⟨⟨e', he', hk'⟩, hs⟩ := updateSlot_some hr
      exact ⟨⟨e', List.mem_cons_of_mem _ he', hk'⟩, by
        show e :: _ = updateFirst k g (e :: _)
        rw [updateFirst, if_neg hk, hs]⟩

theorem updateSlot_none {k : K} {g : V → V} : ∀ {sl : List (Option (K × V))},
    updateSlot k g sl = none → ∀ e ∈ sl.filterMap id, e.1 ≠ k
  | [], _ => nofun
  | none :: rest, h => by
    rw [updateSlot, Option.map_eq_none'] at h
    exact (updateSlot_none h :)
  | some e :: rest, h => by
    unfold updateSlot at h
    split_ifs at h with hk
    intro e' he'
    rcases List.mem_cons.1 he' with rfl | he'
    · exact hk
    · exact updateSlot_none (Option.map_eq_none'.1 h) e' he'

@[simp] theorem update_killed (c : Cell K V) (k : K) (g : V → V) :
    (c.update k g).killed = c.killed := by
  unfold update; split <;> rfl

/-- Updating a live cell updates the first entry of key `k` among its entries. -/
theorem entries_update {c : Cell K V} (hc : c.killed = false) (k : K) (g : V → V) :
    (c.update k g).entries = updateFirst k g c.entries := by
  unfold update
  split
  next sl h =>
    obtain ⟨hm, hs⟩ := updateSlot_some h
    simp [entries, hc, hs, updateFirst_append_of_mem hm]
  next h => simp [entries, hc, updateFirst_append_of_forall (updateSlot_none h)]

end Cell

namespace CellArray

variable {K V : Type} [DecidableEq K] (hash : K → UInt64)

/-- Updating the entry of key `k` in the key's cell of a valid array keeps it valid, and the
map's value under `k` goes from `w` to `g w`. -/
theorem Valid.update_cell {b : CellArray K V} (hb : b.Valid hash) {k : K} {c : Cell K V} {w : V}
    (hc : b.cells[b.cellOf hash k]? = some c) (hw : (k, w) ∈ c.entries) (g : V → V) :
    ({ b with cells := b.cells.set (b.cellOf hash k) (c.update k g) } : CellArray K V).Valid
        hash ∧
      ({ b with cells := b.cells.set (b.cellOf hash k) (c.update k g) } : CellArray K V).toMap =
        Function.update b.toMap k (some (g w)) := by
  obtain ⟨hve, hperm⟩ := hb.erase_cell hash hc hw
  have hlive : c.killed = false := hb.wellFormed.live c (List.mem_iff_getElem?.2 ⟨_, hc⟩)
  have hsub : c.entries ⊆ b.entries := fun e he =>
    List.mem_append_left _ (List.mem_flatMap.2 ⟨c, List.mem_iff_getElem?.2 ⟨_, hc⟩, he⟩)
  -- the updated cell holds `(k, g w)` and what erasing `(k, w)` leaves
  have hcell : (c.update k g).entries.Perm ((k, g w) :: (c.erase k).entries) := by
    rw [Cell.entries_update hlive, Cell.entries_erase hlive]
    exact Cell.updateFirst_perm (lookup_of_mem hb.nodupKeys hsub hw)
  -- the array after the update is the one after the erase with the updated cell in its place
  have hE : ({ b with cells := b.cells.set (b.cellOf hash k) (c.erase k) } : CellArray K V).cells[
      b.cellOf hash k]? = some (c.erase k) := by
    simp [List.getElem?_set, (List.getElem?_eq_some_iff.1 hc).1]
  have h : (_ ++ (c.erase k).entries).Perm (((k, g w) ::
      ({ b with cells := b.cells.set (b.cellOf hash k) (c.erase k) } : CellArray K V).entries) ++
        (c.erase k).entries) :=
    ((entries_set hE).trans (hcell.append_left _)).trans List.perm_middle
  simp only [List.set_set] at h
  have hperm' := (List.perm_append_right_iff (c.erase k).entries).1 h
  -- the updated entry has the key of the erased one
  have hnd : ((((k, g w) :: _).map Prod.toSigma).NodupKeys) :=
    (List.perm_nodupKeys (hperm.map Prod.toSigma)).1 hb.nodupKeys
  have hnd' := (List.perm_nodupKeys (hperm'.map Prod.toSigma)).2 hnd
  refine ⟨⟨hb.wellFormed.set (by simpa using hlive), hb.placed.set hash fun e he => ?_, hnd'⟩, ?_⟩
  · rw [Cell.entries_update hlive] at he
    obtain ⟨⟨k', v⟩, hm, hk⟩ := List.mem_map.1 <|
      (Cell.map_fst_updateFirst (k := k) (g := g) c.entries) ▸ List.mem_map_of_mem Prod.fst he
    exact hk ▸ hb.placed.cells _ c hc (k', v) hm
  · rw [toMap_of_perm_cons hnd' hperm', toMap_erase_of_perm_cons hb.nodupKeys hperm,
      Function.update_idem]

end CellArray

namespace HashMap

variable {K V : Type} [DecidableEq K] (hash : K → UInt64)

/-- `HashMap::update(key, updater)` with no other operation in flight: after `acquire`, the
updater, which returns a result and writes the value through `&mut V`, on the key's entry. -/
def update {R : Type} (k : K) (updater : K → V → V × R) (a : CellArray K V) :
    Option R × CellArray K V :=
  let a := a.acquire hash k
  match a.cells[a.cellOf hash k]? with
  | some c =>
    match c.entries.lookup k with
    | some v =>
      (some (updater k v).2,
        { a with cells := a.cells.set (a.cellOf hash k) (c.update k fun v => (updater k v).1) })
    | none => (none, a)
  | none => (none, a)

/-- `HashMap::upsert(key, constructor, updater)` with no other operation in flight: after
`acquire`, the updater on the key's entry, or `locker.insert(key, constructor())`. -/
def upsert (k : K) (constructor : V) (updater : K → V → V) (a : CellArray K V) : CellArray K V :=
  let a := a.acquire hash k
  match a.cells[a.cellOf hash k]? with
  | some c =>
    if (c.entries.lookup k).isSome then
      { a with cells := a.cells.set (a.cellOf hash k) (c.update k (updater k)) }
    else { a with cells := a.cells.set (a.cellOf hash k) (c.insert (k, constructor)) }
  | none => a

/-! ### Operations on one key, one after the other -/

/-- An operation of `KeyLock` on key `k`, run on its own on the whole map: an upsert or an
update on `k`, a rehash step, or an operation on another key, which `k`'s value does not
see. -/
def runOp (k : K) (a : CellArray K V) : KeyLock.Op V → CellArray K V
  | .upsert c u => upsert hash k c (fun _ => u) a
  | .update u => (update hash k (fun _ v => (u v, ())) a).2
  | .other => a
  | .rehash => a.partialRehash hash

/-- Operations on key `k`, one after the other. -/
def runOps (k : K) (a : CellArray K V) (ops : List (KeyLock.Op V)) : CellArray K V :=
  ops.foldl (runOp hash k) a

variable {hash}

/-- **`update` updates the key's value when it is there**: on a valid array it keeps the array
valid, returns the updater's result, and the map's value under `k` becomes the one the updater
wrote; on an absent key it returns `None` and the map stays. -/
theorem valid_update {R : Type} {a : CellArray K V} (hv : a.Valid hash) (k : K)
    (updater : K → V → V × R) :
    (update hash k updater a).2.Valid hash ∧
      (update hash k updater a).1 = (a.toMap k).map (fun v => (updater k v).2) ∧
      (update hash k updater a).2.toMap =
        Function.update a.toMap k ((a.toMap k).map fun v => (updater k v).1) := by
  have hv' := (hv.acquire hash k).1
  obtain ⟨c, hc⟩ := hv'.wellFormed.getElem?_cellOf hash k
  have hmap := hv.toMap_acquire hash k
  have hl := hv.lookup_acquire hash hc
  simp only [HashMap.update, hc, hl]
  cases hw : a.toMap k with
  | none => exact ⟨hv', rfl, by rw [hmap, Option.map_none', ← hw, Function.update_eq_self]⟩
  | some w =>
    obtain ⟨hvu, hmu⟩ := hv'.update_cell hash hc (mem_of_lookup_eq_some (hl.trans hw))
      fun v => (updater k v).1
    exact ⟨hvu, rfl, by rw [hmu, hmap, Option.map_some']⟩

/-- **`upsert` is a finite map's upsert**: on a valid array it keeps the array valid, and the
map's value under `k` becomes the updater's on the old value, or the constructor's value on an
absent key; the rest of the map stays. -/
theorem valid_upsert {a : CellArray K V} (hv : a.Valid hash) (k : K) (constructor : V)
    (updater : K → V → V) :
    (upsert hash k constructor updater a).Valid hash ∧
      (upsert hash k constructor updater a).toMap =
        Function.update a.toMap k ((KeyLock.Op.upsert constructor (updater k)).applyTo (a.toMap k)) := by
  have hv' := (hv.acquire hash k).1
  obtain ⟨c, hc⟩ := hv'.wellFormed.getElem?_cellOf hash k
  have hmap := hv.toMap_acquire hash k
  have hl := hv.lookup_acquire hash hc
  simp only [HashMap.upsert, hc, hl]
  cases hw : a.toMap k with
  | none =>
    rw [if_neg (by simp)]
    obtain ⟨hvi, hperm⟩ := hv'.insert_cell hash hc (lookup_eq_none.1
      (show (a.acquire hash k).toMap k = none by rw [hmap, hw])) constructor
    refine ⟨hvi, ?_⟩
    rw [CellArray.toMap_of_perm_cons hvi.nodupKeys hperm, hmap]
    rfl
  | some w =>
    rw [if_pos (by simp)]
    obtain ⟨hvu, hmu⟩ := hv'.update_cell hash hc (mem_of_lookup_eq_some (hl.trans hw)) (updater k)
    exact ⟨hvu, by rw [hmu, hmap]; rfl⟩

theorem valid_runOp {a : CellArray K V} (hv : a.Valid hash) (k : K) (op : KeyLock.Op V) :
    (runOp hash k a op).Valid hash ∧
      (op.isUpdate = false → (runOp hash k a op).toMap k = op.applyTo (a.toMap k)) := by
  cases op with
  | upsert c u =>
    obtain ⟨hv', hm⟩ := valid_upsert hv k c (fun _ => u)
    exact ⟨hv', fun _ => by simp [runOp, hm]⟩
  | update u => exact ⟨(valid_update hv k _).1, fun h => by simp [KeyLock.Op.isUpdate] at h⟩
  | other => exact ⟨hv, fun _ => rfl⟩
  | rehash =>
    obtain ⟨hv', hp⟩ := hv.partialRehash hash
    exact ⟨hv', fun _ => congrFun (CellArray.toMap_perm hv'.nodupKeys hp) k⟩

/-- **Upserts on one key, run one after the other, compute `serialUpsert`**: with rehash steps
and operations on other keys in between and no `update`, the value under `k` is the upserts
applied in order to the value it had. -/
theorem runOps_serial {a : CellArray K V} (hv : a.Valid hash) (k : K) (ops : List (KeyLock.Op V))
    (hops : ∀ op ∈ ops, op.isUpdate = false) :
    (runOps hash k a ops).Valid hash ∧
      (runOps hash k a ops).toMap k = KeyLock.serialUpsert (a.toMap k) ops := by
  induction ops generalizing a with
  | nil => exact ⟨hv, rfl⟩
  | cons op ops ih =>
    obtain ⟨hv', hm⟩ := valid_runOp hv k op
    obtain ⟨hv'', hm'⟩ := ih hv' fun op' h => hops op' (.tail _ h)
    exact ⟨hv'', by rw [runOps, List.foldl_cons, ← runOps, hm', hm (hops op (.head _))]; rfl⟩

/-- **Interleaved upserts leave what the code leaves running them one after the other**: at
every instant of every schedule of the `KeyLock` system started from `k`'s value in a valid
array `a`, with no `update` of `k`, `k`'s value is the one `a` holds once the upserts that have
taken effect are run on it one after the other, in the order they took effect. -/
theorem upsert_interleaved_eq_runOps {a : CellArray K V} (hv : a.Valid hash) (k : K)
    (ops : List (KeyLock.Op V)) (hops : ∀ op ∈ ops, op.isUpdate = false)
    (es : List KeyLock.Event) :
    let s := KeyLock.run (KeyLock.State.init (a.toMap k) ops) es
    s.value = (runOps hash k a (s.log.map fun t => ops.getD t .other)).toMap k := by
  intro s
  have hs : KeyLock.Inv (a.toMap k) s := (KeyLock.inv_init _ hops).run es
  have hop : ∀ t, (s.thread t).op = ops.getD t .other := fun t => by
    rw [KeyLock.run_op, KeyLock.init_op]
  rw [hs.log.value, (runOps_serial hv k _ _).2]
  · simp only [hop]
  · simp only [List.mem_map]
    rintro _ ⟨t, -, rfl⟩
    rw [← hop]
    exact hs.noUpdate t

/-- Two upserts `upsert(1, || 1, |_, v| *v += 1)` on `HashMap::default`'s array, the second
one's steps first. -/
theorem upsert_interleaved_eq_runOps_two :
    (CellArray.new 1 : CellArray Nat Nat).Valid Nat.toUInt64 ∧
    (∀ op ∈ ([.upsert 1 (· + 1), .upsert 1 (· + 1)] : List (KeyLock.Op Nat)),
      op.isUpdate = false) ∧
    let ops : List (KeyLock.Op Nat) := [.upsert 1 (· + 1), .upsert 1 (· + 1)]
    let s := KeyLock.run (KeyLock.State.init ((CellArray.new 1 : CellArray Nat Nat).toMap 1) ops)
      [.step 1, .step 1, .step 1, .step 1, .step 0, .step 0]
    s.value = (runOps Nat.toUInt64 1 (CellArray.new 1) (s.log.map fun t => ops.getD t .other)).toMap 1 :=
  have hv : (CellArray.new 1 : CellArray Nat Nat).Valid Nat.toUInt64 :=
    CellArray.Valid.new Nat.toUInt64 (by decide)
  ⟨hv, by decide, upsert_interleaved_eq_runOps hv 1 _ (by decide) _⟩

end HashMap

end SccHashMap
