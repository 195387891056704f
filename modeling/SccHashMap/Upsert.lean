import SccHashMap.KeyLock

/-!
# Upserts on one key are linearizable

Over the model of `KeyLock`, with any number of threads running `upsert` on `k`, operations
on other keys of `k`'s cell or rehash batches, and no `update` on `k`, every reachable state
satisfies `Inv`:

* `ArrayInv`: every generation before the old array is killed, a killed cell holds no entry,
  the current array's cell is live, and while the old array's cell is live the current array's
  cell does not hold `k`;
* `Pc.Inv`: a thread holding a cell's lock finds it locked by itself, a thread about to lock
  generation `g` has seen generation `g - 1` killed, and an upsert between its search and its
  unlock holds the cell that owns `k`;
* `LogInv`: the ghost log lists, without repetition, the upserts whose store or insert took
  effect; `k`'s value is theirs applied one after the other from the initial value; and an
  upsert returns `false` (its constructor ran) exactly when it heads the log of a key that was
  absent.

One lemma per kind of step keeps it: `Inv.setPc` (a step that only moves a thread),
`Inv.setLockPc` (a lock taken or released), `Inv.write`, `Inv.insert`, `Inv.migrate`,
`Inv.resize` and `Inv.clearOld`; `Frame` carries every other thread's facts across a step.

* `upsert_linearizable`: once every upsert has returned, `k` is in exactly one cell and its
  value is the upserts applied in one order, the first one's constructor having run exactly
  when `k` was absent.
* `upsert_safe_everyInstant`: at every instant of every schedule, no two threads hold the
  `Locker` of one cell, `k` is in at most one cell, and its value is the upserts that have
  taken effect, applied in the order they did.
-/

namespace SccHashMap

namespace KeyLock

variable {V : Type}

/-! ### The serial specification -/

@[simp] theorem serialUpsert_nil (v : Option V) : serialUpsert v [] = v := rfl

@[simp] theorem serialUpsert_cons (v : Option V) (op : Op V) (ops : List (Op V)) :
    serialUpsert v (op :: ops) = serialUpsert (op.applyTo v) ops := rfl

@[simp] theorem serialUpsert_append_singleton (v : Option V) (ops : List (Op V)) (op : Op V) :
    serialUpsert v (ops ++ [op]) = op.applyTo (serialUpsert v ops) := by
  simp [serialUpsert]

theorem applyTo_ne_none {op : Op V} (h : op.isUpsert) (v : Option V) : op.applyTo v ≠ none := by
  cases op <;> cases v <;> simp_all [Op.applyTo, Op.isUpsert]

/-- After at least one upsert the key is present. -/
theorem serialUpsert_eq_none {v : Option V} {ops : List (Op V)} (h : ∀ op ∈ ops, op.isUpsert) :
    serialUpsert v ops = none ↔ ops = [] ∧ v = none := by
  induction ops generalizing v with
  | nil => simp
  | cons op ops ih =>
    rw [serialUpsert_cons, ih fun o ho => h o (.tail _ ho)]
    simp [applyTo_ne_none (h op (.head _))]

/-! ### The invariant -/

/-- A thread may lock generation `g`: it is not beyond the current one, and the cell of the
generation before it has been killed. -/
def State.Ready (s : State V) (g : Nat) : Prop :=
  g ≤ s.current ∧ (g = 0 ∨ (s.slot (g - 1)).lock = .killed)

/-- What a thread's position says of the state: the cell it holds is locked by it, a thread
about to lock generation `g` has seen `g - 1` killed, and inside an upsert it holds the cell
that owns `k`. -/
def Pc.Inv (s : State V) (t : Nat) (op : Op V) : Pc V → Prop
  | .start => True
  | .rehash g => 0 < g ∧ g ≤ s.current
  | .migrate g => 0 < g ∧ g ≤ s.current ∧ (s.slot (g - 1)).lock = .locked t
  | .lock g => s.Ready g
  | .check g => s.Ready g ∧ (s.slot g).lock = .locked t
  | .read g => op.isUpsert ∧ s.owner = g ∧ (s.slot g).lock = .locked t ∧ (s.slot g).value ≠ none
  | .write g x => op.isUpsert ∧ s.owner = g ∧ (s.slot g).lock = .locked t ∧
      (s.slot g).value = some x
  | .insert g => op.isUpsert ∧ s.owner = g ∧ (s.slot g).lock = .locked t ∧
      (s.slot g).value = none
  | .unlock g next => g ≤ s.current ∧ (s.slot g).lock = .locked t ∧ ∃ f, next = .done f
  | .done _ => True

/-- The return value of an upsert whose store or insert has taken effect. -/
def Pc.stored : Pc V → Option Bool
  | .unlock _ (.done f) => some f
  | .done f => some f
  | _ => none

/-- The cells of `k` across the generations. -/
structure ArrayInv (s : State V) : Prop where
  old : ∀ i < s.current, (i + 1 < s.current ∨ s.hasOld = false) → (s.slot i).lock = .killed
  killedEmpty : ∀ i, (s.slot i).lock = .killed → (s.slot i).value = none
  currentLive : (s.slot s.current).lock ≠ .killed
  hasOldPos : s.hasOld = true → 0 < s.current
  currentEmpty : s.hasOld = true → (s.slot (s.current - 1)).lock ≠ .killed →
    (s.slot s.current).value = none
  future : ∀ i, s.current < i → (s.slot i).lock = .free

/-- The ghost log against the serial specification, from the initial value `v₀`. -/
structure LogInv (v₀ : Option V) (s : State V) : Prop where
  nodup : s.log.Nodup
  mem : ∀ t, t ∈ s.log ↔ (s.thread t).op.isUpsert ∧ (s.thread t).pc.stored.isSome
  value : s.value = serialUpsert v₀ (s.log.map fun t => (s.thread t).op)
  flag : ∀ t f, (s.thread t).op.isUpsert → (s.thread t).pc.stored = some f →
    (f = false ↔ v₀ = none ∧ s.log.head? = some t)

/-- The invariant of every reachable state. -/
structure Inv (v₀ : Option V) (s : State V) : Prop where
  noUpdate : ∀ t, (s.thread t).op.isUpdate = false
  arrays : ArrayInv s
  threads : ∀ t, (s.thread t).pc.Inv s t (s.thread t).op
  log : LogInv v₀ s

/-! ### Frames -/

/-- A step of another thread as thread `t` sees it: its position unchanged, the cells it holds
untouched, the generation not going back, killed cells staying killed, and the owner of `k`
kept while `t` holds it. -/
structure Frame (s s' : State V) (t : Nat) : Prop where
  thread : s'.thread t = s.thread t
  held : ∀ i, (s.slot i).lock = .locked t → s'.slot i = s.slot i
  current : s.current ≤ s'.current
  killed : ∀ i, (s.slot i).lock = .killed → (s'.slot i).lock = .killed
  owner : ∀ i, (s.slot i).lock = .locked t → s.owner = i → s'.owner = i

section Frame

variable {s s' : State V} {t : Nat}

theorem Frame.ready (hf : Frame s s' t) {g : Nat} (h : s.Ready g) : s'.Ready g :=
  ⟨h.1.trans hf.current, h.2.imp_right (hf.killed _)⟩

theorem Frame.pcInv (hf : Frame s s' t) {op : Op V} :
    ∀ {pc : Pc V}, pc.Inv s t op → pc.Inv s' t op
  | .start, _ | .done _, _ => trivial
  | .rehash _, ⟨h0, hc⟩ => ⟨h0, hc.trans hf.current⟩
  | .migrate g, ⟨h0, hc, hl⟩ => ⟨h0, hc.trans hf.current, by rw [hf.held _ hl]; exact hl⟩
  | .lock _, h => hf.ready h
  | .check g, ⟨hr, hl⟩ => ⟨hf.ready hr, by rw [hf.held _ hl]; exact hl⟩
  | .read g, ⟨hu, ho, hl, hv⟩ => ⟨hu, hf.owner g hl ho, by rw [hf.held _ hl]; exact ⟨hl, hv⟩⟩
  | .write g _, ⟨hu, ho, hl, hv⟩ => ⟨hu, hf.owner g hl ho, by rw [hf.held _ hl]; exact ⟨hl, hv⟩⟩
  | .insert g, ⟨hu, ho, hl, hv⟩ => ⟨hu, hf.owner g hl ho, by rw [hf.held _ hl]; exact ⟨hl, hv⟩⟩
  | .unlock g _, ⟨hc, hl, hn⟩ => ⟨hc.trans hf.current, by rw [hf.held _ hl]; exact ⟨hl, hn⟩⟩

/-- Thread `t`'s facts survive a step that frames it. -/
theorem Frame.threadInv (hf : Frame s s' t) (h : (s.thread t).pc.Inv s t (s.thread t).op) :
    (s'.thread t).pc.Inv s' t (s'.thread t).op :=
  hf.thread ▸ hf.pcInv h

end Frame

/-! ### Steps that move no entry -/

/-- Two states agreeing on the generation, the old array, which cells are killed, every entry,
and the locks of the generations still to come. -/
structure SameCells (s s' : State V) : Prop where
  current : s'.current = s.current
  hasOld : s'.hasOld = s.hasOld
  killed : ∀ i, (s'.slot i).lock = .killed ↔ (s.slot i).lock = .killed
  value : ∀ i, (s'.slot i).value = (s.slot i).value
  future : ∀ i, s.current < i → (s'.slot i).lock = (s.slot i).lock

section SameCells

variable {s s' : State V}

theorem SameCells.refl (s : State V) : SameCells s s :=
  ⟨rfl, rfl, fun _ => .rfl, fun _ => rfl, fun _ _ => rfl⟩

theorem SameCells.setPc (h : SameCells s s') (t : Nat) (pc : Pc V) : SameCells s (s'.setPc t pc) :=
  ⟨h.current, h.hasOld, h.killed, h.value, h.future⟩

theorem SameCells.owner (h : SameCells s s') : s'.owner = s.owner := by
  simp only [State.owner, h.current, h.hasOld, ne_eq, h.killed]

theorem SameCells.value_eq (h : SameCells s s') : s'.value = s.value := by
  rw [State.value, h.owner, h.value, State.value]

theorem SameCells.ready (h : SameCells s s') {g : Nat} : s'.Ready g ↔ s.Ready g := by
  simp only [State.Ready, h.current, h.killed]

theorem SameCells.arrayInv (h : SameCells s s') (ha : ArrayInv s) : ArrayInv s' where
  old i hi ho := (h.killed i).2 (ha.old i (h.current ▸ hi) (by rwa [h.current, h.hasOld] at ho))
  killedEmpty i hk := (h.value i).trans (ha.killedEmpty i ((h.killed i).1 hk))
  currentLive := by rw [h.current, ne_eq, h.killed]; exact ha.currentLive
  hasOldPos ho := h.current ▸ ha.hasOldPos (h.hasOld ▸ ho)
  currentEmpty ho hl := by
    rw [h.current, h.value]
    exact ha.currentEmpty (h.hasOld ▸ ho) (by rwa [h.current, ne_eq, h.killed] at hl)
  future i hi := by
    rw [h.current] at hi
    rw [h.future i hi]; exact ha.future i hi

/-- Taking or releasing a lock of a generation up to the current one. -/
theorem sameCells_setLock {g : Nat} {l : Lock} (hg : g ≤ s.current)
    (hold : (s.slot g).lock ≠ .killed) (hl : l ≠ .killed) : SameCells s (s.setLock g l) where
  current := rfl
  hasOld := rfl
  killed i := by by_cases hi : i = g <;> simp [State.setLock, hi, hold, hl]
  value i := by by_cases hi : i = g <;> simp [State.setLock, hi]
  future i hi := by simp [State.setLock, show i ≠ g by omega]

end SameCells

section Log

variable {v₀ : Option V} {s s' : State V}

/-- The log facts hold on across a step that leaves the log, `k`'s value, every operation and
the return values of the upserts alone. -/
theorem LogInv.congr (h : LogInv v₀ s) (hlog : s'.log = s.log) (hval : s'.value = s.value)
    (hop : ∀ t, (s'.thread t).op = (s.thread t).op)
    (hst : ∀ t, (s.thread t).op.isUpsert → (s'.thread t).pc.stored = (s.thread t).pc.stored) :
    LogInv v₀ s' where
  nodup := hlog ▸ h.nodup
  mem t := by
    rw [hlog, hop, h.mem t]
    exact and_congr_right fun hu => by rw [hst t hu]
  value := by rw [hval, hlog, h.value]; simp only [hop]
  flag t f hu hs := by
    rw [hop] at hu
    rw [hlog]
    exact h.flag t f hu (by rw [← hst t hu]; exact hs)

end Log

/-! ### The owner of `k` -/

theorem State.owner_le (s : State V) : s.owner ≤ s.current := by
  unfold State.owner; split <;> omega

/-- The owner depends on the locks only through which cells are killed. -/
theorem State.owner_congr {s s' : State V} (hc : s'.current = s.current)
    (ho : s'.hasOld = s.hasOld) (hl : ∀ i, (s'.slot i).lock = (s.slot i).lock) :
    s'.owner = s.owner := by
  simp only [State.owner, hc, ho, hl]

/-- A thread that may lock the current generation locks the owner. -/
theorem ArrayInv.owner_of_ready {s : State V} (ha : ArrayInv s) (hr : s.Ready s.current) :
    s.owner = s.current := by
  unfold State.owner
  rcases hr.2 with h | h
  · rw [if_neg fun ho => absurd (ha.hasOldPos ho.1) (by omega)]
  · rw [if_neg fun ho => ho.2 h]

/-- Only the owner's cell can hold `k`, up to the current generation. -/
theorem ArrayInv.eq_owner {s : State V} (ha : ArrayInv s) {g : Nat} (hg : g ≤ s.current)
    (hv : (s.slot g).value ≠ none) : g = s.owner := by
  have hlive : (s.slot g).lock ≠ .killed := fun hk => hv (ha.killedEmpty g hk)
  unfold State.owner
  rcases Nat.lt_or_ge g s.current with h | h
  · -- an old generation: the old array's, still live
    have ho : g + 1 = s.current ∧ s.hasOld = true := by
      by_contra hc
      exact hlive (ha.old g h (by cases hb : s.hasOld <;> simp_all; omega))
    rw [if_pos ⟨ho.2, by rwa [← ho.1, Nat.add_sub_cancel]⟩]; omega
  · -- the current generation: the old array's cell, if live, would own `k`
    split_ifs with ho
    · exact absurd (ha.currentEmpty ho.1 ho.2) (by rwa [show g = s.current by omega] at hv)
    · omega

/-! ### Steps of a thread -/

theorem Op.not_isUpsert_of_rehash {op : Op V} (h : (op matches .rehash) = true) :
    op.isUpsert = false := by
  cases op <;> simp_all [Op.isUpsert]

/-- A lock change touches no cell another thread holds. -/
theorem setLock_held {s : State V} {g t' : Nat} {l : Lock} (hg : (s.slot g).lock ≠ .locked t')
    (i : Nat) (hi : (s.slot i).lock = .locked t') : (s.setLock g l).slot i = s.slot i := by
  have : i ≠ g := by rintro rfl; exact hg hi
  simp only [State.setLock, State.setSlot_slot, this, if_false]

@[simp] theorem Pc.inv_setPc (s : State V) (t : Nat) (pc : Pc V) (t' : Nat) (op : Op V)
    (pc' : Pc V) : pc'.Inv (s.setPc t pc) t' op ↔ pc'.Inv s t' op := by
  cases pc' <;> exact Iff.rfl

section Step

variable {v₀ : Option V} {s : State V}

/-- A step of thread `t` to a position `pc` whose facts hold, that kills no cell, moves no
entry, leaves the log alone and touches no cell another thread holds. -/
theorem Inv.local (hs : Inv v₀ s) {s₁ : State V} {t : Nat} {pc : Pc V}
    (hc : SameCells s s₁) (hthr : s₁.thread = s.thread) (hlog : s₁.log = s.log)
    (hheld : ∀ t' ≠ t, ∀ i, (s.slot i).lock = .locked t' → s₁.slot i = s.slot i)
    (hnew : pc.Inv s₁ t (s.thread t).op)
    (hst : (s.thread t).op.isUpsert → pc.stored = (s.thread t).pc.stored) :
    Inv v₀ (s₁.setPc t pc) where
  noUpdate t' := by rw [State.setPc_thread_op, hthr]; exact hs.noUpdate t'
  arrays := (hc.setPc t pc).arrayInv hs.arrays
  threads t' := by
    by_cases ht : t' = t
    · subst ht; simpa [hthr] using hnew
    · refine Frame.threadInv ⟨by simp [ht, hthr], hheld t' ht, hc.current.ge,
        fun i hi => (hc.killed i).2 hi, fun i _ ho => (hc.setPc t pc).owner.trans ho⟩
        (hs.threads t')
  log := hs.log.congr hlog (hc.setPc t pc).value_eq (fun t' => by rw [State.setPc_thread_op, hthr])
    fun t' hu => by
      by_cases ht : t' = t
      · subst ht; simp [hst hu]
      · simp [ht, hthr]

/-- `acquire` starts: to the old array's cell, else to the current one. -/
theorem Inv.step_start (hs : Inv v₀ s) {t : Nat} (hpc : (s.thread t).pc = .start) :
    Inv v₀ (s.stepThread t) := by
  simp only [State.stepThread, hpc]
  refine hs.local (.refl s) rfl rfl (fun _ _ _ _ => rfl) ?_ ?_
  · split_ifs with ho
    · exact ⟨hs.arrays.hasOldPos ho, le_rfl⟩
    · trivial
    · refine ⟨le_rfl, (Nat.eq_zero_or_pos s.current).imp_right fun h => ?_⟩
      exact hs.arrays.old _ (by omega) (.inr (by simpa using ho))
  · intro hu
    rw [hpc]
    split_ifs with ho hr
    · rfl
    · simp [Op.not_isUpsert_of_rehash hr] at hu
    · rfl

/-- `rehash g`: lock the old array's cell, or go on once it is killed. -/
theorem Inv.step_rehash (hs : Inv v₀ s) {t g : Nat} (hpc : (s.thread t).pc = .rehash g) :
    Inv v₀ (s.stepThread t) := by
  have hg : 0 < g ∧ g ≤ s.current := by simpa [hpc, Pc.Inv] using hs.threads t
  simp only [State.stepThread, hpc]
  split
  next hfree =>
    refine hs.local (sameCells_setLock (by omega) (by simp [hfree]) (by simp)) rfl rfl
      (fun t' _ => setLock_held (by simp [hfree])) ⟨hg.1, hg.2, by simp⟩ (by simp [hpc, Pc.stored])
  next hk =>
    refine hs.local (.refl s) rfl rfl (fun _ _ _ _ => rfl) ?_ ?_
    · split
      · trivial
      · exact ⟨hg.2, .inr hk⟩
    · rw [hpc]; intro hu; split
      · next hr => simp [Op.not_isUpsert_of_rehash hr] at hu
      · rfl
  next => exact hs

/-- `lock g`: take the cell's lock, or start over once it is killed. -/
theorem Inv.step_lock (hs : Inv v₀ s) {t g : Nat} (hpc : (s.thread t).pc = .lock g) :
    Inv v₀ (s.stepThread t) := by
  have hr : s.Ready g := by simpa [hpc, Pc.Inv] using hs.threads t
  simp only [State.stepThread, hpc]
  split
  next hfree =>
    have hc : SameCells s (s.setLock g (.locked t)) :=
      sameCells_setLock hr.1 (by simp [hfree]) (by simp)
    exact hs.local hc rfl rfl (fun t' _ => setLock_held (by simp [hfree]))
      ⟨hc.ready.2 hr, by simp⟩ (by simp [hpc, Pc.stored])
  next => exact hs.local (.refl s) rfl rfl (fun _ _ _ _ => rfl) trivial (by simp [hpc, Pc.stored])
  next => exact hs

/-- Where `acquire` returns to in the generation `g` that owns `k`: an upsert to its updater
or its insert, any other operation to its unlock. -/
theorem afterAcquire_inv {t g : Nat} {op : Op V} (hnu : op.isUpdate = false)
    (hg : g ≤ s.current) (hown : s.owner = g) (hl : (s.slot g).lock = .locked t) :
    (afterAcquire g (s.slot g).value.isSome op).Inv s t op ∧
      (op.isUpsert → (afterAcquire g (s.slot g).value.isSome op).stored = none) := by
  cases op with
  | upsert c u =>
    cases h : (s.slot g).value <;>
      simp [afterAcquire, Pc.Inv, Op.isUpsert, Pc.stored, hown, hl, h]
  | update u => simp [Op.isUpdate] at hnu
  | other | rehash => exact ⟨⟨hg, hl, false, rfl⟩, by simp [Op.isUpsert]⟩

/-- `check g`: in the current generation, the search; else release and start over. -/
theorem Inv.step_check (hs : Inv v₀ s) {t g : Nat} (hpc : (s.thread t).pc = .check g) :
    Inv v₀ (s.stepThread t) := by
  obtain ⟨hr, hl⟩ : s.Ready g ∧ (s.slot g).lock = .locked t := by
    simpa [hpc, Pc.Inv] using hs.threads t
  simp only [State.stepThread, hpc]
  split_ifs with hcur
  · subst hcur
    have h := afterAcquire_inv (hs.noUpdate t) le_rfl (hs.arrays.owner_of_ready hr) hl
    exact hs.local (.refl s) rfl rfl (fun _ _ _ _ => rfl) h.1 fun hu => by rw [hpc, h.2 hu]; rfl
  · exact hs.local (sameCells_setLock hr.1 (by simp [hl]) (by simp)) rfl rfl
      (fun t' ht' => setLock_held (by simp [hl, Ne.symm ht'])) trivial (by simp [hpc, Pc.stored])

/-- `read g`: the updater loads the value. -/
theorem Inv.step_read (hs : Inv v₀ s) {t g : Nat} (hpc : (s.thread t).pc = .read g) :
    Inv v₀ (s.stepThread t) := by
  obtain ⟨hu, hown, hl, hv⟩ : (s.thread t).op.isUpsert ∧ s.owner = g ∧
      (s.slot g).lock = .locked t ∧ (s.slot g).value ≠ none := by
    simpa [hpc, Pc.Inv] using hs.threads t
  simp only [State.stepThread, hpc]
  split
  next x hx =>
    exact hs.local (.refl s) rfl rfl (fun _ _ _ _ => rfl) ⟨hu, hown, hl, hx⟩
      (by simp [hpc, Pc.stored])
  next hx => exact absurd hx hv

/-- `unlock g next`: the locker is dropped. -/
theorem Inv.step_unlock (hs : Inv v₀ s) {t g : Nat} {next : Pc V}
    (hpc : (s.thread t).pc = .unlock g next) : Inv v₀ (s.stepThread t) := by
  obtain ⟨hg, hl, f, rfl⟩ : g ≤ s.current ∧ (s.slot g).lock = .locked t ∧ ∃ f, next = .done f := by
    simpa [hpc, Pc.Inv] using hs.threads t
  simp only [State.stepThread, hpc]
  exact hs.local (sameCells_setLock hg (by simp [hl]) (by simp)) rfl rfl
    (fun t' ht' => setLock_held (by simp [hl, Ne.symm ht'])) trivial (by simp [hpc, Pc.stored])

/-- An upsert holding the cell that owns `k` stores `v` there and enters the log. -/
theorem Inv.store (hs : Inv v₀ s) {t g : Nat} {v : V} {f : Bool}
    (hu : (s.thread t).op.isUpsert) (hown : s.owner = g) (hl : (s.slot g).lock = .locked t)
    (hst : (s.thread t).pc.stored = none) (hv : some v = (s.thread t).op.applyTo s.value)
    (hf : f = false ↔ v₀ = none ∧ (s.log ++ [t]).head? = some t) :
    Inv v₀ (((s.setValue g (some v)).setPc t (.unlock g (.done f))).appendLog t) := by
  have ha := hs.arrays
  have ht : t ∉ s.log := by simp [hs.log.mem, hst]
  have hown' : (((s.setValue g (some v)).setPc t (.unlock g (.done f))).appendLog t).owner = g :=
    (State.owner_congr (by simp) (by simp) fun i => by simp).trans hown
  refine ⟨fun t' => by simpa using hs.noUpdate t', ⟨?_, ?_, ?_, ha.hasOldPos, ?_, ?_⟩, ?_, ?_⟩
  · simpa using ha.old
  · intro i hk
    by_cases hi : i = g
    · subst hi; simp [hl] at hk
    · simpa [hi] using ha.killedEmpty i (by simpa using hk)
  · simpa using ha.currentLive
  · intro ho hlive
    have hg : s.current ≠ g := by
      have := ha.hasOldPos ho
      rw [← hown, State.owner, if_pos ⟨ho, by simpa using hlive⟩]; omega
    simpa [hg] using ha.currentEmpty ho (by simpa using hlive)
  · simpa using ha.future
  · intro t'
    by_cases ht' : t' = t
    · subst ht'; simpa [Pc.Inv, hl] using hown ▸ s.owner_le
    · refine Frame.threadInv ⟨by simp [ht'], fun i hi => ?_, by simp, fun i hi => by simpa using hi,
        fun i _ ho => hown'.trans (hown.symm.trans ho)⟩ (hs.threads t')
      have : i ≠ g := by rintro rfl; simp [hl] at hi; exact ht' hi.symm
      simp [this]
  · refine ⟨by simp [List.nodup_append, hs.log.nodup, ht], fun t' => ?_, ?_, fun t' f' hu' hs' => ?_⟩
    · by_cases ht' : t' = t
      · subst ht'; simp [hu, Pc.stored]
      · simp [ht', hs.log.mem]
    · simp only [State.value, hown']
      simp [hs.log.value ▸ hv]
    · by_cases ht' : t' = t
      · subst ht'; simp_all [Pc.stored]
      · simp only [State.appendLog_thread, State.setPc_thread_op, ne_eq, ht', not_false_eq_true,
          State.setPc_thread_ne, State.setValue_thread] at hu' hs'
        obtain ⟨a, l, hlog⟩ := List.exists_cons_of_ne_nil
          (List.ne_nil_of_mem ((hs.log.mem t').2 ⟨hu', by simp [hs']⟩))
        simpa [hlog] using hs.log.flag t' f' hu' hs'

theorem Op.exists_upsert {op : Op V} (h : op.isUpsert) : ∃ c u, op = .upsert c u := by
  cases op with
  | upsert c u => exact ⟨c, u, rfl⟩
  | _ => cases h

/-- Every operation in the log is an upsert. -/
theorem LogInv.log_isUpsert (h : LogInv v₀ s) :
    ∀ op ∈ s.log.map fun t => (s.thread t).op, op.isUpsert := by
  simp only [List.mem_map]
  rintro _ ⟨t, ht, rfl⟩
  exact ((h.mem t).1 ht).1

/-- `write g x`: the updater's store. -/
theorem Inv.step_write (hs : Inv v₀ s) {t g : Nat} {x : V} (hpc : (s.thread t).pc = .write g x) :
    Inv v₀ (s.stepThread t) := by
  obtain ⟨hu, hown, hl, hv⟩ : (s.thread t).op.isUpsert ∧ s.owner = g ∧
      (s.slot g).lock = .locked t ∧ (s.slot g).value = some x := by
    simpa [hpc, Pc.Inv] using hs.threads t
  obtain ⟨c, u, hop⟩ := Op.exists_upsert hu
  have hval : s.value = some x := by rw [State.value, hown, hv]
  simp only [State.stepThread, hpc, hv, hop, Option.map_some', afterWrite, Op.updater]
  refine hs.store hu hown hl (by simp [hpc, Pc.stored]) (by simp [hop, hval, Op.applyTo]) ?_
  simp only [Bool.true_eq_false, false_iff, not_and]
  intro h0 hhead
  cases hlog : s.log with
  | nil => simp [hs.log.value, hlog, h0] at hval
  | cons a l =>
    have : t ∈ s.log := by simp_all
    simpa [hpc, Pc.stored] using ((hs.log.mem t).1 this).2

/-- `insert g`: `locker.insert` with the constructor's value. -/
theorem Inv.step_insert (hs : Inv v₀ s) {t g : Nat} (hpc : (s.thread t).pc = .insert g) :
    Inv v₀ (s.stepThread t) := by
  obtain ⟨hu, hown, hl, hv⟩ : (s.thread t).op.isUpsert ∧ s.owner = g ∧
      (s.slot g).lock = .locked t ∧ (s.slot g).value = none := by
    simpa [hpc, Pc.Inv] using hs.threads t
  obtain ⟨c, u, hop⟩ := Op.exists_upsert hu
  have hval : s.value = none := by rw [State.value, hown, hv]
  obtain ⟨hlog, h0⟩ := (serialUpsert_eq_none hs.log.log_isUpsert).1 (hs.log.value ▸ hval)
  simp only [State.stepThread, hpc, hop, Op.constructor]
  refine hs.store hu hown hl (by simp [hpc, Pc.stored]) (by simp [hop, hval, Op.applyTo]) ?_
  simp_all

/-- Thread `t`, holding the old array's cell, moves `k`'s entry into the current array's free
cell and kills the old one; it goes on at `pc`. -/
theorem Inv.migrate (hs : Inv v₀ s) {t : Nat} {pc : Pc V} (ho : s.hasOld = true)
    (hl : (s.slot (s.current - 1)).lock = .locked t) (hfree : (s.slot s.current).lock = .free)
    (hpc : (s.thread t).pc = .migrate s.current)
    (hnew : pc = .lock s.current ∨ ((s.thread t).op.isUpsert = false ∧ pc = .done false)) :
    Inv v₀ ((s.migrate s.current).setPc t pc) := by
  have ha := hs.arrays
  have h0 := ha.hasOldPos ho
  have hown : s.owner = s.current - 1 := by simp [State.owner, ho, hl]
  have hne : s.current ≠ s.current - 1 := by omega
  have hown' : ((s.migrate s.current).setPc t pc).owner = s.current := by simp [State.owner]
  have hk : ∀ i, (s.slot i).lock = .killed →
      (((s.migrate s.current).setPc t pc).slot i).lock = .killed := by
    intro i hi
    simp only [State.setPc_slot, State.migrate_slot]
    split_ifs with h1 h2
    · rfl
    · subst h2; simp [hfree] at hi
    · exact hi
  refine ⟨fun t' => by simpa using hs.noUpdate t', ⟨?_, ?_, ?_, fun _ => h0, by simp, ?_⟩, ?_, ?_⟩
  · intro i hi hc
    have : i + 1 < s.current := by simpa [ho] using hc
    simpa [show i ≠ s.current - 1 by omega, show i ≠ s.current by omega] using
      ha.old i hi (.inl this)
  · intro i
    simp only [State.setPc_slot, State.migrate_slot]
    split_ifs with h1 h2
    · simp
    · subst h2; simp [hfree]
    · exact ha.killedEmpty i
  · simp [hne, hfree]
  · intro i hi
    simp only [State.setPc_current, State.migrate_current] at hi
    simpa [show i ≠ s.current - 1 by omega, show i ≠ s.current by omega] using ha.future i hi
  · intro t'
    by_cases ht : t' = t
    · subst ht
      simp only [State.setPc_thread_self]
      rcases hnew with rfl | ⟨-, rfl⟩
      · exact ⟨le_rfl, .inr (by simp)⟩
      · trivial
    · have hf : Frame s ((s.migrate s.current).setPc t pc) t' :=
        ⟨by simp [ht], fun i hi => ?_, le_rfl, hk, fun i hi hoi => ?_⟩
      · exact hf.threadInv (hs.threads t')
      · have h1 : i ≠ s.current - 1 := by rintro rfl; simp [hl] at hi; exact ht hi.symm
        have h2 : i ≠ s.current := by rintro rfl; simp [hfree] at hi
        simp [h1, h2]
      · subst hoi; simp [hown, hl] at hi; exact absurd hi.symm ht
  · refine hs.log.congr (by simp) ?_ (fun t' => by simp) fun t' hu => ?_
    · simp [State.value, hown', hown, hne]
    · by_cases ht : t' = t
      · subst ht
        rcases hnew with rfl | ⟨hnu, rfl⟩
        · simp [hpc, Pc.stored]
        · simp [hnu] at hu
      · simp [ht]

/-- `migrate g`: the migration once the target cell is free. -/
theorem Inv.step_migrate (hs : Inv v₀ s) {t g : Nat} (hpc : (s.thread t).pc = .migrate g) :
    Inv v₀ (s.stepThread t) := by
  obtain ⟨hg0, hg, hl⟩ : 0 < g ∧ g ≤ s.current ∧ (s.slot (g - 1)).lock = .locked t := by
    simpa [hpc, Pc.Inv] using hs.threads t
  -- the old cell is live: it is the old array's, and the target is the current array's
  obtain ⟨rfl, ho⟩ : g = s.current ∧ s.hasOld = true := by
    by_contra h
    have := hs.arrays.old (g - 1) (by omega) (by cases ho : s.hasOld <;> simp_all; omega)
    simp [hl] at this
  simp only [State.stepThread, hpc]
  split
  next hfree =>
    refine hs.migrate ho hl hfree hpc ?_
    split
    · next hr => exact .inr ⟨Op.not_isUpsert_of_rehash hr, rfl⟩
    · exact .inl rfl
  next => exact hs

/-- **Every step of a thread keeps the invariant.** -/
theorem Inv.stepThread (hs : Inv v₀ s) (t : Nat) : Inv v₀ (s.stepThread t) := by
  cases hpc : (s.thread t).pc with
  | start => exact hs.step_start hpc
  | rehash g => exact hs.step_rehash hpc
  | migrate g => exact hs.step_migrate hpc
  | lock g => exact hs.step_lock hpc
  | check g => exact hs.step_check hpc
  | read g => exact hs.step_read hpc
  | write g x => exact hs.step_write hpc
  | insert g => exact hs.step_insert hpc
  | unlock g next => exact hs.step_unlock hpc
  | done f => simpa [State.stepThread, hpc] using hs

/-! ### Resizes -/

/-- A resize, allowed once the previous rehash is complete. -/
theorem Inv.resize (hs : Inv v₀ s) (ho : s.hasOld = false) : Inv v₀ s.resize := by
  have ha := hs.arrays
  have hown : s.owner = s.current := by simp [State.owner, ho]
  have hown' : s.resize.owner = s.current := by simp [State.owner, ha.currentLive]
  have hfree : ∀ i, (s.slot i).lock ≠ .free → i ≠ s.current + 1 := by
    rintro i hi rfl; exact hi (ha.future _ (by omega))
  refine ⟨fun t => by simpa using hs.noUpdate t, ⟨?_, ?_, by simp, fun _ => by simp, by simp, ?_⟩,
    fun t => ?_, hs.log.congr (by simp) ?_ (by simp) (by simp)⟩
  · intro i hi hc
    have : i < s.current := by simpa using hc
    simpa [show i ≠ s.current + 1 by omega] using ha.old i this (.inr ho)
  · intro i hk
    by_cases hi : i = s.current + 1
    · subst hi; simp at hk
    · simpa [hi] using ha.killedEmpty i (by simpa [hi] using hk)
  · intro i hi
    simpa [show i ≠ s.current + 1 by simp at hi; omega] using ha.future i (by simp at hi; omega)
  · refine Frame.threadInv ⟨by simp, fun i hi => ?_, by simp, fun i hi => ?_,
      fun i _ ho => hown'.trans (hown.symm.trans ho)⟩ (hs.threads t)
    · simp [hfree i (by simp [hi])]
    · simp [hfree i (by simp [hi]), hi]
  · simp [State.value, hown, hown', ha.currentLive]

/-- The end of a rehash, once the old array's cell of `k` is killed. -/
theorem Inv.clearOld (hs : Inv v₀ s) (hk : (s.slot (s.current - 1)).lock = .killed) :
    Inv v₀ s.clearOld := by
  have ha := hs.arrays
  have hown : s.clearOld.owner = s.owner := by simp [State.owner, hk]
  refine ⟨fun t => by simpa using hs.noUpdate t, ⟨?_, by simpa using ha.killedEmpty,
    by simpa using ha.currentLive, by simp, by simp, by simpa using ha.future⟩,
    fun t => ?_, hs.log.congr (by simp) ?_ (by simp) (by simp)⟩
  · intro i hi _
    simp only [State.clearOld_slot, State.clearOld_current] at hi ⊢
    rcases Nat.lt_or_ge (i + 1) s.current with h | h
    · exact ha.old i hi (.inl h)
    · rwa [show i = s.current - 1 by omega]
  · have hf : Frame s s.clearOld t :=
      ⟨by simp, fun _ _ => rfl, le_rfl, fun _ hi => hi, fun i _ ho => hown.trans ho⟩
    exact hf.threadInv (hs.threads t)
  · simp [State.value, hown]

end Step

/-! ### Every reachable state -/

section Run

variable {v₀ : Option V} {s : State V}

/-- **Every event keeps the invariant.** -/
theorem Inv.step (hs : Inv v₀ s) : ∀ e, Inv v₀ (step s e)
  | .step t => hs.stepThread t
  | .resize => by
    simp only [KeyLock.step]
    split_ifs with ho
    · exact hs
    · exact hs.resize (by simpa using ho)
  | .clearOld => by
    simp only [KeyLock.step]
    split_ifs with h
    · exact hs.clearOld h.2
    · exact hs

/-- **Every schedule keeps the invariant.** -/
theorem Inv.run (hs : Inv v₀ s) (es : List Event) : Inv v₀ (run s es) := by
  induction es generalizing s with
  | nil => exact hs
  | cons e es ih => exact ih (hs.step e)

/-- The initial state of operations none of which is an `update`. -/
theorem inv_init (v₀ : Option V) {ops : List (Op V)} (hops : ∀ op ∈ ops, op.isUpdate = false) :
    Inv v₀ (State.init v₀ ops) := by
  -- an upsert thread has not started; every other thread is done
  have hstart : ∀ t, ((State.init v₀ ops).thread t).op.isUpsert →
      ((State.init v₀ ops).thread t).pc = .start := by
    intro t
    simp only [State.init]
    split
    · exact fun _ => rfl
    · exact fun h => nomatch h
  have hstored : ∀ t, ((State.init v₀ ops).thread t).op.isUpsert →
      ((State.init v₀ ops).thread t).pc.stored = none := fun t hu => by rw [hstart t hu]; rfl
  refine ⟨fun t => ?_, ⟨fun i hi => absurd hi (Nat.not_lt_zero _), fun _ h => (nomatch h), nofun,
    nofun, nofun, fun _ _ => rfl⟩, fun t => ?_, ⟨List.nodup_nil, fun t => ?_, rfl, fun t f hu hf => ?_⟩⟩
  · simp only [State.init]
    split
    · exact hops _ (List.getElem_mem _)
    · rfl
  · simp only [State.init]; split <;> trivial
  · exact ⟨nofun, fun ⟨hu, h⟩ => by simp [hstored t hu] at h⟩
  · simp [hstored t hu] at hf

/-- A step keeps every thread's operation. -/
theorem stepThread_op (s : State V) (t t' : Nat) :
    ((s.stepThread t).thread t').op = (s.thread t').op := by
  unfold State.stepThread
  split <;> (try split) <;> (try split) <;> simp

theorem run_op (s : State V) (es : List Event) (t : Nat) :
    ((run s es).thread t).op = (s.thread t).op := by
  induction es generalizing s with
  | nil => rfl
  | cons e es ih =>
    refine (ih _).trans ?_
    cases e <;> simp only [KeyLock.step, stepThread_op] <;> split_ifs <;> simp

theorem init_op (v₀ : Option V) (ops : List (Op V)) (t : Nat) :
    ((State.init v₀ ops).thread t).op = ops.getD t .other := by
  simp only [State.init]
  split
  · next h => simp [h]
  · next h => simp [List.getElem?_eq_none (Nat.le_of_not_lt h)]

theorem mem_upsertThreads {ops : List (Op V)} {t : Nat} :
    t ∈ upsertThreads ops ↔ (ops.getD t .other).isUpsert := by
  simp only [upsertThreads, List.mem_filter, List.mem_range, and_iff_right_iff_imp]
  intro h
  by_contra hl
  simp [List.getElem?_eq_none (Nat.le_of_not_lt hl), Op.isUpsert] at h

end Run

/-! ### Linearizability -/

/-- What linearizability of the upserts means for a final state `s`: `k` is present in exactly
one cell, and in some order of the upsert threads `k`'s value is their upserts applied one after
the other from `v₀`, the one that ran its constructor (returned `false`) being the first one,
exactly when `k` was absent. -/
def UpsertsLinearized (v₀ : Option V) (ops : List (Op V)) (s : State V) : Prop :=
  (∃! g, g ≤ s.current ∧ (s.slot g).value.isSome) ∧
    ∃ order : List Nat, order.Perm (upsertThreads ops) ∧
      s.value = serialUpsert v₀ (order.map fun t => ops.getD t .other) ∧
      ∀ t ∈ upsertThreads ops, ((s.thread t).pc = .done false ↔ v₀ = none ∧ order.head? = some t)

/-- **Upserts on one key are linearizable.**  Threads `0 .. ops.length - 1` run `ops` on a map
where `k ↦ v₀`: at least one upsert of `k`, no `update` of `k`, and operations on other keys of
`k`'s cell or rehash batches.  Whatever the schedule of their steps, resizes and ends of
rehashes, once every upsert has returned the upserts are linearized, in the order of the log. -/
theorem upsert_linearizable (v₀ : Option V) (ops : List (Op V)) (es : List Event)
    (hops : ∀ op ∈ ops, op.isUpdate = false) (hup : ∃ op ∈ ops, op.isUpsert)
    (hdone : ∀ t ∈ upsertThreads ops, ∃ f, ((run (State.init v₀ ops) es).thread t).pc = .done f) :
    UpsertsLinearized v₀ ops (run (State.init v₀ ops) es) := by
  have hs := (inv_init v₀ hops).run es
  have hop : ∀ t, ((run (State.init v₀ ops) es).thread t).op = ops.getD t .other := fun t => by
    rw [run_op, init_op]
  have hperm : (run (State.init v₀ ops) es).log.Perm (upsertThreads ops) := by
    have hnd : (upsertThreads ops).Nodup := (List.nodup_range _).filter _
    refine (List.perm_ext_iff_of_nodup hs.log.nodup hnd).2 fun t => ?_
    rw [hs.log.mem, mem_upsertThreads, hop]
    refine ⟨And.left, fun hu => ⟨hu, ?_⟩⟩
    obtain ⟨f, hf⟩ := hdone t (mem_upsertThreads.2 hu)
    simp [hf, Pc.stored]
  have hval : (run (State.init v₀ ops) es).value =
      serialUpsert v₀ ((run (State.init v₀ ops) es).log.map fun t => ops.getD t .other) := by
    simp only [hs.log.value, hop]
  refine ⟨⟨_, ⟨State.owner_le _, ?_⟩,
    fun g hg => hs.arrays.eq_owner hg.1 (Option.ne_none_iff_isSome.2 hg.2)⟩, _, hperm, hval,
    fun t ht => ?_⟩
  · -- some upsert has stored, so `k` is present
    obtain ⟨op, hmem, hu⟩ := hup
    obtain ⟨t, htl, rfl⟩ := List.getElem_of_mem hmem
    have hne : (run (State.init v₀ ops) es).log ≠ [] := fun h => by
      simpa [h] using hperm.mem_iff.2 (mem_upsertThreads.2 (by simpa [htl] using hu) : t ∈ _)
    have := (@serialUpsert_eq_none V v₀ _ hs.log.log_isUpsert).not.2 (by simp [hne])
    rw [← hs.log.value] at this
    simpa [Option.isSome_iff_ne_none] using this
  · obtain ⟨f, hf⟩ := hdone t ht
    have hu : ((run (State.init v₀ ops) es).thread t).op.isUpsert := by
      rw [hop]; exact mem_upsertThreads.1 ht
    rw [← hs.log.flag t f hu (by simp [hf, Pc.stored]), hf]
    simp

/-- Two upserts `upsert(k, || 1, |_, v| *v += 1)` on an absent key, contending: the first takes
the cell and inserts `1` while the second waits for the lock; a resize starts before the first
drops the `Locker`; the second then locks the old cell, finds the array changed and retries,
migrates `k`'s entry into the new array, and updates it there. -/
theorem upsert_linearizable_two :
    let ops : List (Op Nat) := [.upsert 1 (· + 1), .upsert 1 (· + 1)]
    let es : List Event := [.step 0, .step 1, .step 0, .step 1, .step 0, .step 1, .step 0,
      .resize, .step 0, .step 1, .step 1, .step 1, .step 1, .step 1, .step 1, .step 1, .step 1,
      .step 1, .step 1, .step 1]
    ((∀ op ∈ ops, op.isUpdate = false) ∧ (∃ op ∈ ops, op.isUpsert) ∧
      ∀ t ∈ upsertThreads ops, ∃ f, ((run (State.init none ops) es).thread t).pc = .done f) ∧
    UpsertsLinearized none ops (run (State.init none ops) es) :=
  ⟨⟨by decide, by decide, by decide⟩,
    upsert_linearizable none _ _ (by decide) (by decide) (by decide)⟩

/-! ### Every instant -/

/-- The generation of the cell whose `Locker` a thread at `pc` holds: the old cell it
migrates, or the cell `acquire` locked, from the search to the drop of the `Locker`. -/
def Pc.lockedCell : Pc V → Option Nat
  | .migrate g => some (g - 1)
  | .check g | .read g | .write g _ | .insert g | .unlock g _ => some g
  | _ => none

theorem Pc.Inv.lock_of_lockedCell {s : State V} {t : Nat} {op : Op V} :
    ∀ {pc : Pc V} {g : Nat}, pc.Inv s t op → pc.lockedCell = some g → (s.slot g).lock = .locked t
  | .migrate _, _, ⟨_, _, hl⟩, rfl => hl
  | .check _, _, ⟨_, hl⟩, rfl => hl
  | .read _, _, ⟨_, _, hl, _⟩, rfl => hl
  | .write _ _, _, ⟨_, _, hl, _⟩, rfl => hl
  | .insert _, _, ⟨_, _, hl, _⟩, rfl => hl
  | .unlock _ _, _, ⟨_, hl, _⟩, rfl => hl

/-- **Upserts are safe at every instant of every schedule**, not only once they have returned:
whatever the interleaving of upserts on `k`, operations on other keys of its cell, rehash
batches, resizes and ends of rehashes (no `update` of `k`), no two threads hold the `Locker` of
one cell, `k` is in at most one cell of the arrays, and `k`'s value is the upserts whose store
or insert has taken effect, each once, applied in the order they took effect. -/
theorem upsert_safe_everyInstant (v₀ : Option V) (ops : List (Op V)) (es : List Event)
    (hops : ∀ op ∈ ops, op.isUpdate = false) :
    let s := run (State.init v₀ ops) es
    (∀ t t' g, (s.thread t).pc.lockedCell = some g → (s.thread t').pc.lockedCell = some g →
      t = t') ∧
    (∀ g ≤ s.current, (s.slot g).value ≠ none → g = s.owner) ∧
    s.log.Nodup ∧ s.value = serialUpsert v₀ (s.log.map fun t => ops.getD t .other) := by
  intro s
  have hs : Inv v₀ s := (inv_init v₀ hops).run es
  have hop : ∀ t, (s.thread t).op = ops.getD t .other := fun t => by rw [run_op, init_op]
  refine ⟨fun t t' g h h' => ?_, fun g hg hv => hs.arrays.eq_owner hg hv, hs.log.nodup,
    by simp only [hs.log.value, hop]⟩
  have hl := (hs.threads t).lock_of_lockedCell h
  rw [(hs.threads t').lock_of_lockedCell h'] at hl
  exact (Lock.locked.inj hl).symm

/-- Two upserts on an absent key, stopped halfway: the first has inserted and still holds the
cell. -/
theorem upsert_safe_everyInstant_half :
    let ops : List (Op Nat) := [.upsert 1 (· + 1), .upsert 1 (· + 1)]
    let es : List Event := [.step 0, .step 0, .step 0, .step 0, .step 1]
    (∀ op ∈ ops, op.isUpdate = false) ∧
    let s := run (State.init none ops) es
    (∀ t t' g, (s.thread t).pc.lockedCell = some g → (s.thread t').pc.lockedCell = some g →
      t = t') ∧
    (∀ g ≤ s.current, (s.slot g).value ≠ none → g = s.owner) ∧
    s.log.Nodup ∧ s.value = serialUpsert none (s.log.map fun t => ops.getD t .other) :=
  ⟨by decide, upsert_safe_everyInstant none _ _ (by decide)⟩

end KeyLock

end SccHashMap
