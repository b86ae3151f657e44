import Mathlib.Algebra.Order.Ring.Nat
import UtilityFramework.Lib.SharableLock
import UtilityFramework.Lib.Transition

/-!
# Readers and writers of a pool of shared buffers

A `shm_sharable_bufferpool` is a segment of shared memory with a number of buffers and a
reader/writer mutex for each. Any number of processes map the segment, each through a pool
object of its own, and query handles (`shm_sharable_buffer`) of the buffers. A handle notes in
`m_access_mode` how it holds the mutex of its buffer, and whether it may lock or unlock is
decided by this note: the mutex itself knows only its holders' number.

Every operation is one step. What the environment decides is an argument: which attempts at a
mutex fail although it is free (`contended`), whether a handle is created (`created`), and
what becomes of the notification in `publish`. A handle that is not created after its mutex
has been locked leaves the mutex locked for good, so the results are about runs in which
handles are created.

`Inv` says that every mutex is held by the handles whose notes say so (`HeldBy`).
-/

namespace UtilityFramework

open Transition

/-- `access_mode`. -/
inductive AccessMode
  | none
  | reader
  | writer
  deriving DecidableEq

/-- `error_codes`, those that `publish` returns. -/
inductive ShmError
  | noError
  | timeout
  | poolDoesNotExist
  | lockSharedFailed
  | permissionDenied
  | dataCorruption
  deriving DecidableEq

/-- `MAX_RERTIES_TO_ACQUIRE_SHARED_LOCK`. -/
def maxRetriesToAcquireSharedLock : ℕ := 20

/-- `ITERATIONS`: `TIMEOUT_BEFORE_REMAPPING / MAX_BLOCKING_TIME_MS`. -/
def iterations : ℕ := 2000 / 100

/-- `UNDEFINED_INDEX`. -/
def undefinedIndex : UInt32 := UInt32.ofNat (2 ^ 32 - 1)

/-- What `timed_lock` of the mutex of the wait handler does. -/
inductive TimedLock
  | locked
  | timedOut
  | threw
  deriving DecidableEq

/-- `shm_bufferpool_wait_handler`. -/
structure WaitHandler where
  sequenceId : UInt32
  index : UInt32

/-- `set`: `notified i` says that the `i`-th call of `notify_all` does not throw. -/
def WaitHandler.set (w : WaitHandler) (index : UInt32) (lock : TimedLock)
    (notified : ℕ → Bool) : ShmError × WaitHandler :=
  match lock with
  | .timedOut => (.timeout, w)
  | .threw => (.dataCorruption, w)
  | .locked =>
    (if (List.range iterations).any notified then .noError else .dataCorruption,
      { sequenceId := (w.sequenceId + 1) % UInt32.ofNat (2 ^ 32 - 1), index := index })

/-- The segment that the processes share. -/
structure SharedSegment where
  poolSize : UInt32
  bufferSize : UInt32
  waitHandler : WaitHandler
  mutex : UInt32 → SharableMutex

/-- `shm_sharable_bufferpool`: the object through which one process uses the segment. -/
structure BufferPool where
  isMapped : Bool
  poolSize : UInt32
  bufferSize : UInt32
  nextUniqueQuery : UInt32

/-- `get_buffer_mutex`: a mutex is named by its index. -/
def BufferPool.getBufferMutex (pool : BufferPool) (index : UInt32) : Option UInt32 :=
  if pool.poolSize ≤ index then none else some index

/-- `shm_sharable_buffer`; `source` is the number of the pool object it was queried from. -/
structure SharableBuffer where
  source : ℕ
  index : UInt32
  mode : AccessMode

/-- The segment, the pool objects in all processes and the handles queried so far. A handle
that has been destroyed leaves its place empty. -/
structure ShmState where
  segment : SharedSegment
  pools : List BufferPool
  handles : List (Option SharableBuffer)

namespace ShmState

/-- The constructor for writers, with `construct`. -/
def construct (poolSize bufferSize : UInt32) (lock : TimedLock) (notified : ℕ → Bool) :
    ShmState where
  segment := {
    poolSize := poolSize
    bufferSize := bufferSize
    waitHandler := (WaitHandler.set ⟨0, undefinedIndex⟩ undefinedIndex lock notified).2
    mutex := fun _ => .free }
  pools := [{
    isMapped := true
    poolSize := poolSize
    bufferSize := bufferSize
    nextUniqueQuery := 0 }]
  handles := []

variable (s : ShmState)

/-- The constructor for readers, which does not initialise `m_next_unique_query`. -/
def openPool (mapped : Bool) (garbage : UInt32) : ShmState :=
  { s with pools := s.pools ++ [{
      isMapped := mapped
      poolSize := if mapped then s.segment.poolSize else 0
      bufferSize := if mapped then s.segment.bufferSize else 0
      nextUniqueQuery := garbage }] }

/-- The live handle number `k`. -/
def handle (k : ℕ) : Option SharableBuffer := s.handles[k]?.join

def setMutex (i : UInt32) (m : SharableMutex) : ShmState :=
  { s with segment := { s.segment with mutex := Function.update s.segment.mutex i m } }

def setMode (k : ℕ) (h : SharableBuffer) (mode : AccessMode) : ShmState :=
  { s with handles := s.handles.set k (some { h with mode := mode }) }

/-! ### `shm_shared_buffer_mutex` -/

def lockWrite (i : UInt32) (contended : Bool) : Option ShmState :=
  ((s.segment.mutex i).tryLock contended).map (s.setMutex i)

def unlockWrite (i : UInt32) : ShmState := s.setMutex i (s.segment.mutex i).unlock

def lockRead (i : UInt32) (contended : ℕ → Bool) : Option ShmState :=
  ((List.range maxRetriesToAcquireSharedLock).findSome? fun k =>
    (s.segment.mutex i).tryLockSharable (contended k)).map (s.setMutex i)

def unlockRead (i : UInt32) : ShmState := s.setMutex i (s.segment.mutex i).unlockSharable

/-! ### Queries of a pool object -/

/-- `query_sharable_buffer`. -/
def querySharableBuffer (source : ℕ) (pool : BufferPool) (index : UInt32) (mode : AccessMode)
    (created : Bool) : Option ShmState :=
  if pool.poolSize ≤ index then none
  else if created then
    some { s with handles := s.handles ++ [some ⟨source, index, mode⟩] }
  else none

def queryBufferUnlocked (source : ℕ) (pool : BufferPool) (index : UInt32) (created : Bool) :
    Bool × ShmState :=
  if pool.isMapped then
    match pool.getBufferMutex index with
    | none => (false, s)
    | some _ =>
      match s.querySharableBuffer source pool index .none created with
      | none => (false, s)
      | some t => (true, t)
  else (false, s)

def queryBufferShared (source : ℕ) (pool : BufferPool) (index : UInt32)
    (contended : ℕ → Bool) (created : Bool) : Bool × ShmState :=
  if pool.isMapped then
    match pool.getBufferMutex index with
    | none => (false, s)
    | some i =>
      match s.lockRead i contended with
      | none => (false, s)
      | some t =>
        match t.querySharableBuffer source pool index .reader created with
        | none => (false, t)
        | some u => (true, u)
  else (false, s)

/-- The loop of `query_buffer_unique` over the values of `i` still to come. -/
def queryUniqueLoop (source : ℕ) (pool : BufferPool) (contended created : ℕ → Bool) :
    List ℕ → ShmState → Bool × ShmState
  | [], s => (false, s)
  | i :: is, s =>
    let index := (pool.nextUniqueQuery + UInt32.ofNat i) % pool.poolSize
    match pool.getBufferMutex index with
    | none => queryUniqueLoop source pool contended created is s
    | some j =>
      match s.lockWrite j (contended i) with
      | none => queryUniqueLoop source pool contended created is s
      | some t =>
        match t.querySharableBuffer source pool index .writer (created i) with
        | none => queryUniqueLoop source pool contended created is t
        | some u =>
          (true, { u with pools := u.pools.set source { pool with
            nextUniqueQuery := (index + 1) % pool.poolSize } })

def queryBufferUnique (source : ℕ) (pool : BufferPool) (contended created : ℕ → Bool) :
    Bool × ShmState :=
  if pool.isMapped then
    queryUniqueLoop source pool contended created (List.range pool.poolSize.toNat) s
  else (false, s)

/-! ### Operations of a handle -/

/-- The mutex of the buffer of a handle: `query_source_buffer`, then `get_buffer_mutex`. -/
def sharedMutex (h : SharableBuffer) : Option UInt32 :=
  s.pools[h.source]?.bind fun pool => pool.getBufferMutex h.index

/-- `unlock_unsafe`. -/
def unlock (k : ℕ) (h : SharableBuffer) : Bool × ShmState :=
  match h.mode with
  | .none => (true, s)
  | .writer =>
    match s.sharedMutex h with
    | none => (false, s)
    | some i => (true, (s.unlockWrite i).setMode k h .none)
  | .reader =>
    match s.sharedMutex h with
    | none => (false, s)
    | some i => (true, (s.unlockRead i).setMode k h .none)

/-- `lock_unique_unsafe`. A handle that is a writer already fails, the mutex not being
recursive. -/
def lockUnique (k : ℕ) (h : SharableBuffer) (contended : Bool) : Bool × ShmState :=
  match s.sharedMutex h with
  | none => (false, s)
  | some i =>
    if h.mode = .reader then (false, s)
    else
      match s.lockWrite i contended with
      | none => (false, s)
      | some t => (true, t.setMode k h .writer)

/-- `unlock_unique_unsafe`. -/
def unlockUnique (k : ℕ) (h : SharableBuffer) : Bool × ShmState :=
  match s.sharedMutex h with
  | none => (false, s)
  | some i =>
    if h.mode ≠ .writer then (false, s)
    else (true, (s.unlockWrite i).setMode k h .none)

/-- `lock_shared_unsafe`. -/
def lockShared (k : ℕ) (h : SharableBuffer) (contended : ℕ → Bool) : Bool × ShmState :=
  match s.sharedMutex h with
  | none => (false, s)
  | some i =>
    match h.mode with
    | .reader => (true, s)
    | .writer => (false, s)
    | .none =>
      match s.lockRead i contended with
      | none => (false, s)
      | some t => (true, t.setMode k h .reader)

/-- `unlock_shared_unsafe`. -/
def unlockShared (k : ℕ) (h : SharableBuffer) : Bool × ShmState :=
  match s.sharedMutex h with
  | none => (false, s)
  | some i =>
    if h.mode ≠ .reader then (false, s)
    else (true, (s.unlockRead i).setMode k h .none)

/-- `publish_unsafe`: the handle is unlocked before the notification, which may fail. -/
def publish (k : ℕ) (h : SharableBuffer) (lock : TimedLock) (notified : ℕ → Bool) :
    ShmError × ShmState :=
  if h.mode ≠ .writer then (.permissionDenied, s)
  else
    match s.pools[h.source]? with
    | none => (.poolDoesNotExist, s)
    | some _ =>
      match s.unlock k h with
      | (false, t) => (.lockSharedFailed, t)
      | (true, t) =>
        let (error, waitHandler) := t.segment.waitHandler.set h.index lock notified
        (error, { t with segment := { t.segment with waitHandler := waitHandler } })

/-- `~shm_sharable_buffer`. -/
def destroy (k : ℕ) (h : SharableBuffer) : ShmState :=
  let t := (s.unlock k h).2
  { t with handles := t.handles.set k none }

end ShmState

/-- The operations, on the pool object or the live handle of the given number. -/
inductive ShmOp
  | openPool (mapped : Bool) (garbage : UInt32)
  | queryBufferUnlocked (pool : ℕ) (index : UInt32) (created : Bool)
  | queryBufferShared (pool : ℕ) (index : UInt32) (contended : ℕ → Bool) (created : Bool)
  | queryBufferUnique (pool : ℕ) (contended created : ℕ → Bool)
  | unlock (handle : ℕ)
  | lockUnique (handle : ℕ) (contended : Bool)
  | unlockUnique (handle : ℕ)
  | lockShared (handle : ℕ) (contended : ℕ → Bool)
  | unlockShared (handle : ℕ)
  | publish (handle : ℕ) (lock : TimedLock) (notified : ℕ → Bool)
  | destroy (handle : ℕ)

/-- The handles that the operation asks for are created. -/
def ShmOp.Creates : ShmOp → Prop
  | .queryBufferUnlocked _ _ created | .queryBufferShared _ _ _ created => created = true
  | .queryBufferUnique _ _ created => ∀ i, created i = true
  | _ => True

namespace ShmState

/-- One operation. `none` says that there is no such pool object or live handle. -/
def step (s : ShmState) : ShmOp → Option ShmState
  | .openPool mapped garbage => some (s.openPool mapped garbage)
  | .queryBufferUnlocked p index created =>
    s.pools[p]?.map fun pool => (s.queryBufferUnlocked p pool index created).2
  | .queryBufferShared p index contended created =>
    s.pools[p]?.map fun pool => (s.queryBufferShared p pool index contended created).2
  | .queryBufferUnique p contended created =>
    s.pools[p]?.map fun pool => (s.queryBufferUnique p pool contended created).2
  | .unlock k => (s.handle k).map fun h => (s.unlock k h).2
  | .lockUnique k contended => (s.handle k).map fun h => (s.lockUnique k h contended).2
  | .unlockUnique k => (s.handle k).map fun h => (s.unlockUnique k h).2
  | .lockShared k contended => (s.handle k).map fun h => (s.lockShared k h contended).2
  | .unlockShared k => (s.handle k).map fun h => (s.unlockShared k h).2
  | .publish k lock notified => (s.handle k).map fun h => (s.publish k h lock notified).2
  | .destroy k => (s.handle k).map fun h => s.destroy k h

/-! ### The mutexes and the notes of the handles -/

/-- How many live handles of buffer `i` note `mode`. -/
def holders (s : ShmState) (i : UInt32) (mode : AccessMode) : ℕ :=
  s.handles.countP fun o => o.any fun h => h.index = i ∧ h.mode = mode

structure Inv (s : ShmState) : Prop where
  held : ∀ i, (s.segment.mutex i).HeldBy (s.holders i .writer) (s.holders i .reader)
  valid : ∀ k h, s.handle k = some h →
    ∃ pool, s.pools[h.source]? = some pool ∧ h.index < pool.poolSize

variable {s t : ShmState} {k : ℕ} {h : SharableBuffer} {i : UInt32} {pool : BufferPool}
  {source : ℕ} {mode : AccessMode} {m : SharableMutex}

theorem handle_eq_some : s.handle k = some h ↔ s.handles[k]? = some (some h) :=
  Option.join_eq_some_iff

@[simp] theorem setMutex_self (s : ShmState) (i : UInt32) :
    s.setMutex i (s.segment.mutex i) = s := by
  rw [setMutex, Function.update_eq_self]

@[simp] theorem mutex_setMutex_self (s : ShmState) (i : UInt32) (m : SharableMutex) :
    (s.setMutex i m).segment.mutex i = m := by
  simp [setMutex]

theorem mutex_setMutex_of_ne (s : ShmState) {i j : UInt32} (hij : i ≠ j) (m : SharableMutex) :
    (s.setMutex i m).segment.mutex j = s.segment.mutex j := by
  simp [setMutex, Function.update_of_ne hij.symm]

theorem holders_pos_iff :
    0 < s.holders i mode ↔ ∃ k h, s.handle k = some h ∧ h.index = i ∧ h.mode = mode := by
  rw [holders, List.countP_pos_iff]
  constructor
  · rintro ⟨o, ho, hany⟩
    obtain ⟨k, hk⟩ := List.mem_iff_getElem?.mp ho
    cases o with
    | none => cases hany
    | some h => exact ⟨k, h, handle_eq_some.mpr hk, of_decide_eq_true hany⟩
  · rintro ⟨k, h, hk, hh⟩
    exact ⟨some h, List.mem_of_getElem? (handle_eq_some.mp hk), decide_eq_true hh⟩

theorem holders_setMutex (j : UInt32) : (s.setMutex i m).holders j mode = s.holders j mode := rfl

theorem holders_setMode (hk : s.handle k = some h) (new mode : AccessMode) (j : UInt32) :
    (s.setMode k h new).holders j mode + (decide (h.index = j ∧ h.mode = mode)).toNat =
      s.holders j mode + (decide (h.index = j ∧ new = mode)).toNat :=
  countP_set_add (handle_eq_some.mp hk)

theorem Inv.sharedMutex_eq (hs : s.Inv) (hk : s.handle k = some h) :
    s.sharedMutex h = some h.index := by
  obtain ⟨pool, hpool, hlt⟩ := hs.valid k h hk
  rw [sharedMutex, hpool, Option.bind_some, BufferPool.getBufferMutex, if_neg (by simpa)]

/-- The live handles after a change of mode. -/
theorem handle_setMode {k' : ℕ} {h' : SharableBuffer} (hk : s.handle k = some h)
    {new : AccessMode} (hk' : (s.setMode k h new).handle k' = some h') :
    ∃ h₀, s.handle k' = some h₀ ∧ h'.source = h₀.source ∧ h'.index = h₀.index := by
  rw [handle_eq_some, setMode, List.getElem?_set] at hk'
  by_cases hkk : k = k'
  · rw [if_pos hkk] at hk'
    split_ifs at hk'
    simp only [Option.some.injEq] at hk'
    subst hk' hkk
    exact ⟨h, hk, rfl, rfl⟩
  · rw [if_neg hkk] at hk'
    exact ⟨h', handle_eq_some.mpr hk', rfl, rfl⟩

/-- A handle and the mutex of its buffer change together. -/
theorem Inv.setMode (hs : s.Inv) (hk : s.handle k = some h) {new : AccessMode} {w r : ℕ}
    (hw : w + (decide (h.mode = .writer)).toNat =
      s.holders h.index .writer + (decide (new = .writer)).toNat)
    (hr : r + (decide (h.mode = .reader)).toNat =
      s.holders h.index .reader + (decide (new = .reader)).toNat)
    (hm : m.HeldBy w r) : ((s.setMutex h.index m).setMode k h new).Inv := by
  constructor
  · intro j
    have hk' : (s.setMutex h.index m).handle k = some h := hk
    have hwriter := holders_setMode hk' new .writer j
    have hreader := holders_setMode hk' new .reader j
    rw [holders_setMutex] at hwriter hreader
    by_cases hj : h.index = j
    · subst hj
      simp only [true_and] at hwriter hreader
      rw [Nat.add_right_cancel (hwriter.trans hw.symm),
        Nat.add_right_cancel (hreader.trans hr.symm)]
      exact (mutex_setMutex_self s h.index m).symm ▸ hm
    · simp only [hj, false_and, decide_false, Bool.toNat_false, Nat.add_zero] at hwriter hreader
      rw [hwriter, hreader]
      exact (mutex_setMutex_of_ne s hj m).symm ▸ hs.held j
  · intro k' h' hk'
    obtain ⟨h₀, hk₀, hsource, hindex⟩ := handle_setMode (s := s.setMutex h.index m) hk hk'
    rw [hsource, hindex]
    exact hs.valid k' h₀ hk₀

/-- A handle is created together with the locking of the mutex of its buffer. -/
theorem Inv.create (hs : s.Inv) (hpool : s.pools[source]? = some pool)
    (hi : i < pool.poolSize) (mode : AccessMode)
    (hm : m.HeldBy (s.holders i .writer + (decide (mode = .writer)).toNat)
      (s.holders i .reader + (decide (mode = .reader)).toNat)) :
    ({ s.setMutex i m with
      handles := s.handles ++ [some ⟨source, i, mode⟩] } : ShmState).Inv := by
  constructor
  · intro j
    have hcount : ∀ md, ({ s.setMutex i m with
        handles := s.handles ++ [some ⟨source, i, mode⟩] } : ShmState).holders j md =
        s.holders j md + (decide (i = j ∧ mode = md)).toNat := by
      intro md
      rw [holders, List.countP_append, List.countP_singleton, holders, Option.any_some]
      by_cases hmd : i = j ∧ mode = md
      · rw [decide_eq_true hmd]
        rfl
      · rw [decide_eq_false hmd]
        rfl
    rw [hcount, hcount]
    by_cases hj : i = j
    · subst hj
      simp only [true_and]
      exact (mutex_setMutex_self s i m).symm ▸ hm
    · simp only [hj, false_and, decide_false, Bool.toNat_false, Nat.add_zero]
      exact (mutex_setMutex_of_ne s hj m).symm ▸ hs.held j
  · intro k' h' hk'
    rw [handle_eq_some, List.getElem?_append] at hk'
    split_ifs at hk' with hlt
    · exact hs.valid k' h' (handle_eq_some.mpr hk')
    · obtain rfl : h' = ⟨source, i, mode⟩ := by
        have := List.mem_of_getElem? hk'
        simpa using this
      exact ⟨pool, hpool, hi⟩

/-- A handle that holds nothing is destroyed. -/
theorem Inv.remove (hs : s.Inv) (hk : s.handle k = some h) (hmode : h.mode = .none) :
    ({ s with handles := s.handles.set k none } : ShmState).Inv := by
  constructor
  · intro j
    have hcount : ∀ md, md ≠ .none →
        ({ s with handles := s.handles.set k none } : ShmState).holders j md =
          s.holders j md := by
      intro md hmd
      have hnot : ¬(h.index = j ∧ h.mode = md) := fun hc => hmd (hc.2.symm.trans hmode)
      have hset := countP_set_add (p := fun o : Option SharableBuffer =>
        o.any fun h => decide (h.index = j ∧ h.mode = md)) (b := none) (handle_eq_some.mp hk)
      rw [Option.any_some, Option.any_none, decide_eq_false hnot] at hset
      exact hset
    rw [hcount .writer (by decide), hcount .reader (by decide)]
    exact hs.held j
  · intro k' h' hk'
    refine hs.valid k' h' ?_
    rw [handle_eq_some, List.getElem?_set] at hk'
    split_ifs at hk' with hkk hlt
    · exact absurd (Option.some.inj hk') (by simp)
    · exact handle_eq_some.mpr hk'

/-- Pool objects change or are added, but none changes its size. -/
theorem Inv.pools (hs : s.Inv) {pools : List BufferPool}
    (hpools : ∀ (p : ℕ) (pool : BufferPool), s.pools[p]? = some pool →
      ∃ pool', pools[p]? = some pool' ∧ pool'.poolSize = pool.poolSize) :
    ({ s with pools := pools } : ShmState).Inv := by
  refine ⟨hs.held, fun k h hk => ?_⟩
  obtain ⟨pool, hpool, hlt⟩ := hs.valid k h hk
  obtain ⟨pool', hpool', hsize⟩ := hpools h.source pool hpool
  exact ⟨pool', hpool', hsize ▸ hlt⟩

theorem inv_construct (poolSize bufferSize : UInt32) (lock : TimedLock)
    (notified : ℕ → Bool) : (construct poolSize bufferSize lock notified).Inv where
  held _ := SharableMutex.heldBy_free
  valid _ _ hk := by cases hk

/-! ### What the operations keep -/

theorem lockWrite_eq_some {contended : Bool} (ht : s.lockWrite i contended = some t) :
    ∃ m', (s.segment.mutex i).tryLock contended = some m' ∧ t = s.setMutex i m' := by
  obtain ⟨m', hm', rfl⟩ := Option.map_eq_some_iff.mp ht
  exact ⟨m', hm', rfl⟩

theorem lockRead_eq_some {contended : ℕ → Bool} (ht : s.lockRead i contended = some t) :
    ∃ c m', (s.segment.mutex i).tryLockSharable c = some m' ∧ t = s.setMutex i m' := by
  obtain ⟨m', hm', rfl⟩ := Option.map_eq_some_iff.mp ht
  obtain ⟨retry, -, hretry⟩ := List.exists_of_findSome?_eq_some hm'
  exact ⟨contended retry, m', hretry, rfl⟩

/-- A handle gives the mutex back as it notes to hold it. -/
theorem Inv.unlockWrite (hs : s.Inv) (hk : s.handle k = some h) (hmode : h.mode = .writer) :
    ((s.unlockWrite h.index).setMode k h .none).Inv := by
  have hheld := hs.held h.index
  have hpos : 0 < s.holders h.index .writer :=
    holders_pos_iff.mpr ⟨k, h, hk, rfl, hmode⟩
  obtain ⟨w, hw⟩ := Nat.exists_eq_succ_of_ne_zero (Nat.ne_of_gt hpos)
  rw [hw] at hheld
  exact hs.setMode hk (by rw [hmode, hw]; rfl) (by rw [hmode]; rfl) hheld.unlock

theorem Inv.unlockRead (hs : s.Inv) (hk : s.handle k = some h) (hmode : h.mode = .reader) :
    ((s.unlockRead h.index).setMode k h .none).Inv := by
  have hheld := hs.held h.index
  have hpos : 0 < s.holders h.index .reader :=
    holders_pos_iff.mpr ⟨k, h, hk, rfl, hmode⟩
  obtain ⟨r, hr⟩ := Nat.exists_eq_succ_of_ne_zero (Nat.ne_of_gt hpos)
  rw [hr] at hheld
  exact hs.setMode hk (by rw [hmode]; rfl) (by rw [hmode, hr]; rfl) hheld.unlockSharable

/-- The mutex of a buffer that has a writer cannot be taken again, not even by this writer. -/
theorem Inv.not_writer_of_lockWrite (hs : s.Inv) (hk : s.handle k = some h)
    {contended : Bool} (ht : s.lockWrite h.index contended = some t) : h.mode ≠ .writer := by
  intro hmode
  obtain ⟨m', hm', -⟩ := lockWrite_eq_some ht
  have hpos : 0 < s.holders h.index .writer :=
    holders_pos_iff.mpr ⟨k, h, hk, rfl, hmode⟩
  have hexclusive := (hs.held h.index).exclusive_iff_pos.mpr hpos
  simp [SharableMutex.tryLock, hexclusive] at hm'

theorem Inv.unlock (hs : s.Inv) (hk : s.handle k = some h) : (s.unlock k h).2.Inv := by
  rw [ShmState.unlock, hs.sharedMutex_eq hk]
  cases hmode : h.mode with
  | none => exact hs
  | writer => exact hs.unlockWrite hk hmode
  | reader => exact hs.unlockRead hk hmode

theorem Inv.lockUnique (hs : s.Inv) (hk : s.handle k = some h) (contended : Bool) :
    (s.lockUnique k h contended).2.Inv := by
  rw [ShmState.lockUnique, hs.sharedMutex_eq hk]
  dsimp only
  split_ifs with hreader
  · exact hs
  · cases ht : s.lockWrite h.index contended with
    | none => exact hs
    | some t =>
      have hwriter := hs.not_writer_of_lockWrite hk ht
      obtain ⟨m', hm', rfl⟩ := lockWrite_eq_some ht
      refine hs.setMode hk ?_ ?_ ((hs.held h.index).tryLock hm')
      · rw [decide_eq_false hwriter]
        rfl
      · rw [decide_eq_false hreader]
        rfl

theorem Inv.unlockUnique (hs : s.Inv) (hk : s.handle k = some h) :
    (s.unlockUnique k h).2.Inv := by
  rw [ShmState.unlockUnique, hs.sharedMutex_eq hk]
  dsimp only
  split_ifs with hmode
  · exact hs
  · exact hs.unlockWrite hk (not_not.mp hmode)

theorem Inv.lockShared (hs : s.Inv) (hk : s.handle k = some h) (contended : ℕ → Bool) :
    (s.lockShared k h contended).2.Inv := by
  rw [ShmState.lockShared, hs.sharedMutex_eq hk]
  cases hmode : h.mode with
  | reader => exact hs
  | writer => exact hs
  | none =>
    dsimp only
    cases ht : s.lockRead h.index contended with
    | none => exact hs
    | some t =>
      obtain ⟨c, m', hm', rfl⟩ := lockRead_eq_some ht
      refine hs.setMode hk ?_ ?_ ((hs.held h.index).tryLockSharable hm')
      · rw [hmode]
        rfl
      · rw [hmode]
        rfl

theorem Inv.unlockShared (hs : s.Inv) (hk : s.handle k = some h) :
    (s.unlockShared k h).2.Inv := by
  rw [ShmState.unlockShared, hs.sharedMutex_eq hk]
  dsimp only
  split_ifs with hmode
  · exact hs
  · exact hs.unlockRead hk (not_not.mp hmode)

theorem Inv.publish (hs : s.Inv) (hk : s.handle k = some h) (lock : TimedLock)
    (notified : ℕ → Bool) : (s.publish k h lock notified).2.Inv := by
  obtain ⟨pool, hpool, -⟩ := hs.valid k h hk
  rw [ShmState.publish, hpool]
  split_ifs with hmode
  · exact hs
  · have hunlock := hs.unlock hk
    dsimp only
    split
    · next t ht => exact (congrArg Prod.snd ht) ▸ hunlock
    · next t ht =>
      rw [ht] at hunlock
      exact ⟨hunlock.held, hunlock.valid⟩

/-- The handle that is destroyed has given the mutex back. -/
theorem Inv.destroy (hs : s.Inv) (hk : s.handle k = some h) : (s.destroy k h).Inv := by
  have hunlock := hs.unlock hk
  have hnote : ∃ h', (s.unlock k h).2.handle k = some h' ∧ h'.mode = .none := by
    have hlt : k < s.handles.length := (List.getElem?_eq_some_iff.mp (handle_eq_some.mp hk)).1
    rw [ShmState.unlock, hs.sharedMutex_eq hk]
    cases hmode : h.mode with
    | none => exact ⟨h, hk, hmode⟩
    | writer => exact ⟨_, handle_eq_some.mpr (List.getElem?_set_self hlt), rfl⟩
    | reader => exact ⟨_, handle_eq_some.mpr (List.getElem?_set_self hlt), rfl⟩
  obtain ⟨h', hk', hmode'⟩ := hnote
  exact hunlock.remove hk' hmode'

theorem getBufferMutex_eq_some {j : UInt32} (h : pool.getBufferMutex i = some j) :
    j = i ∧ i < pool.poolSize := by
  rw [BufferPool.getBufferMutex, Option.ite_none_left_eq_some] at h
  exact ⟨(Option.some.inj h.2).symm, by simpa using h.1⟩

/-- The result of `query_sharable_buffer` with a handle created. -/
theorem querySharableBuffer_created (hi : i < pool.poolSize) :
    s.querySharableBuffer source pool i mode true =
      some { s with handles := s.handles ++ [some ⟨source, i, mode⟩] } := by
  rw [querySharableBuffer, if_neg (by simpa), if_pos rfl]

theorem Inv.queryBufferUnlocked (hs : s.Inv) (hpool : s.pools[source]? = some pool) :
    (s.queryBufferUnlocked source pool i true).2.Inv := by
  rw [ShmState.queryBufferUnlocked]
  split_ifs
  · cases hj : pool.getBufferMutex i with
    | none => exact hs
    | some j =>
      obtain ⟨rfl, hlt⟩ := getBufferMutex_eq_some hj
      rw [querySharableBuffer_created hlt]
      have hcreate := hs.create hpool hlt .none (hs.held j)
      rwa [setMutex_self] at hcreate
  · exact hs

theorem Inv.queryBufferShared (hs : s.Inv) (hpool : s.pools[source]? = some pool)
    (contended : ℕ → Bool) : (s.queryBufferShared source pool i contended true).2.Inv := by
  rw [ShmState.queryBufferShared]
  split_ifs
  · cases hj : pool.getBufferMutex i with
    | none => exact hs
    | some j =>
      obtain ⟨rfl, hlt⟩ := getBufferMutex_eq_some hj
      dsimp only
      cases ht : s.lockRead j contended with
      | none => exact hs
      | some t =>
        obtain ⟨c, m', hm', rfl⟩ := lockRead_eq_some ht
        dsimp only
        rw [querySharableBuffer_created hlt]
        exact hs.create hpool hlt .reader ((hs.held j).tryLockSharable hm')
  · exact hs

/-- The induction is on the values of `i` still to come: until a buffer is found, nothing
has changed. -/
theorem Inv.queryUniqueLoop (hs : s.Inv) (hpool : s.pools[source]? = some pool)
    (contended : ℕ → Bool) {created : ℕ → Bool} (hcreated : ∀ i, created i = true)
    (is : List ℕ) : (ShmState.queryUniqueLoop source pool contended created is s).2.Inv := by
  induction is with
  | nil => exact hs
  | cons i is ih =>
    rw [ShmState.queryUniqueLoop]
    generalize (pool.nextUniqueQuery + UInt32.ofNat i) % pool.poolSize = index
    cases hj : pool.getBufferMutex index with
    | none => exact ih
    | some j =>
      obtain ⟨rfl, hlt⟩ := getBufferMutex_eq_some hj
      dsimp only
      cases ht : s.lockWrite j (contended i) with
      | none => exact ih
      | some t =>
        obtain ⟨m', hm', rfl⟩ := lockWrite_eq_some ht
        dsimp only
        rw [hcreated, querySharableBuffer_created hlt]
        refine (hs.create hpool hlt .writer ((hs.held j).tryLock hm')).pools fun p q hq => ?_
        have hq' : s.pools[p]? = some q := hq
        by_cases hp : source = p
        · subst hp
          obtain rfl : pool = q := Option.some.inj (hpool.symm.trans hq')
          have hlen := (List.getElem?_eq_some_iff.mp hpool).1
          exact ⟨_, List.getElem?_set_self hlen, rfl⟩
        · exact ⟨q, (List.getElem?_set_ne hp).trans hq', rfl⟩

theorem Inv.queryBufferUnique (hs : s.Inv) (hpool : s.pools[source]? = some pool)
    (contended : ℕ → Bool) {created : ℕ → Bool} (hcreated : ∀ i, created i = true) :
    (s.queryBufferUnique source pool contended created).2.Inv := by
  rw [ShmState.queryBufferUnique]
  split_ifs
  · exact hs.queryUniqueLoop hpool contended hcreated _
  · exact hs

theorem Inv.openPool (hs : s.Inv) (mapped : Bool) (garbage : UInt32) :
    (s.openPool mapped garbage).Inv := by
  refine hs.pools fun p pool hp => ⟨pool, ?_, rfl⟩
  rw [List.getElem?_append_left (List.getElem?_eq_some_iff.mp hp).1]
  exact hp

/-- Every operation that creates the handles it asks for keeps the invariant. -/
theorem Inv.step (hs : s.Inv) {a : ShmOp} (ha : a.Creates) (ht : s.step a = some t) :
    t.Inv := by
  cases a with
  | openPool mapped garbage =>
    obtain rfl := Option.some.inj ht
    exact hs.openPool mapped garbage
  | queryBufferUnlocked p index created =>
    obtain ⟨pool, hp, rfl⟩ := Option.map_eq_some_iff.mp ht
    obtain rfl : created = true := ha
    exact hs.queryBufferUnlocked hp
  | queryBufferShared p index contended created =>
    obtain ⟨pool, hp, rfl⟩ := Option.map_eq_some_iff.mp ht
    obtain rfl : created = true := ha
    exact hs.queryBufferShared hp contended
  | queryBufferUnique p contended created =>
    obtain ⟨pool, hp, rfl⟩ := Option.map_eq_some_iff.mp ht
    exact hs.queryBufferUnique hp contended ha
  | unlock k =>
    obtain ⟨h, hk, rfl⟩ := Option.map_eq_some_iff.mp ht
    exact hs.unlock hk
  | lockUnique k contended =>
    obtain ⟨h, hk, rfl⟩ := Option.map_eq_some_iff.mp ht
    exact hs.lockUnique hk contended
  | unlockUnique k =>
    obtain ⟨h, hk, rfl⟩ := Option.map_eq_some_iff.mp ht
    exact hs.unlockUnique hk
  | lockShared k contended =>
    obtain ⟨h, hk, rfl⟩ := Option.map_eq_some_iff.mp ht
    exact hs.lockShared hk contended
  | unlockShared k =>
    obtain ⟨h, hk, rfl⟩ := Option.map_eq_some_iff.mp ht
    exact hs.unlockShared hk
  | publish k lock notified =>
    obtain ⟨h, hk, rfl⟩ := Option.map_eq_some_iff.mp ht
    exact hs.publish hk lock notified
  | destroy k =>
    obtain ⟨h, hk, rfl⟩ := Option.map_eq_some_iff.mp ht
    exact hs.destroy hk

/-! ### Exclusion -/

/-- What the readers and writers of the buffers rely on. -/
structure Exclusion (s : ShmState) : Prop where
  alone : ∀ k k' h h', s.handle k = some h → s.handle k' = some h' → h.mode = .writer →
    h'.index = h.index → k' ≠ k → h'.mode = .none
  exclusive : ∀ i, (s.segment.mutex i).exclusive = true ↔
    ∃ k h, s.handle k = some h ∧ h.index = i ∧ h.mode = .writer
  sharable : ∀ i, (s.segment.mutex i).sharable =
    s.handles.countP fun o => o.any fun h => h.index = i ∧ h.mode = .reader

theorem Inv.exclusion (hs : s.Inv) : s.Exclusion where
  alone k k' h h' hk hk' hmode hindex hne := by
    have hheld := hs.held h.index
    have hpos : 0 < s.holders h.index .writer := holders_pos_iff.mpr ⟨k, h, hk, rfl, hmode⟩
    cases hmode' : h'.mode with
    | none => rfl
    | reader =>
      have : 0 < s.holders h.index .reader :=
        holders_pos_iff.mpr ⟨k', h', hk', hindex, hmode'⟩
      exact absurd (hheld.eq_zero_of_pos hpos) (Nat.ne_of_gt this)
    | writer =>
      refine absurd (eq_of_countP_le_one hheld.le_one (handle_eq_some.mp hk') ?_
        (handle_eq_some.mp hk) ?_) hne
      · exact decide_eq_true ⟨hindex, hmode'⟩
      · exact decide_eq_true ⟨rfl, hmode⟩
  exclusive i := (hs.held i).exclusive_iff_pos.trans holders_pos_iff
  sharable i := (hs.held i).sharable.symm

/-- **Readers and writers exclude each other.** In every state that the processes reach, a
buffer with a writer has no other holder, and its mutex is held exclusively precisely if there
is a writer and shared by exactly the readers. -/
theorem exclusion_always (poolSize bufferSize : UInt32) (lock : TimedLock)
    (notified : ℕ → Bool) (l : List ShmOp) (hl : ∀ a ∈ l, a.Creates) :
    Always step Exclusion (construct poolSize bufferSize lock notified) l := by
  have hg : Guarded step (fun _ a => a.Creates)
      (construct poolSize bufferSize lock notified) l :=
    Guarded.of_forall (fun a ha _ => hl a ha) _
  have hinv := hg.always (fun s a t hs ha ht => Inv.step hs ha ht)
    (inv_construct poolSize bufferSize lock notified)
  exact fun l' t hl' ht => (hinv l' t hl' ht).exclusion

/-- A process publishes while another, which has opened the pool too, tries to read. -/
theorem exclusion_always_publish :
    let l : List ShmOp := [.openPool true 7, .queryBufferUnique 0 (fun _ => false) fun _ => true,
      .queryBufferShared 1 0 (fun _ => false) true, .publish 0 .locked fun _ => true,
      .queryBufferShared 1 0 (fun _ => false) true, .lockUnique 0 false]
    ((run step (construct 2 16 .locked fun _ => true) l).map fun t => t.handles.map
        fun o => o.map SharableBuffer.mode) = some [some .none, some .reader] ∧
      Always step Exclusion (construct 2 16 .locked fun _ => true) l :=
  ⟨by decide +kernel,
    exclusion_always 2 16 .locked _ _ (by simp [ShmOp.Creates])⟩

end ShmState

end UtilityFramework
