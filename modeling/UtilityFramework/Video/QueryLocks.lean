import Mathlib.Data.Nat.Find
import UtilityFramework.Video.SharableBufferLayout

/-!
# The locks of failed queries

The queries of a `shm_sharable_bufferpool` lock the mutex of a buffer and then create the handle
that will give it back. The handle is a relative buffer, whose constructor throws if the buffer
does not lie in the mapped region (`BufferPool.creates`). An object whose constructor throws has
no destructor run, and `query_sharable_buffer` only reports the failure: the mutex stays locked.

A call that fails leaves the mutexes as they were precisely if no lock has been granted to it
whose handle could not be created (`leavesLocks_iff`). For `query_buffer_unique`, which tries
one buffer after another, this depends on what the whole loop does
(`queryUniqueLoop_fst_iff`, `exclusive_of_granted`). The queries of a pool with a right layout
create every handle unless the memory for it cannot be had (`LaidOut.creates`).
-/

namespace UtilityFramework

namespace BufferPool

variable (z : ShmSizes) (region : UInt64) (pool : BufferPool)

/-- Whether `make_ref_count_ptr<shm_sharable_buffer>` returns: `allocated` says that the memory
for the handle has been allocated, and `region` is the size of the mapped region. -/
def creates (index : UInt32) (allocated : Bool) : Bool :=
  allocated &&
    !relativeBufferThrows region (pool.getBufferOffset z index) pool.bufferSize.toUInt64

/-- The index of the buffer that `query_buffer_unique` tries for the value `i` of its loop. -/
def uniqueIndex (i : ℕ) : UInt32 := (pool.nextUniqueQuery + UInt32.ofNat i) % pool.poolSize

variable {z} {region} {pool}

/-- The handles of a pool with a right layout are created, if there is memory for them. -/
theorem LaidOut.creates {segment : ℕ} (h : pool.LaidOut z segment)
    (hregion : segment ≤ region.toNat) {i : UInt32} (hi : i < pool.poolSize) :
    pool.creates z region i true = true := by
  rw [BufferPool.creates, h.relativeBufferThrows_eq_false hregion hi]
  rfl

theorem uniqueIndex_lt (hpool : pool.poolSize ≠ 0) (i : ℕ) :
    pool.uniqueIndex i < pool.poolSize := by
  have hpos : 0 < pool.poolSize.toNat := by
    refine Nat.pos_of_ne_zero fun h => hpool (UInt32.toNat_inj.mp ?_)
    rw [h]
    rfl
  rw [UInt32.lt_iff_toNat_lt, uniqueIndex, UInt32.toNat_mod]
  exact Nat.mod_lt _ hpos

theorem getBufferMutex_of_lt {i : UInt32} (hi : i < pool.poolSize) :
    pool.getBufferMutex i = some i := by
  rw [getBufferMutex, if_neg (by simpa using hi)]

end BufferPool

/-- The queries, with the decisions of the environment: which attempts at a mutex fail although
it is free, and which handles there is memory for. -/
inductive ShmQuery
  | unlocked (index : UInt32) (allocated : Bool)
  | shared (index : UInt32) (contended : ℕ → Bool) (allocated : Bool)
  | unique (contended allocated : ℕ → Bool)

/-- There is memory for every handle that the query asks for. -/
def ShmQuery.Allocates : ShmQuery → Prop
  | .unlocked _ allocated | .shared _ _ allocated => allocated = true
  | .unique _ allocated => ∀ i, allocated i = true

namespace ShmState

/-- The handle for the value `i` of the loop of `query_buffer_unique` is created. -/
def createsUnique (z : ShmSizes) (region : UInt64) (pool : BufferPool) (allocated : ℕ → Bool)
    (i : ℕ) : Bool :=
  pool.creates z region (pool.uniqueIndex i) (allocated i)

/-- A query through the pool object number `source`. `buffer` says that the pointer for the
handle is not null. -/
def answer (z : ShmSizes) (region : UInt64) (s : ShmState) (source : ℕ) (pool : BufferPool)
    (buffer : Bool) (q : ShmQuery) : Bool × ShmState :=
  if buffer then
    match q with
    | .unlocked index allocated =>
      s.queryBufferUnlocked source pool index (pool.creates z region index allocated)
    | .shared index contended allocated =>
      s.queryBufferShared source pool index contended (pool.creates z region index allocated)
    | .unique contended allocated =>
      s.queryBufferUnique source pool contended (createsUnique z region pool allocated)
  else (false, s)

/-- A call that returns `false` leaves every mutex in the state it had before the call. -/
def LeavesLocks (s : ShmState) (r : Bool × ShmState) : Prop :=
  r.1 = false → ∀ i, r.2.segment.mutex i = s.segment.mutex i

/-- As things are before the call, the mutex for the value `i` of the loop can be locked. -/
def Grants (s : ShmState) (pool : BufferPool) (contended : ℕ → Bool) (i : ℕ) : Prop :=
  (s.lockWrite (pool.uniqueIndex i) (contended i)).isSome

instance (s : ShmState) (pool : BufferPool) (contended : ℕ → Bool) :
    DecidablePred (s.Grants pool contended) :=
  fun i => inferInstanceAs (Decidable ((s.lockWrite (pool.uniqueIndex i) (contended i)).isSome))

/-- No lock is granted for want of whose handle the query fails. -/
def Releases (z : ShmSizes) (region : UInt64) (s : ShmState) (pool : BufferPool) :
    ShmQuery → Prop
  | .unlocked _ _ => True
  | .shared index contended allocated =>
    pool.isMapped = true → index < pool.poolSize → (s.lockRead index contended).isSome →
      pool.creates z region index allocated = true
  | .unique contended allocated =>
    -- a buffer whose mutex the loop has locked before cannot be locked again
    pool.isMapped = true → (∃ i < pool.poolSize.toNat, s.Grants pool contended i) →
      ∃ i < pool.poolSize.toNat, s.Grants pool contended i ∧
        createsUnique z region pool allocated i = true ∧
        ∀ j < i, pool.uniqueIndex j = pool.uniqueIndex i → ¬s.Grants pool contended j

variable {s t : ShmState} {pool : BufferPool} {source : ℕ} {contended created : ℕ → Bool}
  {i j k n : ℕ}

/-! ### Locking -/

theorem lockWrite_eq_some_iff {b : UInt32} {c : Bool} :
    s.lockWrite b c = some t ↔
      (c = false ∧ s.segment.mutex b = .free) ∧ t = s.setMutex b ⟨true, 0⟩ := by
  rw [lockWrite, Option.map_eq_some_iff]
  constructor
  · rintro ⟨m, hm, rfl⟩
    obtain ⟨⟨hc, hfree⟩, rfl⟩ := SharableMutex.tryLock_eq_some_iff.mp hm
    exact ⟨⟨hc, hfree⟩, rfl⟩
  · rintro ⟨h, rfl⟩
    exact ⟨_, SharableMutex.tryLock_eq_some_iff.mpr ⟨h, rfl⟩, rfl⟩

theorem grants_iff :
    s.Grants pool contended i ↔
      contended i = false ∧ s.segment.mutex (pool.uniqueIndex i) = .free := by
  rw [Grants, Option.isSome_iff_exists]
  constructor
  · rintro ⟨t, ht⟩
    exact (lockWrite_eq_some_iff.mp ht).1
  · exact fun h => ⟨_, lockWrite_eq_some_iff.mpr ⟨h, rfl⟩⟩

/-- Locking a mutex takes the grants of this mutex away, and no other. -/
theorem grants_setMutex_iff :
    (s.setMutex (pool.uniqueIndex j) ⟨true, 0⟩).Grants pool contended i ↔
      pool.uniqueIndex j ≠ pool.uniqueIndex i ∧ s.Grants pool contended i := by
  rw [grants_iff, grants_iff]
  by_cases hij : pool.uniqueIndex j = pool.uniqueIndex i
  · rw [hij, mutex_setMutex_self]
    simp [SharableMutex.free]
  · rw [mutex_setMutex_of_ne s hij]
    simp [hij]

theorem lockRead_ne {b : UInt32} {c : ℕ → Bool} (ht : s.lockRead b c = some t) :
    t.segment.mutex b ≠ s.segment.mutex b := by
  obtain ⟨c', m', hm', rfl⟩ := lockRead_eq_some ht
  rw [mutex_setMutex_self]
  intro heq
  have hadd := SharableMutex.sharable_of_tryLockSharable hm'
  rw [heq] at hadd
  exact Nat.succ_ne_self _ hadd.symm

/-! ### The loop of `query_buffer_unique` -/

/-- One iteration: the attempt fails, or a handle ends the loop, or the lock stays. -/
theorem queryUniqueLoop_cons (hpool : pool.poolSize ≠ 0) (i : ℕ) (is : List ℕ) :
    queryUniqueLoop source pool contended created (i :: is) s =
      match s.lockWrite (pool.uniqueIndex i) (contended i) with
      | none => queryUniqueLoop source pool contended created is s
      | some t =>
        match created i with
        | true =>
          (true, { t with
            handles := t.handles ++ [some ⟨source, pool.uniqueIndex i, .writer⟩]
            pools := t.pools.set source { pool with
              nextUniqueQuery := (pool.uniqueIndex i + 1) % pool.poolSize } })
        | false => queryUniqueLoop source pool contended created is t := by
  have hlt := BufferPool.uniqueIndex_lt hpool i
  have hmutex := BufferPool.getBufferMutex_of_lt hlt
  have hnle : ¬pool.poolSize ≤ pool.uniqueIndex i := by simpa using hlt
  rw [BufferPool.uniqueIndex] at hmutex hnle
  rw [queryUniqueLoop]
  simp only [hmutex, BufferPool.uniqueIndex]
  cases s.lockWrite ((pool.nextUniqueQuery + UInt32.ofNat i) % pool.poolSize) (contended i) with
  | none => rfl
  | some t =>
    simp only [querySharableBuffer, if_neg hnle]
    cases created i <;> rfl

/-- A loop that is given no lock fails and changes nothing. -/
theorem queryUniqueLoop_of_not_grants (hpool : pool.poolSize ≠ 0) {is : List ℕ}
    (h : ∀ i ∈ is, ¬s.Grants pool contended i) :
    queryUniqueLoop source pool contended created is s = (false, s) := by
  induction is with
  | nil => rfl
  | cons i is ih =>
    have hnone : s.lockWrite (pool.uniqueIndex i) (contended i) = none := by
      simpa [Grants] using h i List.mem_cons_self
    rw [queryUniqueLoop_cons hpool, hnone]
    exact ih fun j hj => h j (List.mem_cons_of_mem i hj)

/-- **When a unique query succeeds.** A lock is granted and its handle is created, and no
earlier iteration has been granted the lock of this buffer. -/
theorem queryUniqueLoop_fst_iff (hpool : pool.poolSize ≠ 0) :
    (queryUniqueLoop source pool contended created (List.range' k n) s).1 = true ↔
      ∃ i, k ≤ i ∧ i < k + n ∧ s.Grants pool contended i ∧ created i = true ∧
        ∀ j, k ≤ j → j < i → pool.uniqueIndex j = pool.uniqueIndex i →
          ¬s.Grants pool contended j := by
  induction n generalizing k s with
  | zero =>
    refine iff_of_false Bool.false_ne_true ?_
    rintro ⟨i, hki, hik, -⟩
    omega
  | succ n ih =>
    rw [List.range'_succ, queryUniqueLoop_cons hpool]
    cases ht : s.lockWrite (pool.uniqueIndex k) (contended k) with
    | none =>
      have hk : ¬s.Grants pool contended k := by simp [Grants, ht]
      dsimp only
      rw [ih]
      constructor
      · rintro ⟨i, hki, hik, hi, hcreated, hfirst⟩
        refine ⟨i, by omega, by omega, hi, hcreated, fun j hkj hji heq => ?_⟩
        rcases Nat.eq_or_lt_of_le hkj with rfl | hlt
        · exact hk
        · exact hfirst j hlt hji heq
      · rintro ⟨i, hki, hik, hi, hcreated, hfirst⟩
        have hne : i ≠ k := fun h => hk (h ▸ hi)
        exact ⟨i, by omega, by omega, hi, hcreated,
          fun j hkj hji heq => hfirst j (by omega) hji heq⟩
    | some t =>
      have hk : s.Grants pool contended k := by simp [Grants, ht]
      obtain ⟨-, rfl⟩ := lockWrite_eq_some_iff.mp ht
      cases hcreated : created k with
      | true =>
        refine iff_of_true rfl ⟨k, le_rfl, by omega, hk, hcreated, fun j hkj hjk => ?_⟩
        omega
      | false =>
        -- the lock of this iteration stays, so what is granted later is another buffer's
        dsimp only
        rw [ih]
        simp only [grants_setMutex_iff]
        constructor
        · rintro ⟨i, hki, hik, ⟨hne, hi⟩, hcreated', hfirst⟩
          refine ⟨i, by omega, by omega, hi, hcreated', fun j hkj hji heq hj => ?_⟩
          rcases Nat.eq_or_lt_of_le hkj with rfl | hlt
          · exact hne heq
          · exact hfirst j hlt hji heq ⟨heq ▸ hne, hj⟩
        · rintro ⟨i, hki, hik, hi, hcreated', hfirst⟩
          have hki' : i ≠ k := by
            rintro rfl
            exact Bool.false_ne_true (hcreated.symm.trans hcreated')
          have hne : pool.uniqueIndex k ≠ pool.uniqueIndex i :=
            fun heq => hfirst k le_rfl (by omega) heq hk
          exact ⟨i, by omega, by omega, ⟨hne, hi⟩, hcreated',
            fun j hkj hji heq hj => hfirst j (by omega) hji heq hj.2⟩

/-- The loop unlocks nothing. -/
theorem exclusive_of_queryUniqueLoop (hpool : pool.poolSize ≠ 0) {is : List ℕ} {b : UInt32}
    (hb : s.segment.mutex b ≠ .free) :
    (queryUniqueLoop source pool contended created is s).2.segment.mutex b ≠ .free := by
  induction is generalizing s with
  | nil => exact hb
  | cons i is ih =>
    rw [queryUniqueLoop_cons hpool]
    cases ht : s.lockWrite (pool.uniqueIndex i) (contended i) with
    | none => exact ih hb
    | some t =>
      obtain ⟨⟨-, hfree⟩, rfl⟩ := lockWrite_eq_some_iff.mp ht
      have hne : pool.uniqueIndex i ≠ b := fun h => hb (h ▸ hfree)
      have hkept : (s.setMutex (pool.uniqueIndex i) ⟨true, 0⟩).segment.mutex b ≠ .free := by
        rwa [mutex_setMutex_of_ne s hne]
      cases created i with
      | true => exact hkept
      | false => exact ih hkept

/-- A loop that is given a lock ends with the mutex of a buffer locked that was free. -/
theorem exclusive_of_granted (hpool : pool.poolSize ≠ 0) {is : List ℕ} (hi : i ∈ is)
    (hgrant : s.Grants pool contended i) :
    ∃ b, s.segment.mutex b = .free ∧
      (queryUniqueLoop source pool contended created is s).2.segment.mutex b ≠ .free := by
  induction is with
  | nil => exact absurd hi List.not_mem_nil
  | cons k is ih =>
    rw [queryUniqueLoop_cons hpool]
    cases ht : s.lockWrite (pool.uniqueIndex k) (contended k) with
    | none =>
      have hne : i ≠ k := by
        rintro rfl
        simp [Grants, ht] at hgrant
      exact ih (List.mem_of_ne_of_mem hne hi)
    | some t =>
      obtain ⟨⟨-, hfree⟩, rfl⟩ := lockWrite_eq_some_iff.mp ht
      have hlocked : (s.setMutex (pool.uniqueIndex k) ⟨true, 0⟩).segment.mutex
          (pool.uniqueIndex k) ≠ .free := by
        rw [mutex_setMutex_self]
        decide
      refine ⟨pool.uniqueIndex k, hfree, ?_⟩
      cases created k with
      | true => exact hlocked
      | false => exact exclusive_of_queryUniqueLoop hpool hlocked

/-! ### The three queries -/

variable {z : ShmSizes} {region : UInt64}

theorem leavesLocks_unlocked (s : ShmState) (source : ℕ) (pool : BufferPool) (index : UInt32)
    (creates : Bool) : s.LeavesLocks (s.queryBufferUnlocked source pool index creates) := by
  rw [queryBufferUnlocked]
  split_ifs
  · cases pool.getBufferMutex index with
    | none => exact fun _ _ => rfl
    | some b =>
      dsimp only
      cases s.querySharableBuffer source pool index .none creates with
      | none => exact fun _ _ => rfl
      | some t => exact fun h => absurd h.symm Bool.false_ne_true
  · exact fun _ _ => rfl

theorem leavesLocks_shared_iff (s : ShmState) (source : ℕ) (pool : BufferPool) (index : UInt32)
    (contended : ℕ → Bool) (creates : Bool) :
    s.LeavesLocks (s.queryBufferShared source pool index contended creates) ↔
      (pool.isMapped = true → index < pool.poolSize → (s.lockRead index contended).isSome →
        creates = true) := by
  rw [queryBufferShared]
  split_ifs with hmapped
  · by_cases hlt : index < pool.poolSize
    · rw [BufferPool.getBufferMutex_of_lt hlt]
      dsimp only
      cases ht : s.lockRead index contended with
      | none => exact iff_of_true (fun _ _ => rfl) fun _ _ h => absurd h (by simp)
      | some t =>
        dsimp only
        rw [querySharableBuffer, if_neg (by simpa using hlt)]
        cases creates with
        | true => exact iff_of_true (fun h => absurd h.symm Bool.false_ne_true) fun _ _ _ => rfl
        | false =>
          refine iff_of_false (fun h => lockRead_ne ht (h rfl index)) fun h => ?_
          exact Bool.false_ne_true (h hmapped hlt rfl)
    · rw [BufferPool.getBufferMutex, if_pos (by simpa using hlt)]
      exact iff_of_true (fun _ _ => rfl) fun _ h => absurd h hlt
  · exact iff_of_true (fun _ _ => rfl) fun h => absurd h hmapped

theorem leavesLocks_unique_iff (s : ShmState) (source : ℕ) (pool : BufferPool)
    (contended created : ℕ → Bool) :
    s.LeavesLocks (s.queryBufferUnique source pool contended created) ↔
      (pool.isMapped = true → (∃ i < pool.poolSize.toNat, s.Grants pool contended i) →
        ∃ i < pool.poolSize.toNat, s.Grants pool contended i ∧ created i = true ∧
          ∀ j < i, pool.uniqueIndex j = pool.uniqueIndex i → ¬s.Grants pool contended j) := by
  rw [queryBufferUnique]
  split_ifs with hmapped
  · by_cases hpool : pool.poolSize = 0
    · rw [hpool]
      refine iff_of_true (fun _ _ => rfl) ?_
      rintro - ⟨i, hi, -⟩
      exact absurd hi (Nat.not_lt_zero i)
    · have hfst : (queryUniqueLoop source pool contended created
          (List.range' 0 pool.poolSize.toNat) s).1 = true ↔ _ := queryUniqueLoop_fst_iff hpool
      rw [← List.range_eq_range'] at hfst
      simp only [Nat.zero_le, Nat.zero_add, true_and, forall_const] at hfst
      constructor
      · rintro h - ⟨i, hi, hgrant⟩
        -- the mutex that has been locked shows that the call has not failed
        rw [← hfst]
        obtain ⟨b, hfree, hlocked⟩ : ∃ b, s.segment.mutex b = .free ∧
            (queryUniqueLoop source pool contended created
              (List.range pool.poolSize.toNat) s).2.segment.mutex b ≠ .free :=
          exclusive_of_granted hpool (List.mem_range.mpr hi) hgrant
        refine Bool.eq_true_of_not_eq_false fun hfalse => hlocked ?_
        rw [h hfalse b, hfree]
      · intro h hfalse
        have hnone : ∀ i ∈ List.range pool.poolSize.toNat, ¬s.Grants pool contended i := by
          intro i hi hgrant
          have htrue := hfst.mpr (h hmapped ⟨i, List.mem_range.mp hi, hgrant⟩)
          exact Bool.false_ne_true (hfalse.symm.trans htrue)
        rw [queryUniqueLoop_of_not_grants hpool hnone]
        exact fun _ => rfl
  · exact iff_of_true (fun _ _ => rfl) fun h => absurd h hmapped

/-- **When a failed query leaves the locks alone.** -/
theorem leavesLocks_iff (z : ShmSizes) (region : UInt64) (s : ShmState) (source : ℕ)
    (pool : BufferPool) (buffer : Bool) (q : ShmQuery) :
    s.LeavesLocks (s.answer z region source pool buffer q) ↔
      (buffer = true → s.Releases z region pool q) := by
  cases buffer with
  | false => exact iff_of_true (fun _ _ => rfl) fun h => absurd h Bool.false_ne_true
  | true =>
    rw [forall_prop_of_true rfl]
    cases q with
    | unlocked index allocated => exact iff_of_true (leavesLocks_unlocked s _ _ _ _) trivial
    | shared index contended allocated => exact leavesLocks_shared_iff s _ _ _ _ _
    | unique contended allocated => exact leavesLocks_unique_iff s _ _ _ _

/-- A pool of 65537 buffers of 65536 bytes, whose sizes multiply to the size of one buffer
modulo `2 ^ 32`: the segment ends before the buffer 1, and a shared query of it fails with the
mutex locked. -/
theorem not_leavesLocks_shared :
    ¬(construct 65537 65536 .locked fun _ => true).LeavesLocks
      ((construct 65537 65536 .locked fun _ => true).answer BufferPool.linuxSizes
        (BufferPool.segmentSize BufferPool.linuxSizes 65537 65536) 0
        (BufferPool.constructed 65537 65536) true (.shared 1 (fun _ => false) true)) := by
  intro h
  have hkept := congrArg SharableMutex.sharable (h (by decide +kernel) 1)
  revert hkept
  decide +kernel

/-- A query of a pool with a right layout leaves the locks alone when it fails, if there is
memory for the handles. -/
theorem releases_of_laidOut {segment : ℕ} (h : pool.LaidOut z segment)
    (hregion : segment ≤ region.toNat) {q : ShmQuery} (hq : q.Allocates) :
    s.Releases z region pool q := by
  cases q with
  | unlocked index allocated => trivial
  | shared index contended allocated =>
    obtain rfl : allocated = true := hq
    exact fun _ hlt _ => h.creates hregion hlt
  | unique contended allocated =>
    rintro - ⟨i, hi, hgrant⟩
    have hpool : pool.poolSize ≠ 0 := by
      intro h0
      rw [h0] at hi
      exact absurd hi (Nat.not_lt_zero i)
    -- the first iteration that is granted a lock ends the loop
    have hex : ∃ i, s.Grants pool contended i := ⟨i, hgrant⟩
    refine ⟨Nat.find hex, ?_, Nat.find_spec hex, ?_, fun j hj _ => Nat.find_min hex hj⟩
    · exact Nat.lt_of_le_of_lt (Nat.find_min' hex hgrant) hi
    · rw [createsUnique, hq (Nat.find hex)]
      exact h.creates hregion (BufferPool.uniqueIndex_lt hpool _)

end ShmState

end UtilityFramework
