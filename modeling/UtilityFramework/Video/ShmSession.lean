import UtilityFramework.Video.SharableBufferPool

/-!
# The pools of a session

A `shm_session` for writers is given an array of pool parameters. Its constructor keeps some of
the entries in `m_pool_parmas`, and `remap` and `unmap` use the indices of those that have been
kept to access the array `m_pools` unchecked. An access beyond the array is `none`.

The constructor means to keep the entries whose index is in range and whose sizes are not zero.
It looks at the index of the first entry each time, though (`keptParams`): the index of no other
entry is ever checked, and an index out of range in the first entry drops them all. The
entries kept are the valid ones precisely if the first entry speaks for the others
(`FirstSpeaks`, `constructs_safe_iff`).

Where the indices kept are in range, no operation accesses `m_pools` beyond its end
(`exists_step`), and so no run does.
-/

namespace UtilityFramework

open Transition

/-- `MAX_SHARABLE_POOLS_PER_SESSION`. -/
def maxSharablePoolsPerSession : UInt32 := 5

structure ShmPoolParams where
  index : UInt32
  poolSize : UInt32
  bufferSize : UInt32
  deriving DecidableEq

/-- An entry that a session can use. -/
def ShmPoolParams.Valid (p : ShmPoolParams) : Prop :=
  p.index < maxSharablePoolsPerSession ∧ p.poolSize ≠ 0 ∧ p.bufferSize ≠ 0

instance : DecidablePred ShmPoolParams.Valid := fun _ => inferInstanceAs (Decidable (_ ∧ _))

/-- `core::guid`; the undefined one is zero. -/
abbrev Guid := BitVec 128

/-- `shm_session_buffer`: the segment that names the pools of the session. -/
structure SessionBuffer where
  isMapped : Bool
  size : ℕ
  poolId : UInt32 → Guid

namespace SessionBuffer

variable (b : SessionBuffer)

/-- `sizeof(core::guid) + sizeof(uint32_t) + (sizeof(core::guid) * index)`. -/
def poolIdOffset (index : UInt32) : ℕ := 16 + 4 + 16 * index.toNat

def writePoolId (index : UInt32) (id : Guid) : Option SessionBuffer :=
  if maxSharablePoolsPerSession ≤ index then none
  else if b.isMapped = false then none
  else if b.size < poolIdOffset index then none
  else some { b with poolId := Function.update b.poolId index id }

def queryPoolId (index : UInt32) : Option Guid :=
  if maxSharablePoolsPerSession ≤ index then none
  else if b.isMapped = false then none
  else if b.size < poolIdOffset index then none
  else if b.poolId index = 0 then none
  else some (b.poolId index)

def setPoolId (index : UInt32) (generated : Guid) : Option SessionBuffer :=
  b.writePoolId index generated

/-- `clear_pool_id`, whose result nobody looks at. -/
def clearPoolId (index : UInt32) : SessionBuffer := (b.writePoolId index 0).getD b

end SessionBuffer

/-- A `shm_sharable_bufferpool` in `m_pools`, by the name and the sizes it was made with. -/
inductive SessionPool
  | writer (id : Guid) (poolSize bufferSize : UInt32)
  | reader (id : Guid)

structure ShmSession where
  name : String
  mode : AccessMode
  sessionBuffer : Option SessionBuffer
  poolParams : List ShmPoolParams
  pools : Fin maxSharablePoolsPerSession.toNat → Option SessionPool

/-- How a call ends. -/
inductive SessionOutcome
  | returned (value : Bool)
  | threw
  | nullPointer

/-- What the environment decides in a call of `remap`: the session buffer that its constructor
makes or opens, if it does not throw, the identifiers that are generated and which constructors
of pools do not throw. -/
structure SessionEnv where
  buffer : Option SessionBuffer
  generated : ℕ → Guid
  created : ℕ → Bool

namespace ShmSession

/-- The entries that the constructor for writers keeps. It tests `pool_params->index`, the index
of the first entry, for each of them. -/
def keptParams (params : List ShmPoolParams) : List ShmPoolParams :=
  params.filter fun p =>
    !(params.head?.any (fun first => maxSharablePoolsPerSession ≤ first.index) ||
      p.poolSize == 0 || p.bufferSize == 0)

/-- The constructor for writers up to the call of `remap`; a null pointer is `none`. -/
def construct (name : Option String) (params : Option (List ShmPoolParams)) :
    Except String ShmSession :=
  match name, params with
  | none, _ => .error "name"
  | some _, none => .error "pool_params"
  | some _, some [] => .error "pool_params_count"
  | some name, some params => .ok {
      name := name
      mode := .writer
      sessionBuffer := none
      poolParams := keptParams params
      pools := fun _ => none }

/-- The constructor for readers up to the call of `remap`. -/
def constructReader (name : Option String) : Except String ShmSession :=
  match name with
  | none => .error "name"
  | some name => .ok {
      name := name
      mode := .reader
      sessionBuffer := none
      poolParams := []
      pools := fun _ => none }

variable (s : ShmSession)

/-- Reading `m_pools[index]`; `none` is an access beyond the array. -/
def getPool (index : UInt32) : Option (Option SessionPool) :=
  if h : index.toNat < maxSharablePoolsPerSession.toNat then some (s.pools ⟨index.toNat, h⟩)
  else none

/-- Releasing or replacing `m_pools[index]`; `none` is an access beyond the array. -/
def setPool (index : UInt32) (pool : Option SessionPool) : Option ShmSession :=
  if h : index.toNat < maxSharablePoolsPerSession.toNat then
    some { s with pools := Function.update s.pools ⟨index.toNat, h⟩ pool }
  else none

/-- The loop of `unmap`. -/
def unmapLoop : List ShmPoolParams → ShmSession → Option (SessionOutcome × ShmSession)
  | [], s => some (.returned true, s)
  | p :: ps, s => (s.setPool p.index none).bind fun s =>
    match s.sessionBuffer with
    | none => some (.nullPointer, s)
    | some b => unmapLoop ps { s with sessionBuffer := some (b.clearPoolId p.index) }

def unmap : Option (SessionOutcome × ShmSession) :=
  if s.mode ≠ .writer then some (.returned true, s) else unmapLoop s.poolParams s

/-- `query_pool`. -/
def queryPool (index : UInt32) : Option (Option SessionPool) :=
  if maxSharablePoolsPerSession ≤ index then some none
  else
    match s.sessionBuffer with
    | none => some none
    | some b => if b.isMapped = false then some none else s.getPool index

/-- The loop of `remap(pool_index)`: `result` is `retval`, and `k` the number of entries before
those still to come. -/
def remapPoolLoop (env : SessionEnv) (poolIndex : UInt32) :
    ℕ → Bool → List ShmPoolParams → SessionBuffer → ShmSession →
      Option (SessionOutcome × ShmSession)
  | _, result, [], b, s => some (.returned result, { s with sessionBuffer := some b })
  | k, result, p :: ps, b, s =>
    if p.index ≠ poolIndex then remapPoolLoop env poolIndex (k + 1) result ps b s
    else
      (s.setPool p.index none).bind fun s =>
        match b.setPoolId p.index (env.generated k) with
        | none => some (.returned result, { s with sessionBuffer := some b })
        | some b =>
          if env.created k then
            (s.setPool p.index (some (.writer (env.generated k) p.poolSize p.bufferSize))).bind
              (remapPoolLoop env poolIndex (k + 1) true ps b)
          else some (.threw, { s with sessionBuffer := some b })

/-- `remap(pool_index)`. -/
def remapPool (env : SessionEnv) (poolIndex : UInt32) : Option (SessionOutcome × ShmSession) :=
  if maxSharablePoolsPerSession ≤ poolIndex then some (.returned false, s)
  else
    match s.sessionBuffer with
    | none => some (.returned false, s)
    | some b => remapPoolLoop env poolIndex 0 false s.poolParams b s

/-- The loop of `remap()` in a session for writers. The session has no session buffer while it
lasts. -/
def remapWriterLoop (env : SessionEnv) :
    ℕ → List ShmPoolParams → SessionBuffer → ShmSession → Option (SessionOutcome × ShmSession)
  | _, [], b, s => some (.returned true, { s with sessionBuffer := some b })
  | k, p :: ps, b, s => (s.setPool p.index none).bind fun s =>
    match b.setPoolId p.index (env.generated k) with
    | none => remapWriterLoop env (k + 1) ps b s
    | some b =>
      if env.created k then
        (s.setPool p.index (some (.writer (env.generated k) p.poolSize p.bufferSize))).bind
          (remapWriterLoop env (k + 1) ps b)
      else some (.threw, s)

/-- The loop of `remap()` in a session for readers, over the values of `i` still to come. -/
def remapReaderLoop (env : SessionEnv) (b : SessionBuffer) :
    List ℕ → ShmSession → Option (SessionOutcome × ShmSession)
  | [], s => some (.returned true, { s with sessionBuffer := some b })
  | i :: is, s => (s.setPool (UInt32.ofNat i) none).bind fun s =>
    match b.queryPoolId (UInt32.ofNat i) with
    | none => remapReaderLoop env b is s
    | some id =>
      if env.created i then
        (s.setPool (UInt32.ofNat i) (some (.reader id))).bind (remapReaderLoop env b is)
      else some (.threw, s)

/-- `remap()`. -/
def remap (env : SessionEnv) : Option (SessionOutcome × ShmSession) :=
  let s := { s with sessionBuffer := none }
  match s.mode with
  | .none => some (.returned true, s)
  | .writer =>
    match env.buffer with
    | none => some (.threw, s)
    | some b =>
      if b.isMapped = false then some (.returned false, s)
      else remapWriterLoop env 0 s.poolParams b s
  | .reader =>
    match env.buffer with
    | none => some (.threw, s)
    | some b =>
      if b.isMapped = false then some (.returned false, s)
      else remapReaderLoop env b (List.range maxSharablePoolsPerSession.toNat) s

end ShmSession

/-- The operations on a session. `publish` is told what the publication of the buffer returned,
and `unmap` is what the destructor does. -/
inductive SessionOp
  | remap (env : SessionEnv)
  | remapPool (env : SessionEnv) (poolIndex : UInt32)
  | queryPool (index : UInt32)
  | publish (error : ShmError) (env : SessionEnv)
  | unmap

namespace ShmSession

/-- One operation; `none` is an access beyond `m_pools`. -/
def step (s : ShmSession) : SessionOp → Option ShmSession
  | .remap env => (s.remap env).map Prod.snd
  | .remapPool env poolIndex => (s.remapPool env poolIndex).map Prod.snd
  | .queryPool index => (s.queryPool index).map fun _ => s
  | .publish error env =>
    if error = .noError then some s else (s.remap env).map Prod.snd
  | .unmap => s.unmap.map Prod.snd

/-- The indices that have been kept are indices of `m_pools`. -/
def InRange (s : ShmSession) : Prop :=
  ∀ p ∈ s.poolParams, p.index < maxSharablePoolsPerSession

/-- What the constructor is for: the entries kept are valid, no valid entry is lost, and from
the first `remap` on no access is out of bounds. -/
structure Safe (params : List ShmPoolParams) (s : ShmSession) : Prop where
  valid : ∀ p ∈ s.poolParams, p.Valid
  complete : (params.filter fun p => p.Valid).Sublist s.poolParams
  inBounds : ∀ env ops, ∃ t, run step s (.remap env :: ops) = some t

/-- The index of the first entry is in range, and so is that of every entry with sizes; or it
is not, and no entry is valid. -/
def FirstSpeaks : List ShmPoolParams → Prop
  | [] => True
  | first :: params =>
    if first.index < maxSharablePoolsPerSession then
      ∀ p ∈ first :: params, p.poolSize ≠ 0 → p.bufferSize ≠ 0 →
        p.index < maxSharablePoolsPerSession
    else ∀ p ∈ first :: params, ¬p.Valid

variable {s t : ShmSession} {env : SessionEnv} {params : List ShmPoolParams}

/-! ### Accesses in bounds -/

/-- A call that accesses `m_pools` in bounds only and keeps the parameters of the pools. -/
def Bounded (s : ShmSession) (r : Option (SessionOutcome × ShmSession)) : Prop :=
  ∃ o t, r = some (o, t) ∧ t.poolParams = s.poolParams

theorem exists_setPool {index : UInt32} (h : index < maxSharablePoolsPerSession)
    (pool : Option SessionPool) :
    ∃ t, s.setPool index pool = some t ∧ t.poolParams = s.poolParams := by
  rw [setPool, dif_pos (UInt32.lt_iff_toNat_lt.mp h)]
  exact ⟨_, rfl, rfl⟩

/-- What follows an access in bounds. -/
theorem Bounded.of_setPool {index : UInt32} (h : index < maxSharablePoolsPerSession)
    {pool : Option SessionPool} {f : ShmSession → Option (SessionOutcome × ShmSession)}
    (hf : ∀ t, t.poolParams = s.poolParams → Bounded t (f t)) :
    Bounded s ((s.setPool index pool).bind f) := by
  obtain ⟨t, ht, hparams⟩ := exists_setPool (s := s) h pool
  obtain ⟨o, u, hu, hparams'⟩ := hf t hparams
  rw [ht, Option.bind_some]
  exact ⟨o, u, hu, hparams'.trans hparams⟩

theorem Bounded.refl {o : SessionOutcome} {b : Option SessionBuffer} :
    Bounded s (some (o, { s with sessionBuffer := b })) := ⟨o, _, rfl, rfl⟩

theorem bounded_unmapLoop {ps : List ShmPoolParams}
    (h : ∀ p ∈ ps, p.index < maxSharablePoolsPerSession) : Bounded s (unmapLoop ps s) := by
  induction ps generalizing s with
  | nil => exact .refl
  | cons p ps ih =>
    refine .of_setPool (h p List.mem_cons_self) fun t _ => ?_
    cases t.sessionBuffer with
    | none => exact .refl
    | some b => exact ih fun q hq => h q (List.mem_cons_of_mem p hq)

/-- Only entries with the index asked for are accessed, which has been checked. -/
theorem bounded_remapPoolLoop {poolIndex : UInt32}
    (hindex : poolIndex < maxSharablePoolsPerSession) {k : ℕ} {result : Bool}
    {ps : List ShmPoolParams} {b : SessionBuffer} :
    Bounded s (remapPoolLoop env poolIndex k result ps b s) := by
  induction ps generalizing s k result b with
  | nil => exact .refl
  | cons p ps ih =>
    rw [remapPoolLoop]
    by_cases hp : p.index = poolIndex
    · have hlt : p.index < maxSharablePoolsPerSession := hp ▸ hindex
      rw [if_neg (not_not.mpr hp)]
      refine .of_setPool hlt fun t _ => ?_
      cases b.setPoolId p.index (env.generated k) with
      | none => exact .refl
      | some b =>
        dsimp only
        split_ifs
        · exact .of_setPool hlt fun _ _ => ih
        · exact .refl
    · rw [if_pos hp]
      exact ih

theorem bounded_remapWriterLoop {k : ℕ} {ps : List ShmPoolParams} {b : SessionBuffer}
    (h : ∀ p ∈ ps, p.index < maxSharablePoolsPerSession) :
    Bounded s (remapWriterLoop env k ps b s) := by
  induction ps generalizing s k b with
  | nil => exact .refl
  | cons p ps ih =>
    have hp := h p List.mem_cons_self
    have hps : ∀ q ∈ ps, q.index < maxSharablePoolsPerSession :=
      fun q hq => h q (List.mem_cons_of_mem p hq)
    refine .of_setPool hp fun t _ => ?_
    cases b.setPoolId p.index (env.generated k) with
    | none => exact ih hps
    | some b =>
      dsimp only
      split_ifs
      · exact .of_setPool hp fun _ _ => ih hps
      · exact .refl

theorem bounded_remapReaderLoop {is : List ℕ} {b : SessionBuffer}
    (h : ∀ i ∈ is, UInt32.ofNat i < maxSharablePoolsPerSession) :
    Bounded s (remapReaderLoop env b is s) := by
  induction is generalizing s with
  | nil => exact .refl
  | cons i is ih =>
    have hi := h i List.mem_cons_self
    have his : ∀ j ∈ is, UInt32.ofNat j < maxSharablePoolsPerSession :=
      fun j hj => h j (List.mem_cons_of_mem i hj)
    refine .of_setPool hi fun t _ => ?_
    cases b.queryPoolId (UInt32.ofNat i) with
    | none => exact ih his
    | some id =>
      dsimp only
      split_ifs
      · exact .of_setPool hi fun _ _ => ih his
      · exact .refl

theorem InRange.bounded_remap (hs : s.InRange) (env : SessionEnv) :
    Bounded s (s.remap env) := by
  obtain ⟨name, mode, sessionBuffer, poolParams, pools⟩ := s
  obtain ⟨buffer, generated, created⟩ := env
  -- in every mode there is no session buffer from here on
  have hreset : ∀ {r}, Bounded ⟨name, mode, none, poolParams, pools⟩ r →
      Bounded ⟨name, mode, sessionBuffer, poolParams, pools⟩ r := fun h => h
  cases mode with
  | none => exact hreset .refl
  | writer =>
    cases buffer with
    | none => exact hreset .refl
    | some b =>
      dsimp only [remap]
      split_ifs
      · exact hreset .refl
      · exact hreset (bounded_remapWriterLoop hs)
  | reader =>
    cases buffer with
    | none => exact hreset .refl
    | some b =>
      dsimp only [remap]
      split_ifs
      · exact hreset .refl
      · exact hreset (bounded_remapReaderLoop (by decide))

theorem bounded_remapPool (env : SessionEnv) (poolIndex : UInt32) :
    Bounded s (s.remapPool env poolIndex) := by
  rw [remapPool]
  split_ifs with hindex
  · exact .refl
  · cases hb : s.sessionBuffer with
    | none => exact .refl
    | some b => exact bounded_remapPoolLoop (by simpa using hindex)

theorem InRange.bounded_unmap (hs : s.InRange) : Bounded s s.unmap := by
  rw [unmap]
  split_ifs
  · exact .refl
  · exact bounded_unmapLoop hs

theorem exists_queryPool (index : UInt32) : ∃ pool, s.queryPool index = some pool := by
  rw [queryPool]
  split_ifs with hindex
  · exact ⟨_, rfl⟩
  · have hlt : index.toNat < maxSharablePoolsPerSession.toNat := by
      rw [← UInt32.lt_iff_toNat_lt]
      simpa using hindex
    cases s.sessionBuffer with
    | none => exact ⟨_, rfl⟩
    | some b =>
      dsimp only
      split_ifs
      · exact ⟨_, rfl⟩
      · exact ⟨_, dif_pos hlt⟩

theorem Bounded.exists_map_snd {r : Option (SessionOutcome × ShmSession)} (h : Bounded s r) :
    ∃ t, r.map Prod.snd = some t ∧ t.poolParams = s.poolParams := by
  obtain ⟨o, t, rfl, hparams⟩ := h
  exact ⟨t, rfl, hparams⟩

/-- One operation accesses `m_pools` in bounds and keeps the parameters. -/
theorem exists_step (hs : s.InRange) (op : SessionOp) :
    ∃ t, s.step op = some t ∧ t.poolParams = s.poolParams := by
  cases op with
  | remap env => exact (hs.bounded_remap env).exists_map_snd
  | remapPool env poolIndex => exact (bounded_remapPool env poolIndex).exists_map_snd
  | queryPool index =>
    obtain ⟨pool, hpool⟩ := exists_queryPool (s := s) index
    exact ⟨s, congrArg (Option.map fun _ => s) hpool, rfl⟩
  | publish error env =>
    rw [step]
    split_ifs
    · exact ⟨s, rfl, rfl⟩
    · exact (hs.bounded_remap env).exists_map_snd
  | unmap => exact hs.bounded_unmap.exists_map_snd

/-- **No run accesses `m_pools` out of bounds**, if the indices kept are in range. -/
theorem InRange.exists_run (hs : s.InRange) (ops : List SessionOp) :
    ∃ t, run step s ops = some t := by
  have hguarded : Guarded step (fun (_ : ShmSession) (_ : SessionOp) => True) s ops :=
    .of_forall (fun _ _ _ => trivial) s
  refine hguarded.exists_run (J := InRange) (fun s op hs => ?_) (fun s op t hs _ ht => ?_) hs
  · obtain ⟨t, ht, -⟩ := exists_step hs op
    exact ⟨t, ht⟩
  · obtain ⟨t', ht', hparams⟩ := exists_step hs op
    obtain rfl := Option.some.inj (ht.symm.trans ht')
    rwa [InRange, hparams]

/-- A session for readers has no indices of its own. -/
theorem exists_run_reader {name : Option String} (hs : constructReader name = .ok s)
    (ops : List SessionOp) : ∃ t, run step s ops = some t := by
  cases name with
  | none => cases hs
  | some name =>
    obtain rfl := Except.ok.inj hs
    exact InRange.exists_run (fun p hp => absurd hp List.not_mem_nil) ops

/-! ### The entries that are kept -/

theorem mem_keptParams_cons {first p : ShmPoolParams} :
    p ∈ keptParams (first :: params) ↔ p ∈ first :: params ∧
      first.index < maxSharablePoolsPerSession ∧ p.poolSize ≠ 0 ∧ p.bufferSize ≠ 0 := by
  rw [keptParams, List.mem_filter]
  simp [and_assoc]

theorem keptParams_eq_filter (h : FirstSpeaks params) :
    keptParams params = params.filter fun p => p.Valid := by
  cases params with
  | nil => rfl
  | cons first params =>
    refine List.filter_congr fun p hp => ?_
    have hkept : (!((first :: params).head?.any
          (fun first => maxSharablePoolsPerSession ≤ first.index) ||
        p.poolSize == 0 || p.bufferSize == 0)) = true ↔
        first.index < maxSharablePoolsPerSession ∧ p.poolSize ≠ 0 ∧ p.bufferSize ≠ 0 := by
      simp [and_assoc]
    rw [Bool.eq_iff_iff, hkept, decide_eq_true_iff]
    rw [FirstSpeaks] at h
    split_ifs at h with hfirst
    · constructor
      · rintro ⟨-, hpool, hbuffer⟩
        exact ⟨h p hp hpool hbuffer, hpool, hbuffer⟩
      · exact fun hv => ⟨hfirst, hv.2⟩
    · exact iff_of_false (fun hk => hfirst hk.1) (h p hp)

theorem construct_eq_ok {name : Option String} {params : Option (List ShmPoolParams)}
    (hs : construct name params = .ok s) :
    ∃ first rest, params = some (first :: rest) ∧ s.poolParams = keptParams (first :: rest) := by
  cases name with
  | none => cases hs
  | some name =>
    cases params with
    | none => cases hs
    | some params =>
      cases params with
      | nil => cases hs
      | cons first rest =>
        obtain rfl := Except.ok.inj hs
        exact ⟨first, rest, rfl, rfl⟩

/-- **When the constructor for writers makes a safe session.** -/
theorem constructs_safe_iff (name : String) (params : List ShmPoolParams) :
    (∀ s, construct (some name) (some params) = .ok s → Safe params s) ↔
      FirstSpeaks params := by
  constructor
  · intro h
    cases params with
    | nil => trivial
    | cons first params =>
      obtain ⟨hvalid, hcomplete, -⟩ := h _ rfl
      rw [FirstSpeaks]
      split_ifs with hfirst
      · intro p hp hpool hbuffer
        exact (hvalid p (mem_keptParams_cons.mpr ⟨hp, hfirst, hpool, hbuffer⟩)).1
      · intro p hp hv
        have hkept := hcomplete.subset (List.mem_filter.mpr ⟨hp, decide_eq_true hv⟩)
        exact hfirst (mem_keptParams_cons.mp hkept).2.1
  · intro h s hs
    obtain ⟨first, rest, hparams, hkept⟩ := construct_eq_ok hs
    obtain rfl := Option.some.inj hparams
    rw [keptParams_eq_filter h] at hkept
    have hvalid : ∀ p ∈ s.poolParams, p.Valid := by
      intro p hp
      rw [hkept] at hp
      exact of_decide_eq_true (List.mem_filter.mp hp).2
    refine ⟨hvalid, hkept ▸ List.Sublist.refl _, fun env ops => ?_⟩
    exact InRange.exists_run (fun p hp => (hvalid p hp).1) _

/-- The index 7 of the second entry is kept, and `remap` accesses `m_pools[7]` with it. -/
theorem not_safe_second_index :
    ¬∀ s, construct (some "session") (some [⟨0, 1, 1⟩, ⟨7, 1, 1⟩]) = .ok s →
      Safe [⟨0, 1, 1⟩, ⟨7, 1, 1⟩] s := by
  intro h
  obtain ⟨-, -, hbounds⟩ := h _ rfl
  -- the session buffer is there, and the first pool is made
  obtain ⟨t, ht⟩ := hbounds ⟨some ⟨true, 100, fun _ => 0⟩, fun _ => 1, fun _ => true⟩ []
  cases ht

end ShmSession

end UtilityFramework
