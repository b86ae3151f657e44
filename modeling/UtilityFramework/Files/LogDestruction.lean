import UtilityFramework.Files.LogAppendOnly

/-!
# Destroying a log file

The destructor of a log file flushes it once. A flush writes one buffer: if a full one waits, that
one, and the bytes in the active buffer are lost (`flush_spec`). They are never empty then, as a
write switches the buffers only to put its bytes into the other one (`Carries.waits`).
-/

namespace UtilityFramework

open Transition

namespace LogFile

variable (c : LogConfig)

/-- `~log_file`: the file that is left. -/
def destroy (s : LogFile) : Option (List UInt8) := (s.flush c).map fun p => p.1.file.content

/-- The file of a log file that has stored `data`. -/
def stored (data : List UInt8) : List UInt8 :=
  posLine (21 + (c.headerData ++ data).length) ++ (c.headerData ++ data)

section Flush

variable {c} {s : LogFile} {data : List UInt8}

theorem length_stored (h : 21 + (c.headerData ++ data).length < 10 ^ 20) :
    (stored c data).length = 21 + (c.headerData ++ data).length := by
  rw [stored, List.length_append, length_posLine h]

theorem stored_inj {data' : List UInt8} (h : 21 + (c.headerData ++ data).length < 10 ^ 20)
    (h' : 21 + (c.headerData ++ data').length < 10 ^ 20) (heq : stored c data = stored c data') :
    data = data' := by
  have hdrop := congrArg (List.drop 21) heq
  rw [stored, stored, drop_posLine h, drop_posLine h'] at hdrop
  exact List.append_cancel_left hdrop

/-- A flush that does not reach the size limit stores one buffer. -/
theorem flush_spec (hinv : BufferInv c s) (hclosed : s.file.isOpen = false)
    (hfile : (s.file.content = [] ∧ data = []) ∨ s.file.content = stored c data)
    (hsize : 21 + (c.headerData ++ data).length < 10 ^ 20)
    (hsmall : s.file.content.length < 2 ^ 31) :
    ∃ p, s.flush c = some p ∧ (s.flushReachesLimit c = false →
      BufferInv c p.1 ∧ p.1.file.isOpen = false ∧ p.1.buffToWrite = none ∧
      p.1.file.content = stored c (data ++ s.nextBuffer) ∧
      21 + (c.headerData ++ (data ++ s.nextBuffer)).length < 10 ^ 20 ∧
      s.nextBuffer ++ (p.1.pending ++ p.1.current) = s.pending ++ s.current) := by
  obtain ⟨hprep, hsome, hdata, hopened, -⟩ := prepare_data hinv
  obtain ⟨hnext, hnextle⟩ := hinv.length_nextBuffer
  have hpending := hinv.pending_prepare
  have hheader := c.headerData_lt
  have hmax := c.maxBuffSize_lt
  have hstart : (s.file.content = [] ∧ c.headerData ++ data = c.headerData ∧
      ([] : List UInt8) = []) ∨
      (s.file.content = posLine (21 + (c.headerData ++ data).length) ++
        ((c.headerData ++ data) ++ []) ∧ 21 + (c.headerData ++ data).length < 2 ^ 31) := by
    rcases hfile with ⟨hempty, rfl⟩ | hstored
    · exact .inl ⟨hempty, List.append_nil _, rfl⟩
    · refine .inr ⟨by rw [List.append_nil, hstored, stored], ?_⟩
      rwa [← length_stored hsize, ← hstored]
  have hfront : 21 + (c.headerData ++ data).length < 2 ^ 64 := by
    rcases hstart with ⟨-, heq, -⟩ | ⟨-, hlt⟩
    · rw [heq]
      omega
    · omega
  obtain ⟨pos, empty, hpos, hflush, hlimit⟩ := flush_of_closed hclosed hopened _ _ hstart
  refine ⟨_, hflush, fun hbelow => ?_⟩
  -- Below the limit the flush ends with writing the buffer.
  rw [hlimit] at hbelow
  have hwrite := writeBuffer_ready hpos (c.headerData ++ data) [] empty
    (hprep.length_pending hsome) (by omega)
  rw [List.drop_nil, List.append_nil, List.append_nil] at hwrite
  rw [List.append_nil] at hbelow ⊢
  rw [writeOut, hbelow, if_neg Bool.false_ne_true, hwrite, hpending, hnext]
  have hlength : 21 + (c.headerData ++ (data ++ s.nextBuffer)).length =
      21 + (c.headerData ++ data).length + s.nextBuffer.length := by
    rw [← List.append_assoc, List.length_append, Nat.add_assoc]
  refine ⟨⟨hprep.length, hprep.currBuffSize_le, fun i hi => by cases hi⟩, rfl, rfl, ?_, ?_, ?_⟩
  · rw [stored, hlength, List.append_assoc]
  · rw [hlength]
    omega
  · rw [← hdata, ← hpending]
    rfl

/-- A position that does not fit an `int` has no result. -/
theorem small_of_flush (hinv : BufferInv c s) (hclosed : s.file.isOpen = false)
    (hfile : (s.file.content = [] ∧ data = []) ∨ s.file.content = stored c data)
    (hsize : 21 + (c.headerData ++ data).length < 10 ^ 20) {p : LogFile × Bool}
    (hp : s.flush c = some p) : s.file.content.length < 2 ^ 31 := by
  rcases hfile with ⟨hempty, -⟩ | hstored
  · rw [hempty]
    decide
  · rw [hstored, length_stored hsize]
    exact lt_of_flush hclosed hinv hstored hsize hp

/-- What is in the buffers is bounded by their size. -/
theorem BufferInv.length_le (hinv : BufferInv c s) :
    (s.pending ++ s.current).length ≤ c.maxBuffSize + c.maxBuffSize := by
  have htake (i : Fin 2) (n : ℕ) : ((s.buffers i).take n).length ≤ c.maxBuffSize :=
    (List.length_take_le' _ _).trans_eq (hinv.length i)
  rw [List.length_append]
  refine Nat.add_le_add ?_ (htake _ _)
  rw [pending]
  split
  · exact htake _ _
  · exact Nat.zero_le _

/-- If a buffer waits, the other one holds bytes. -/
theorem write_waits (buffer : List UInt8)
    (h : s.buffToWrite.isSome → 0 < s.currBuffSize)
    (hsome : (s.write c buffer).1.buffToWrite.isSome) :
    0 < (s.write c buffer).1.currBuffSize := by
  rw [write] at hsome ⊢
  split_ifs at hsome ⊢ with hsize hover hwaits
  · exact h hsome
  · exact h hsome
  · exact Nat.add_pos_right 0 (Nat.pos_of_ne_zero fun h0 => hsize (.inl h0))
  · exact Nat.add_pos_right _ (Nat.pos_of_ne_zero fun h0 => hsize (.inl h0))

end Flush

end LogFile

namespace LogRun

variable (c : LogConfig)

/-- A log file, with the file as it is. -/
def start (content : Option (List UInt8)) : LogRun := ⟨.new c content, []⟩

/-- A file that is missing or empty, or that a log file with the same header text has left with
the data `old`. -/
def LeftWith (content : Option (List UInt8)) (old : List UInt8) : Prop :=
  (content.getD [] = [] ∧ old = []) ∨
    (content = some (LogFile.stored c old) ∧ 21 + (c.headerData ++ old).length < 2 ^ 64)

/-- A flush does not reach the size limit. -/
def BelowLimit (r : LogRun) : LogAction → Prop
  | .write _ => True
  | .flush => r.log.flushReachesLimit c = false

instance (r : LogRun) : DecidablePred (BelowLimit c r)
  | .write _ => .isTrue trivial
  | .flush => inferInstanceAs (Decidable (_ = _))

/-- The file is below `2 ^ 31` bytes. -/
def Small (r : LogRun) : Prop := r.log.file.content.length < 2 ^ 31

/-- After the calls and the destruction, the file holds the data it began with and the bytes
accepted, each once and in order. -/
def LosesNothing (content : Option (List UInt8)) (old : List UInt8) (l : List LogAction) : Prop :=
  ∃ r, run (step c) (start c content) l = some r ∧
    r.log.destroy c = some (LogFile.stored c (old ++ r.accepted))

/-- What holds between two calls: `data` is what has been stored behind `old`. -/
structure Carries (old : List UInt8) (r : LogRun) (data : List UInt8) : Prop where
  buffers : LogFile.BufferInv c r.log
  closed : r.log.file.isOpen = false
  accepted : data ++ (r.log.pending ++ r.log.current) = r.accepted
  file : (r.log.file.content = [] ∧ old ++ data = []) ∨
    r.log.file.content = LogFile.stored c (old ++ data)
  size : 21 + (c.headerData ++ (old ++ data)).length < 10 ^ 20
  waits : r.log.buffToWrite.isSome → 0 < r.log.currBuffSize

section Steps

variable {c} {r t : LogRun} {old data : List UInt8}

theorem carries_start {content : Option (List UInt8)} (h : LeftWith c content old) :
    Carries c old (start c content) [] where
  buffers := LogFile.bufferInv_new c content
  closed := rfl
  accepted := by
    rw [start, LogFile.current, LogFile.pending]
    rfl
  file := by
    rw [List.append_nil]
    exact h.imp_right fun hstored => by rw [hstored.1]; rfl
  size := by
    rw [List.append_nil]
    have hheader := c.headerData_lt
    rcases h with ⟨-, rfl⟩ | ⟨-, hlt⟩
    · rw [List.append_nil]
      omega
    · omega
  waits h := by cases h

theorem Carries.write (h : Carries c old r data) (buffer : List UInt8)
    (ht : r.step c (.write buffer) = some t) :
    Carries c old t data ∧ t.log.file = r.log.file := by
  obtain rfl := Option.some.inj ht
  have hwaits := LogFile.write_waits (c := c) buffer h.waits
  rcases LogFile.write_cases h.buffers buffer with heq | ⟨s', heq, hne, hinv, hdata, hf, -⟩
  · rw [heq]
    exact ⟨h, rfl⟩
  · rw [heq] at hwaits ⊢
    rw [if_neg hne]
    refine ⟨⟨hinv, hf ▸ h.closed, ?_, hf ▸ h.file, h.size, hwaits⟩, hf⟩
    rw [hdata, ← List.append_assoc, h.accepted]

/-- The flush of a file that is small. -/
theorem Carries.flush (h : Carries c old r data) (hsmall : Small r) :
    ∃ t, r.step c .flush = some t ∧ (r.BelowLimit c .flush →
      Carries c old t (data ++ r.log.nextBuffer) ∧
        r.log.destroy c = some (LogFile.stored c (old ++ (data ++ r.log.nextBuffer)))) := by
  obtain ⟨p, hp, hspec⟩ := LogFile.flush_spec h.buffers h.closed h.file h.size hsmall
  refine ⟨⟨p.1, r.accepted⟩, by rw [step, hp]; rfl, fun hbelow => ?_⟩
  obtain ⟨hinv, hclosed, hnone, hcontent, hsize, hdata⟩ := hspec hbelow
  rw [List.append_assoc] at hcontent hsize
  refine ⟨⟨hinv, hclosed, ?_, .inr hcontent, hsize, fun hsome => ?_⟩, ?_⟩
  · rw [List.append_assoc, hdata, h.accepted]
  · rw [hnone] at hsome
    cases hsome
  · rw [LogFile.destroy, hp, ← hcontent]
    rfl

theorem Carries.small_of_step (h : Carries c old r data) {a : LogAction}
    (ht : r.step c a = some t) (hsmall : Small t) : Small r := by
  cases a with
  | write buffer =>
    rw [Small, (h.write buffer ht).2] at hsmall
    exact hsmall
  | flush =>
    obtain ⟨p, hp, -⟩ := Option.map_eq_some_iff.mp ht
    exact LogFile.small_of_flush h.buffers h.closed h.file h.size hp

theorem Carries.enabled (h : Carries c old r data) (hsmall : Small r) (a : LogAction) :
    ∃ t, r.step c a = some t := by
  cases a with
  | write buffer => exact ⟨_, rfl⟩
  | flush => exact (h.flush hsmall).imp fun t ht => ht.1

theorem Carries.of_step (h : Carries c old r data) {a : LogAction} (hbelow : r.BelowLimit c a)
    (ht : r.step c a = some t) : ∃ data', Carries c old t data' := by
  cases a with
  | write buffer => exact ⟨data, (h.write buffer ht).1⟩
  | flush =>
    obtain ⟨p, hp, -⟩ := Option.map_eq_some_iff.mp ht
    obtain ⟨u, hu, hcarries⟩ :=
      h.flush (LogFile.small_of_flush h.buffers h.closed h.file h.size hp)
    obtain rfl := Option.some.inj (ht.symm.trans hu)
    exact ⟨_, (hcarries hbelow).1⟩

/-- What the next flush writes is all that is in the buffers precisely if none waits. -/
theorem Carries.nextBuffer_eq_iff (h : Carries c old r data) :
    data ++ r.log.nextBuffer = r.accepted ↔ r.log.buffToWrite = none := by
  rw [← h.accepted, List.append_cancel_left_eq, LogFile.nextBuffer]
  cases hwait : r.log.buffToWrite with
  | none =>
    rw [LogFile.pending, hwait]
    exact iff_of_true rfl rfl
  | some i =>
    have hpos := h.waits (by rw [hwait]; rfl)
    have hlen : r.log.current.length = r.log.currBuffSize := by
      rw [LogFile.current, List.length_take, h.buffers.length]
      exact Nat.min_eq_left h.buffers.currBuffSize_le
    rw [Option.isSome_some, if_pos rfl]
    refine iff_of_false (fun heq => ?_) (by rintro ⟨⟩)
    have hnil := List.self_eq_append_right.mp heq
    rw [hnil] at hlen
    exact absurd hlen hpos.ne

theorem Carries.size_accepted (h : Carries c old r data) (hsmall : Small r) :
    21 + (c.headerData ++ (old ++ r.accepted)).length < 10 ^ 20 := by
  have hheader := c.headerData_lt
  have hmax := c.maxBuffSize_lt
  have hbuffers := h.buffers.length_le
  have hfront : 21 + (c.headerData ++ (old ++ data)).length < 2 ^ 64 := by
    rcases h.file with ⟨-, hnil⟩ | hstored
    · rw [hnil, List.append_nil]
      omega
    · rw [Small, hstored, LogFile.length_stored h.size] at hsmall
      omega
  rw [← h.accepted, ← List.append_assoc, ← List.append_assoc, List.append_assoc c.headerData,
    List.length_append]
  omega

/-- The destruction. -/
theorem Carries.destroy_iff (h : Carries c old r data)
    (hbelow : ∀ t, r.step c .flush = some t → r.BelowLimit c .flush) :
    r.log.destroy c = some (LogFile.stored c (old ++ r.accepted)) ↔
      Small r ∧ r.log.buffToWrite = none := by
  constructor
  · intro heq
    obtain ⟨p, hp, -⟩ := Option.map_eq_some_iff.mp heq
    have hsmall := LogFile.small_of_flush h.buffers h.closed h.file h.size hp
    obtain ⟨t, ht, hspec⟩ := h.flush hsmall
    obtain ⟨hcarries, hdestroy⟩ := hspec (hbelow t ht)
    refine ⟨hsmall, h.nextBuffer_eq_iff.mp ?_⟩
    have hstored := Option.some.inj (hdestroy.symm.trans heq)
    exact List.append_cancel_left
      (LogFile.stored_inj hcarries.size (h.size_accepted hsmall) hstored)
  · rintro ⟨hsmall, hnone⟩
    obtain ⟨t, ht, hspec⟩ := h.flush hsmall
    rw [(hspec (hbelow t ht)).2, h.nextBuffer_eq_iff.mpr hnone]

/-- Calls and the destruction. The induction is over the calls. -/
theorem Carries.content_iff {l : List LogAction} (h : Carries c old r data)
    (hlimit : Guarded (step c) (BelowLimit c) r (l ++ [.flush])) :
    (∃ t, run (step c) r l = some t ∧
        t.log.destroy c = some (LogFile.stored c (old ++ t.accepted))) ↔
      Always (step c) Small r l ∧ ∀ t, run (step c) r l = some t → t.log.buffToWrite = none := by
  induction l generalizing r data with
  | nil =>
    simp only [run_nil, Option.some.injEq, exists_eq_left', forall_eq', always_nil]
    exact h.destroy_iff fun t ht => (hlimit t ht).1
  | cons a l ih =>
    rw [always_cons, run]
    cases hstep : r.step c a with
    | none =>
      -- Only a flush of a file that is not small has no result.
      refine iff_of_false (by rintro ⟨t, ht, -⟩; cases ht) fun hand => ?_
      obtain ⟨t, ht⟩ := h.enabled hand.1.1 a
      cases hstep.symm.trans ht
    | some t =>
      obtain ⟨hbelow, hlimit'⟩ := hlimit t hstep
      obtain ⟨data', h'⟩ := h.of_step hbelow hstep
      simp only [Option.bind_some, Option.some.injEq, forall_eq']
      rw [ih h' hlimit']
      refine and_congr_left fun _ => ⟨fun halways => ⟨?_, halways⟩, fun hand => hand.2⟩
      exact h.small_of_step hstep halways.head

end Steps

/-- **Destroying a log file.** For every log file, missing or left by a log file at first, and any
sequence of calls of which, as of the destruction, no flush reaches the size limit: the file holds
what was there and every payload accepted, each once and in order, precisely if the file has
stayed below `2 ^ 31` bytes and no full buffer waits when the destruction begins. -/
theorem losesNothing_iff {content : Option (List UInt8)} {old : List UInt8}
    (hcontent : LeftWith c content old) (l : List LogAction)
    (hlimit : Guarded (step c) (BelowLimit c) (start c content) (l ++ [.flush])) :
    LosesNothing c content old l ↔
      Always (step c) Small (start c content) l ∧
        ∀ r, run (step c) (start c content) l = some r → r.log.buffToWrite = none :=
  (carries_start hcontent).content_iff hlimit

/-- The second flush leaves bytes in the active buffer, which the destruction stores. -/
theorem losesNothing_iff_sample :
    LosesNothing sampleConfig none [] [.write (Text.toBytes "abcde"), .flush,
        .write (Text.toBytes "fgh"), .write (Text.toBytes "ij")] ↔
      Always (step sampleConfig) Small (start sampleConfig none) [.write (Text.toBytes "abcde"),
          .flush, .write (Text.toBytes "fgh"), .write (Text.toBytes "ij")] ∧
        ∀ r, run (step sampleConfig) (start sampleConfig none) [.write (Text.toBytes "abcde"),
          .flush, .write (Text.toBytes "fgh"), .write (Text.toBytes "ij")] = some r →
            r.log.buffToWrite = none :=
  losesNothing_iff sampleConfig (.inl ⟨rfl, rfl⟩) _ (by decide +kernel)

/-- Two writes that do not fit one buffer, both accepted: the second is lost. -/
theorem not_losesNothing_sample :
    Guarded (step sampleConfig) (BelowLimit sampleConfig) (start sampleConfig none)
        [.write (Text.toBytes "abcde"), .write (Text.toBytes "fghi"), .flush] ∧
      ¬ LosesNothing sampleConfig none []
        [.write (Text.toBytes "abcde"), .write (Text.toBytes "fghi")] := by
  refine ⟨by decide +kernel, ?_⟩
  rintro ⟨r, hr, hdestroy⟩
  have hlost : (run (step sampleConfig) (start sampleConfig none)
      [.write (Text.toBytes "abcde"), .write (Text.toBytes "fghi")]).all (fun r =>
        r.log.destroy sampleConfig ≠ some (LogFile.stored sampleConfig ([] ++ r.accepted))) =
      true := by decide +kernel
  rw [hr, Option.all_some, decide_eq_true_iff] at hlost
  exact hlost hdestroy

end LogRun

end UtilityFramework
