import UtilityFramework.Files.LogFlush

/-!
# What is written to a log file is stored

As long as the size limit is not reached and the file stays below `2 ^ 31` bytes, which is what
the position line can hold, the bytes accepted by `write` are, in order, those in the file,
those in the buffer that waits to be flushed and those in the active buffer.
-/

namespace UtilityFramework

open Transition

/-- A call of `write` or `flush`. -/
inductive LogAction
  | write (buffer : List UInt8)
  | flush

/-- A log file, and the bytes that `write` has accepted. -/
structure LogRun where
  log : LogFile
  accepted : List UInt8

namespace LogRun

variable (c : LogConfig)

/-- A log file whose file does not exist. -/
def init : LogRun := ⟨.new c none, []⟩

/-- One call. -/
def step (r : LogRun) : LogAction → Option LogRun
  | .write buffer =>
    some
      { log := (r.log.write c buffer).1
        accepted := if (r.log.write c buffer).2 = 0 then r.accepted else r.accepted ++ buffer }
  | .flush => (r.log.flush c).map fun p => { r with log := p.1 }

/-- The size of the file after the next flush. -/
def sizeAfter (r : LogRun) : ℕ :=
  (if r.log.created then r.log.file.content.length else 21 + c.headerData.length) +
    if r.log.buffToWrite.isSome then r.log.buffSizeToWrite else r.log.currBuffSize

/-- A flush does not reach the size limit, and keeps the file below `2 ^ 31` bytes. -/
def Fits (r : LogRun) (a : LogAction) : Prop :=
  match a with
  | .write _ => True
  | .flush => r.sizeAfter c < c.maxFileSize ∧ r.sizeAfter c < 2 ^ 31

instance (r : LogRun) : DecidablePred (Fits c r)
  | .write _ => .isTrue trivial
  | .flush => inferInstanceAs (Decidable (_ ∧ _))

/-- The file, once it has been created, is a line of 21 bytes that holds its length, the header
text and data, and the data with what waits in the buffers are the bytes accepted. -/
def StoredIn (r : LogRun) : Prop :=
  ∃ data, data ++ (r.log.pending ++ r.log.current) = r.accepted ∧
    if r.log.created then
      r.log.file.content =
          LogFile.posLine r.log.file.content.length ++ (c.headerData ++ data) ∧
        (LogFile.posLine r.log.file.content.length).length = 21
    else data = []

/-- What holds between two calls. -/
structure Inv (r : LogRun) (data : List UInt8) : Prop where
  buffers : LogFile.BufferInv c r.log
  closed : r.log.file.isOpen = false
  accepted : data ++ (r.log.pending ++ r.log.current) = r.accepted
  missing : r.log.created = false → r.log.file.content = [] ∧ data = []
  file : r.log.created = true → r.log.file.content =
    LogFile.posLine (21 + (c.headerData ++ data).length) ++ (c.headerData ++ data)
  small : r.log.created = true → 21 + (c.headerData ++ data).length < 2 ^ 31

section Steps

variable {c} {r t : LogRun} {data : List UInt8}

theorem Inv.length_content (h : Inv c r data) (hcreated : r.log.created = true) :
    r.log.file.content.length = 21 + (c.headerData ++ data).length := by
  have hsmall := h.small hcreated
  rw [h.file hcreated, List.length_append, LogFile.length_posLine (by omega)]

theorem Inv.storedIn (h : Inv c r data) : StoredIn c r := by
  refine ⟨data, h.accepted, ?_⟩
  split_ifs with hcreated
  · have hsmall := h.small hcreated
    rw [h.length_content hcreated]
    exact ⟨h.file hcreated, LogFile.length_posLine (by omega)⟩
  · exact (h.missing (Bool.eq_false_iff.mpr hcreated)).2

theorem inv_init : Inv c (init c) [] where
  buffers := LogFile.bufferInv_new c none
  closed := rfl
  accepted := by
    rw [init, LogFile.current, LogFile.pending]
    rfl
  missing _ := ⟨rfl, rfl⟩
  file h := by cases h
  small h := by cases h

/-- What a flush begins with. -/
theorem Inv.flush_eq (h : Inv c r data) : ∃ pos empty, pos < 10 ^ 20 ∧
    LogFile.FlushesFrom c r.log ((r.log.prepare c).ready
      (LogFile.posLine pos ++ (c.headerData ++ data))
      (21 + (c.headerData ++ data).length) empty) := by
  obtain ⟨-, -, -, hfile, -⟩ := LogFile.prepare_data h.buffers
  have hflush := LogFile.flush_of_closed h.closed hfile (c.headerData ++ data) []
  rw [List.append_nil] at hflush
  refine hflush ?_
  cases hcreated : r.log.created with
  | true => exact .inr ⟨h.file hcreated, h.small hcreated⟩
  | false =>
    obtain ⟨hcontent, rfl⟩ := h.missing hcreated
    exact .inl ⟨hcontent, List.append_nil _, rfl⟩

theorem Inv.enabled (h : Inv c r data) (a : LogAction) : ∃ t, r.step c a = some t := by
  cases a with
  | write buffer => exact ⟨_, rfl⟩
  | flush =>
    obtain ⟨pos, empty, -, hflush, -⟩ := h.flush_eq
    exact ⟨_, by rw [step, hflush]; rfl⟩

theorem Inv.write (h : Inv c r data) (buffer : List UInt8)
    (ht : r.step c (.write buffer) = some t) : Inv c t data := by
  obtain rfl := Option.some.inj ht
  rcases LogFile.write_cases h.buffers buffer with heq | ⟨s', heq, hne, hinv, hdata, hf, hc, -⟩
  · rw [heq]
    exact h
  · rw [heq, if_neg hne]
    refine ⟨hinv, hf ▸ h.closed, ?_, ?_, ?_, ?_⟩
    · rw [hdata, ← List.append_assoc, h.accepted]
    · exact fun hcreated => hf ▸ h.missing (hc ▸ hcreated)
    · exact fun hcreated => hf ▸ h.file (hc ▸ hcreated)
    · exact fun hcreated => h.small (hc ▸ hcreated)

/-- The size of the file with the buffer that is flushed. -/
theorem Inv.sizeAfter_eq (h : Inv c r data) :
    r.sizeAfter c = 21 + (c.headerData ++ data).length + (r.log.prepare c).buffSizeToWrite := by
  obtain ⟨-, -, -, -, -, hsize⟩ := LogFile.prepare_data h.buffers
  rw [sizeAfter, hsize]
  congr 1
  cases hc : r.log.created with
  | true => exact h.length_content hc
  | false =>
    rw [(h.missing hc).2, List.append_nil]
    rfl

/-- A flush puts the buffer that waits behind the data. -/
theorem Inv.flush (h : Inv c r data) (hfits : r.Fits c .flush)
    (ht : r.step c .flush = some t) : Inv c t (data ++ (r.log.prepare c).pending) := by
  obtain ⟨pos, empty, hpos, hflush, -⟩ := h.flush_eq
  obtain ⟨hinv, hsome, hdata, -, hcreated, -⟩ := LogFile.prepare_data h.buffers
  have hlen := hinv.length_pending hsome
  obtain ⟨hlimit, hsmall⟩ := hfits
  rw [h.sizeAfter_eq] at hlimit hsmall
  -- The flush is not refused, so that it ends with writing the buffer.
  have hnot : ((r.log.prepare c).ready (LogFile.posLine pos ++ (c.headerData ++ data))
      (21 + (c.headerData ++ data).length) empty).limitReached c = false :=
    decide_eq_false (Nat.not_le.mpr hlimit)
  have hwrite := LogFile.writeBuffer_ready hpos (c.headerData ++ data) [] empty hlen (by omega)
  rw [List.append_nil, List.drop_nil, List.append_nil] at hwrite
  rw [LogFile.writeOut, hnot, if_neg Bool.false_ne_true, hwrite] at hflush
  rw [step] at ht
  obtain ⟨p, hp, rfl⟩ := Option.map_eq_some_iff.mp ht
  obtain rfl := Option.some.inj (hp.symm.trans hflush)
  have hfront : c.headerData ++ (data ++ (r.log.prepare c).pending) =
      c.headerData ++ data ++ (r.log.prepare c).pending := (List.append_assoc _ _ _).symm
  have hlength : 21 + (c.headerData ++ (data ++ (r.log.prepare c).pending)).length =
      21 + (c.headerData ++ data).length + (r.log.prepare c).buffSizeToWrite := by
    rw [hfront, List.length_append, hlen, Nat.add_assoc]
  refine ⟨⟨hinv.length, hinv.currBuffSize_le, ?_⟩, rfl, ?_, ?_, ?_, ?_⟩
  · exact fun i hi => by cases hi
  · change data ++ (r.log.prepare c).pending ++ ([] ++ (r.log.prepare c).current) = r.accepted
    rw [List.nil_append, List.append_assoc, hdata, h.accepted]
  · exact fun hc => absurd (hcreated.symm.trans hc) (by decide)
  · intro _
    rw [hlength, hfront]
  · intro _
    rwa [hlength]

theorem inv_step {a : LogAction} (h : Inv c r data) (hfits : r.Fits c a)
    (ht : r.step c a = some t) : ∃ data', Inv c t data' := by
  cases a with
  | write buffer => exact ⟨data, h.write buffer ht⟩
  | flush => exact ⟨_, h.flush hfits ht⟩

end Steps

/-- **What is written is stored.** Through any sequence of calls of which no flush reaches the
size limit or `2 ^ 31` bytes, every call returns, and the file is the position line, the header
text and the bytes accepted but for those that still wait in the two buffers. -/
theorem always_storedIn (l : List LogAction)
    (hfits : Guarded (step c) (Fits c) (init c) l) :
    (∃ t, run (step c) (init c) l = some t) ∧ Always (step c) (StoredIn c) (init c) l := by
  have hinit : ∃ data, Inv c (init c) data := ⟨[], inv_init⟩
  constructor
  · refine hfits.exists_run (J := fun r => ∃ data, Inv c r data) ?_ ?_ hinit
    · rintro r a ⟨data, h⟩
      exact h.enabled a
    · rintro r a t ⟨data, h⟩ hok ht
      exact inv_step h hok ht
  · have halways := hfits.always (J := fun r => ∃ data, Inv c r data)
      (fun r a t ⟨data, h⟩ hok ht => inv_step h hok ht) hinit
    intro l' t hl' ht
    obtain ⟨data, h⟩ := halways l' t hl' ht
    exact h.storedIn

/-- Two buffers of eight bytes, and a file of at most forty with a line as its header. -/
def sampleConfig : LogConfig where
  isCyclic := false
  maxBuffSize := 8
  maxFileSize := 40
  headerData := Text.toBytes "H\n"
  linesToSkip := 1
  maxBuffSize_lt := by decide
  headerData_lt := by decide

/-- A run in which the second flush writes a buffer while the other holds bytes. -/
theorem always_storedIn_sample :
    Always (step sampleConfig) (StoredIn sampleConfig) (init sampleConfig)
      [.write (Text.toBytes "abcde"), .flush, .write (Text.toBytes "fghi"),
        .write (Text.toBytes "jklmn"), .flush] := by
  have hfits : Guarded (step sampleConfig) (Fits sampleConfig) (init sampleConfig)
      [.write (Text.toBytes "abcde"), .flush, .write (Text.toBytes "fghi"),
        .write (Text.toBytes "jklmn"), .flush] := by decide
  exact (always_storedIn sampleConfig _ hfits).2

end LogRun

end UtilityFramework
