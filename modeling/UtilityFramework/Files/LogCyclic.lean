import UtilityFramework.Files.LogStored

/-!
# Cyclic log files

A cyclic file that would reach its size limit is restarted: its lines are read again up to the
end of the header text, and the buffer goes there. If the header text consists of as many lines
as are skipped, and a buffer fits behind it, the position line always tells where the buffers
flushed since the last restart end, and the header text stays as it is.
-/

namespace UtilityFramework

open Transition

/-- A log file, the buffers flushed since the file was last restarted, and whether `flush` has
been called. -/
structure CyclicRun where
  log : LogFile
  flushed : List UInt8
  flushCalled : Bool

/-- The header text consists of the lines that are skipped. -/
def LogConfig.HeaderLines (c : LogConfig) : Prop :=
  ∃ lines : List (List UInt8), lines.length = c.linesToSkip.toNat ∧
    (∀ line ∈ lines, FileStream.lineFeed ∉ line) ∧
    c.headerData = FileStream.unlines lines

namespace CyclicRun

variable (c : LogConfig)

/-- A log file whose file does not exist. -/
def init : CyclicRun := ⟨.new c none, [], false⟩

/-- One call. A flush that finds the size limit reached restarts the file. -/
def step (r : CyclicRun) : LogAction → Option CyclicRun
  | .write buffer => some { r with log := (r.log.write c buffer).1 }
  | .flush =>
    (r.log.flush c).map fun p =>
      { log := p.1
        flushed :=
          if r.log.flushReachesLimit c then (r.log.prepare c).pending
          else r.flushed ++ (r.log.prepare c).pending
        flushCalled := true }

/-- The file exists as soon as `flush` has been called; before that nothing has been flushed. It
is a position line, the header text and the buffers flushed since the last restart, which end at
the position, and perhaps older data. It does not exceed the size limit. -/
structure Cycled (r : CyclicRun) : Prop where
  created : r.log.created = r.flushCalled
  missing : r.log.created = false → r.log.file.content = [] ∧ r.flushed = []
  file : r.log.created = true → ∃ pos rest,
    r.log.file.content = LogFile.posLine pos ++ (c.headerData ++ (r.flushed ++ rest)) ∧
    (LogFile.posLine pos).length = 21 ∧
    pos = 21 + c.headerData.length + r.flushed.length ∧
    pos ≤ c.maxFileSize ∧ r.log.file.content.length ≤ c.maxFileSize

/-- What holds between two calls. -/
structure Inv (r : CyclicRun) : Prop where
  buffers : LogFile.BufferInv c r.log
  closed : r.log.file.isOpen = false
  created : r.log.created = r.flushCalled
  missing : r.log.created = false → r.log.file.content = [] ∧ r.flushed = []
  file : r.log.created = true → ∃ rest, r.log.file.content =
    LogFile.posLine (21 + (c.headerData ++ r.flushed).length) ++
      ((c.headerData ++ r.flushed) ++ rest)
  position_le : 21 + (c.headerData ++ r.flushed).length ≤ c.maxFileSize
  length_le : r.log.file.content.length ≤ c.maxFileSize

section Restart

variable {c}

/-- Skipping lines that are there. -/
theorem skipLines_unlines {lines : List (List UInt8)}
    (hlines : ∀ line ∈ lines, FileStream.lineFeed ∉ line) (before tail : List UInt8)
    (bytesCount : ℕ) (hmax : bytesCount + (FileStream.unlines lines).length ≤ c.maxFileSize) :
    LogFile.skipLines c lines.length
        (.opened (before ++ (FileStream.unlines lines ++ tail)) before.length) bytesCount =
      (.opened (before ++ (FileStream.unlines lines ++ tail))
          (before.length + (FileStream.unlines lines).length),
        some (bytesCount + (FileStream.unlines lines).length)) := by
  induction lines generalizing before bytesCount with
  | nil => rfl
  | cons line lines ih =>
    rw [FileStream.length_unlines_cons] at hmax
    have hcontent : before ++ (FileStream.unlines (line :: lines) ++ tail) =
        before ++ (line ++ FileStream.lineFeed :: (FileStream.unlines lines ++ tail)) := by
      rw [FileStream.unlines_cons, List.append_assoc, List.cons_append]
    have hnext : before ++ (line ++ FileStream.lineFeed :: (FileStream.unlines lines ++ tail)) =
        (before ++ (line ++ [FileStream.lineFeed])) ++ (FileStream.unlines lines ++ tail) := by
      simp only [List.append_assoc, List.cons_append, List.nil_append]
    have hlen : (before ++ (line ++ [FileStream.lineFeed])).length =
        before.length + line.length + 1 := by
      rw [List.length_append, List.length_append, Nat.add_assoc]
      rfl
    have hget := FileStream.getLine_opened (hlines line List.mem_cons_self) before
      (FileStream.unlines lines ++ tail)
    have hrest := ih (fun l hl => hlines l (List.mem_cons_of_mem line hl))
      (before ++ (line ++ [FileStream.lineFeed])) (bytesCount + (line.length + 1)) (by omega)
    rw [hcontent, List.length_cons, LogFile.skipLines, hget]
    -- The limit is tested before the line is counted.
    have hno : ¬ c.maxFileSize < bytesCount := by omega
    change (if (false || false || decide (c.maxFileSize < bytesCount)) = true then _ else
      LogFile.skipLines c lines.length _ (bytesCount + (line.length + 1))) = _
    rw [decide_eq_false hno, Bool.or_false, Bool.or_false, if_neg Bool.false_ne_true,
      FileStream.length_unlines_cons, hnext, ← hlen, hrest,
      hlen]
    congr 2 <;> omega

/-- A restart goes to the end of the header text. -/
theorem restart_ready (hheader : c.HeaderLines) {pos : ℕ} (hpos : pos < 10 ^ 20)
    (hmax : 21 + c.headerData.length ≤ c.maxFileSize) (hlt : c.maxFileSize < 2 ^ 31)
    (s : LogFile) (rest : List UInt8) (q : ℕ) (empty : Bool) :
    (s.ready (LogFile.posLine pos ++ (c.headerData ++ rest)) q empty).restart c =
      s.ready (LogFile.posLine pos ++ (c.headerData ++ rest)) (21 + c.headerData.length)
        empty := by
  obtain ⟨lines, hcount, hlines, hdata⟩ := hheader
  have htext : FileStream.unlines (LogFile.posText pos :: lines) =
      LogFile.posLine pos ++ c.headerData := by
    rw [FileStream.unlines_cons, hdata, LogFile.posLine, List.append_assoc]
    rfl
  have hlen : (FileStream.unlines (LogFile.posText pos :: lines)).length =
      21 + c.headerData.length := by
    rw [htext, List.length_append, LogFile.length_posLine hpos]
  have hall : ∀ line ∈ LogFile.posText pos :: lines, FileStream.lineFeed ∉ line :=
    List.forall_mem_cons.mpr ⟨LogFile.lineFeed_not_mem_posText pos, hlines⟩
  have hskip := skipLines_unlines (c := c) hall [] rest 0 (by omega)
  rw [hlen, htext, List.length_cons, hcount, List.nil_append, List.append_assoc, List.length_nil,
    Nat.zero_add] at hskip
  have hfile : LogFile.restartFile c
      (.opened (LogFile.posLine pos ++ (c.headerData ++ rest)) q) true =
      (.opened (LogFile.posLine pos ++ (c.headerData ++ rest)) (21 + c.headerData.length),
        21 + c.headerData.length) := by
    rw [LogFile.restartFile, FileStream.seekp_opened _ _ (by decide), if_pos rfl, hskip]
    dsimp only
    rw [FileStream.seekp_opened _ _ (by omega)]
  rw [LogFile.restart, LogFile.ready]
  dsimp only
  rw [hfile]
  rfl

end Restart

section Steps

variable {c} {r t : CyclicRun}

theorem Inv.cycled (h : Inv c r) (hlt : c.maxFileSize < 2 ^ 31) : Cycled c r := by
  refine ⟨h.created, h.missing, fun hcreated => ?_⟩
  obtain ⟨rest, hfile⟩ := h.file hcreated
  have hle := h.position_le
  refine ⟨_, rest, ?_, LogFile.length_posLine (by omega), ?_, hle, h.length_le⟩
  · rw [hfile, List.append_assoc]
  · rw [List.length_append, Nat.add_assoc]

theorem inv_init (hmax : 21 + c.headerData.length ≤ c.maxFileSize) : Inv c (init c) where
  buffers := LogFile.bufferInv_new c none
  closed := rfl
  created := rfl
  missing _ := ⟨rfl, rfl⟩
  file h := by cases h
  position_le := by
    rw [init, List.append_nil]
    exact hmax
  length_le := Nat.zero_le _

/-- What a flush begins with. -/
theorem Inv.flush_eq (h : Inv c r) (hlt : c.maxFileSize < 2 ^ 31) : ∃ pos empty rest,
    pos < 10 ^ 20 ∧ 21 + (c.headerData ++ r.flushed).length + rest.length ≤ c.maxFileSize ∧
      LogFile.FlushesFrom c r.log ((r.log.prepare c).ready
        (LogFile.posLine pos ++ ((c.headerData ++ r.flushed) ++ rest))
        (21 + (c.headerData ++ r.flushed).length) empty) := by
  obtain ⟨-, -, -, hfile, -⟩ := LogFile.prepare_data h.buffers
  have hle := h.position_le
  cases hcreated : r.log.created with
  | true =>
    obtain ⟨rest, hcontent⟩ := h.file hcreated
    obtain ⟨pos, empty, hpos, hflush⟩ :=
      LogFile.flush_of_closed h.closed hfile _ _ (.inr ⟨hcontent, by omega⟩)
    have hlength := h.length_le
    rw [hcontent, List.length_append, LogFile.length_posLine (by omega), List.length_append,
      ← Nat.add_assoc] at hlength
    exact ⟨pos, empty, rest, hpos, hlength, hflush⟩
  | false =>
    obtain ⟨hcontent, hflushed⟩ := h.missing hcreated
    obtain ⟨pos, empty, hpos, hflush⟩ := LogFile.flush_of_closed h.closed hfile _ []
      (.inl ⟨hcontent, (congrArg (c.headerData ++ ·) hflushed).trans (List.append_nil _), rfl⟩)
    exact ⟨pos, empty, [], hpos, hle, hflush⟩

theorem Inv.enabled (h : Inv c r) (hlt : c.maxFileSize < 2 ^ 31) (a : LogAction) :
    ∃ t, r.step c a = some t := by
  cases a with
  | write buffer => exact ⟨_, rfl⟩
  | flush =>
    obtain ⟨pos, empty, rest, -, -, hflush, -⟩ := h.flush_eq hlt
    exact ⟨_, by rw [step, hflush]; rfl⟩

/-- Writing the buffer behind the buffers flushed before. -/
theorem inv_writeBuffer {s : LogFile} (hinv : LogFile.BufferInv c s)
    (hsome : s.buffToWrite.isSome) (hcreated : s.created = true)
    (hlt : c.maxFileSize < 2 ^ 31) {pos : ℕ} (hpos : pos < 10 ^ 20) (flushed rest : List UInt8)
    (hfits : 21 + (c.headerData ++ flushed).length + s.buffSizeToWrite ≤ c.maxFileSize)
    (hlength : 21 + (c.headerData ++ flushed).length + rest.length ≤ c.maxFileSize)
    (empty : Bool) :
    Inv c ⟨(s.ready (LogFile.posLine pos ++ ((c.headerData ++ flushed) ++ rest))
      (21 + (c.headerData ++ flushed).length) empty).writeBuffer.1, flushed ++ s.pending,
      true⟩ := by
  have hlen := hinv.length_pending hsome
  have hfront : c.headerData ++ (flushed ++ s.pending) = c.headerData ++ flushed ++ s.pending :=
    (List.append_assoc _ _ _).symm
  have hposition : 21 + (c.headerData ++ (flushed ++ s.pending)).length =
      21 + (c.headerData ++ flushed).length + s.buffSizeToWrite := by
    rw [hfront, List.length_append, hlen, Nat.add_assoc]
  rw [LogFile.writeBuffer_ready hpos _ _ _ hlen (by omega)]
  refine ⟨⟨hinv.length, hinv.currBuffSize_le, ?_⟩, rfl, hcreated, ?_, ?_, ?_, ?_⟩
  · exact fun i hi => by cases hi
  · exact fun hc => absurd (hcreated.symm.trans hc) (by decide)
  · intro _
    refine ⟨rest.drop s.buffSizeToWrite, ?_⟩
    rw [hposition, hfront, List.append_assoc _ s.pending]
  · rwa [hposition]
  · change (LogFile.posLine (21 + (c.headerData ++ flushed).length + s.buffSizeToWrite) ++
      ((c.headerData ++ flushed) ++ (s.pending ++ rest.drop s.buffSizeToWrite))).length ≤ _
    have hover : (s.pending ++ rest.drop s.buffSizeToWrite).length =
        s.buffSizeToWrite + (rest.length - s.buffSizeToWrite) := by
      rw [List.length_append, hlen, List.length_drop]
    rw [List.length_append, LogFile.length_posLine (by omega), List.length_append, hover]
    omega

theorem inv_step (hcyclic : c.isCyclic = true) (hheader : c.HeaderLines)
    (hmax : 21 + c.headerData.length + c.maxBuffSize < c.maxFileSize)
    (hlt : c.maxFileSize < 2 ^ 31) {a : LogAction} (h : Inv c r) (ht : r.step c a = some t) :
    Inv c t := by
  cases a with
  | write buffer =>
    obtain rfl := Option.some.inj ht
    rcases LogFile.write_cases h.buffers buffer with heq | ⟨s', heq, -, hinv, -, hf, hc, -⟩
    · rw [heq]
      exact h
    · rw [heq]
      exact ⟨hinv, hf ▸ h.closed, hc.trans h.created,
        fun hcreated => hf ▸ h.missing (hc ▸ hcreated),
        fun hcreated => hf ▸ h.file (hc ▸ hcreated), h.position_le, hf ▸ h.length_le⟩
  | flush =>
    obtain ⟨pos, empty, rest, hpos, hlength, hflush, hreaches⟩ := h.flush_eq hlt
    obtain ⟨hinv, hsome, -, -, hcreated, -⟩ := LogFile.prepare_data h.buffers
    rw [step] at ht
    obtain ⟨p, hp, rfl⟩ := Option.map_eq_some_iff.mp ht
    obtain rfl := Option.some.inj (hp.symm.trans hflush)
    rw [LogFile.writeOut, ← hreaches]
    cases hlimit : r.log.flushReachesLimit c with
    | false =>
      rw [hlimit] at hreaches
      have hfits := of_decide_eq_false hreaches.symm
      exact inv_writeBuffer hinv hsome hcreated hlt hpos _ _ (Nat.not_le.mp hfits).le hlength
        empty
    | true =>
      have hsize : (r.log.prepare c).buffSizeToWrite ≤ c.maxBuffSize := by
        obtain ⟨i, hi⟩ := Option.isSome_iff_exists.mp hsome
        exact (hinv.buffToWrite i hi).2
      -- The restarted file goes on behind the header text, over the data flushed so far.
      have hrestart := restart_ready hheader hpos (by omega) hlt (r.log.prepare c)
        (r.flushed ++ rest) (21 + (c.headerData ++ r.flushed).length) empty
      have hwrite := inv_writeBuffer hinv hsome hcreated hlt hpos [] (r.flushed ++ rest)
        (by rw [List.append_nil]; omega)
        (by rw [List.append_nil, List.length_append, ← Nat.add_assoc, Nat.add_assoc 21,
          ← List.length_append]; exact hlength) empty
      rw [List.append_nil, List.nil_append] at hwrite
      rw [if_pos rfl, if_pos hcyclic, List.append_assoc, hrestart]
      exact hwrite

end Steps

/-- **Cyclic log files.** If the header text consists of the lines that are skipped, and a buffer
fits behind it, then through any sequence of calls every call returns, and the file, which exists
from the first flush on, is the position line, the header text, the buffers flushed since the
last restart up to the position, and what is left of older data, within the size limit. -/
theorem always_cycled (hcyclic : c.isCyclic = true) (hheader : c.HeaderLines)
    (hmax : 21 + c.headerData.length + c.maxBuffSize < c.maxFileSize)
    (hlt : c.maxFileSize < 2 ^ 31) (l : List LogAction) :
    (∃ t, run (step c) (init c) l = some t) ∧ Always (step c) (Cycled c) (init c) l := by
  have hinit : Inv c (init c) := inv_init (by omega)
  have hguard : Guarded (step c) (fun _ _ => True) (init c) l :=
    Guarded.of_forall (fun _ _ _ => trivial) _
  constructor
  · exact hguard.exists_run (J := Inv c) (fun _ a h => h.enabled hlt a)
      (fun _ _ _ h _ ht => inv_step hcyclic hheader hmax hlt h ht) hinit
  · intro l' t _ ht
    exact (run_invariant ht (J := Inv c)
      (fun _ _ _ h hstep => inv_step hcyclic hheader hmax hlt h hstep) hinit).cycled hlt

/-- A cyclic file whose header is one line. -/
def sampleConfig : LogConfig :=
  { LogRun.sampleConfig with isCyclic := true }

/-- A run that restarts the file. -/
theorem always_cycled_sample :
    Always (step sampleConfig) (Cycled sampleConfig) (init sampleConfig)
      [.write (Text.toBytes "abcdefg"), .flush, .write (Text.toBytes "hijklmn"), .flush,
        .write (Text.toBytes "opqrstu"), .flush] :=
  (always_cycled sampleConfig rfl ⟨[Text.toBytes "H"], rfl, by decide, rfl⟩ (by decide)
    (by decide) _).2

end CyclicRun

end UtilityFramework
