import UtilityFramework.Files.LogFile

/-!
# Flushing a log file

The position line is read back as it was written. From there on a flush is `writeOut` with the
stream where the next buffer goes (`flush_of_position`, `flush_of_no_position`), which puts the
buffer there and the new position into the first line (`writeBuffer_ready`).

* `BufferInv`: the two buffers, of which one may wait to be written.
* `write_cases`, `prepare_data`: no byte is lost on its way through the buffers.
-/

namespace UtilityFramework

open Text

namespace LogFile

/-! ### The position line -/

section PosLine

/-- The characters of a position. -/
theorem mem_leftpad {n : ℕ} {pos : ℕ} {c : Char}
    (h : c ∈ List.leftpad n ' ' (Nat.toDigits 10 pos)) : c = ' ' ∨ c.isDigit := by
  rw [List.leftpad, List.mem_append, List.mem_replicate] at h
  exact h.imp (fun h => h.2)
    fun h => Nat.isDigit_of_mem_toDigits (by decide) (by decide) h

theorem toNat_lt_of_space_or_digit {c : Char} (h : c = ' ' ∨ c.isDigit) :
    32 ≤ c.toNat ∧ c.toNat < 58 := by
  rcases h with rfl | h
  · decide
  · have hdigit := Char.isDigit_iff_toNat.mp h
    have hlo : '0'.toNat = 48 := rfl
    have hhi : '9'.toNat = 57 := rfl
    omega

theorem mem_posText {pos : ℕ} {b : UInt8} (h : b ∈ posText pos) : 32 ≤ b.toNat := by
  rw [posText, toBytes, String.toList_ofList] at h
  obtain ⟨c, hc, rfl⟩ := List.mem_map.mp h
  obtain ⟨hlo, hhi⟩ := toNat_lt_of_space_or_digit (mem_leftpad hc)
  rw [UInt8.toNat_ofNat']
  omega

theorem lineFeed_not_mem_posText (pos : ℕ) : FileStream.lineFeed ∉ posText pos :=
  fun h => absurd (mem_posText h) (by decide)

theorem untilNul_posText (pos : ℕ) : untilNul (posText pos) = posText pos :=
  List.takeWhile_eq_self_iff.mpr fun b hb => decide_eq_true fun h => by
    have := mem_posText hb
    rw [h] at this
    exact absurd this (by decide)

theorem length_posText {pos : ℕ} (h : pos < 10 ^ 20) : (posText pos).length = 20 := by
  have hdigits : (Nat.toDigits 10 pos).length ≤ 20 :=
    (Nat.length_toDigits_le_iff (by decide) (by decide)).mpr h
  rw [posText, toBytes, String.toList_ofList, List.length_map, List.length_leftpad]
  omega

theorem length_posLine {pos : ℕ} (h : pos < 10 ^ 20) : (posLine pos).length = 21 := by
  rw [posLine, List.length_append, length_posText h]
  rfl

theorem ofBytes_posText (pos : ℕ) :
    ofBytes (posText pos) = String.ofList (List.leftpad 20 ' ' (Nat.toDigits 10 pos)) := by
  rw [posText, ofBytes, toBytes, String.toList_ofList, List.map_map]
  congr 1
  conv_rhs => rw [← List.map_id (List.leftpad 20 ' ' (Nat.toDigits 10 pos))]
  refine List.map_congr_left fun c hc => ?_
  obtain ⟨-, hhi⟩ := toNat_lt_of_space_or_digit (mem_leftpad hc)
  have hbyte : (UInt8.ofNat c.toNat).toNat = c.toNat := by
    rw [UInt8.toNat_ofNat']
    omega
  rw [Function.comp_apply, hbyte, Char.ofNat_toNat]
  rfl

/-- White space before a number is skipped. -/
theorem parseInteger_leftpad (n pos : ℕ) :
    Decimal.parseInteger (String.ofList (List.leftpad n ' ' (Nat.toDigits 10 pos))) =
      some (pos : ℤ) := by
  have hsigned : Decimal.signed (String.ofList (List.leftpad n ' ' (Nat.toDigits 10 pos))) =
      Decimal.signed (toString pos) := by
    have hdrop : (List.leftpad n ' ' (Nat.toDigits 10 pos)).dropWhile Decimal.isSpace =
        (Nat.toDigits 10 pos).dropWhile Decimal.isSpace := by
      rw [List.leftpad, List.dropWhile_append_of_pos]
      intro c hc
      rw [(List.mem_replicate.mp hc).2]
      rfl
    rw [Decimal.signed, Decimal.signed, String.toList_ofList, hdrop, Nat.toString_eq_repr,
      Nat.toList_repr]
  have hparse := Decimal.parseInteger_toString (pos : ℤ)
  rw [Decimal.parseInteger] at hparse ⊢
  rw [hsigned]
  exact hparse

/-- Reading a position back. -/
theorem atoi_posText {pos : ℕ} :
    atoi (untilNul (posText pos)) = if pos < 2 ^ 31 then some (pos : ℤ) else none := by
  rw [untilNul_posText, atoi, ofBytes_posText, parseInteger_leftpad, Option.getD_some,
    Option.filter_some]
  refine if_congr ?_ rfl rfl
  rw [decide_eq_true_iff]
  omega

end PosLine

/-! ### What a flush does -/

section Positions

theorem getCyclicFileCurrPos_posLine {pos : ℕ} (h : pos < 10 ^ 20) (tail : List UInt8) (q : ℕ) :
    getCyclicFileCurrPos (.opened (posLine pos ++ tail) q) =
      if pos < 2 ^ 31 then some (.opened (posLine pos ++ tail) 21, pos) else none := by
  have hcontent : posLine pos ++ tail = [] ++ (posText pos ++ FileStream.lineFeed :: tail) := by
    rw [posLine, List.append_assoc, List.singleton_append, List.nil_append]
  have hline : (FileStream.opened (posLine pos ++ tail) 0).getline (fileHeaderLength - 1) =
      (.opened (posLine pos ++ tail) 21, posText pos) := by
    have hget := FileStream.getline_opened (lineFeed_not_mem_posText pos) (length_posText h).le
      [] tail
    rw [length_posText h] at hget
    rw [hcontent]
    exact hget
  rw [getCyclicFileCurrPos, FileStream.seekp_opened _ _ (by decide), hline, atoi_posText]
  change Option.map (fun n : ℤ => (FileStream.opened (posLine pos ++ tail) 21,
    (n % 2 ^ 64).toNat)) (if pos < 2 ^ 31 then some (pos : ℤ) else none) = _
  split_ifs with hpos
  · have hmod : ((pos : ℤ) % 2 ^ 64).toNat = pos := by omega
    rw [Option.map_some, hmod]
  · rfl

/-- An empty file has no position. -/
theorem getCyclicFileCurrPos_nil :
    getCyclicFileCurrPos (.opened [] 0) = some (.opened [] 0, 0) := rfl

/-- Nor is one found when the stream has failed, which makes it good again. -/
theorem getCyclicFileCurrPos_of_failbit (content : List UInt8) (q : ℕ) :
    getCyclicFileCurrPos ⟨content, true, false, true, q⟩ = some (.opened content q, 0) := rfl

theorem setCyclicFileCurrPos_opened (content : List UInt8) (q : ℕ) {pos : ℕ}
    (h : pos < 10 ^ 20) :
    setCyclicFileCurrPos (.opened content q) pos =
      (.opened (FileStream.put content 0 (posLine pos)) 21, 21) := by
  rw [setCyclicFileCurrPos, FileStream.seekp_opened _ _ (by decide), FileStream.write_opened,
    length_posLine h]
  rfl

/-- Writing a position over another. -/
theorem put_posLine {pos pos' : ℕ} (h : pos < 10 ^ 20) (h' : pos' < 10 ^ 20)
    (tail : List UInt8) :
    FileStream.put (posLine pos ++ tail) 0 (posLine pos') = posLine pos' ++ tail :=
  FileStream.put_front ((length_posLine h').trans (length_posLine h).symm) tail

end Positions

section Flush

variable {c : LogConfig} {s : LogFile}

/-- The machine once `flush` has found where to write. -/
def ready (s : LogFile) (content : List UInt8) (pos : ℕ) (empty : Bool) : LogFile :=
  { s with file := .opened content pos, isEmpty := empty, currFileSize := pos }

/-- A flush finds that the file would reach its size limit. -/
def flushReachesLimit (c : LogConfig) (s : LogFile) : Bool :=
  (s.prepare c).repositionToWrite.any fun p => (p.1.writeHeader c).limitReached c

/-- A flush goes on from the given state. -/
def FlushesFrom (c : LogConfig) (s s' : LogFile) : Prop :=
  s.flush c = some (s'.writeOut c) ∧ s.flushReachesLimit c = s'.limitReached c

/-- The rest of a flush of a file that holds a position. -/
theorem flush_of_position {content : List UInt8} {pos q : ℕ}
    (hpos : pos ≠ 0) (hlt : pos < 2 ^ 31)
    (h : getCyclicFileCurrPos (s.prepare c).file = some (.opened content q, pos)) :
    FlushesFrom c s ((s.prepare c).ready content pos false) := by
  have hready : (s.prepare c).repositionToWrite =
      some ((s.prepare c).ready content pos false, pos) := by
    rw [repositionToWrite, h, Option.map_some, if_neg hpos,
      FileStream.seekp_opened _ _ (by omega)]
    rfl
  have hheader : ((s.prepare c).ready content pos false).needsHeader c = false :=
    Bool.and_false _
  constructor
  · rw [flush, hready, Option.map_some, if_neg hpos, writeHeader, hheader]
    rfl
  · rw [flushReachesLimit, hready, Option.any_some, writeHeader, hheader]
    rfl

/-- The rest of a flush of a file that holds no position: the position line and the header text
are written. -/
theorem flush_of_no_position (content : List UInt8) (q : ℕ)
    (h : getCyclicFileCurrPos (s.prepare c).file = some (.opened content q, 0)) :
    FlushesFrom c s ((s.prepare c).ready
      (FileStream.put (FileStream.put content 0 (posLine 21)) 21 c.headerData)
      (21 + c.headerData.length) c.headerData.isEmpty) := by
  have hready : (s.prepare c).repositionToWrite =
      some ((s.prepare c).ready (FileStream.put content 0 (posLine 21)) 21 true, 21) := by
    rw [repositionToWrite, h, Option.map_some, if_pos rfl]
    simp only [fileHeaderLength, setCyclicFileCurrPos_opened _ _ (show 21 < 10 ^ 20 by decide)]
    rfl
  have hheader : ((s.prepare c).ready (FileStream.put content 0 (posLine 21)) 21
      true).writeHeader c = (s.prepare c).ready
        (FileStream.put (FileStream.put content 0 (posLine 21)) 21 c.headerData)
        (21 + c.headerData.length) c.headerData.isEmpty := by
    cases hdata : c.headerData with
    | nil =>
      have hno : ((s.prepare c).ready (FileStream.put content 0 (posLine 21)) 21
          true).needsHeader c = false := by
        rw [needsHeader, hdata]
        rfl
      rw [writeHeader, hno]
      rfl
    | cons b header =>
      have hyes : ((s.prepare c).ready (FileStream.put content 0 (posLine 21)) 21
          true).needsHeader c = true := by
        rw [needsHeader, hdata]
        rfl
      rw [writeHeader, hyes, hdata]
      rfl
  have hgood : ((s.prepare c).ready
      (FileStream.put (FileStream.put content 0 (posLine 21)) 21 c.headerData)
      (21 + c.headerData.length) c.headerData.isEmpty).file.failbit = false := rfl
  constructor
  · rw [flush, hready, Option.map_some]
    dsimp only
    rw [if_neg (by decide), hheader, hgood, Bool.and_false, if_neg Bool.false_ne_true]
  · rw [flushReachesLimit, hready, Option.any_some, hheader]

/-- A flush that opens the file goes to the end of `front`: the header text of a file that is
empty, or what lies before the position that the file holds. -/
theorem flush_of_closed (hclosed : s.file.isOpen = false)
    (hfile : (s.prepare c).file = s.file.openFile) (front back : List UInt8)
    (h : (s.file.content = [] ∧ front = c.headerData ∧ back = []) ∨
      (s.file.content = posLine (21 + front.length) ++ (front ++ back) ∧
        21 + front.length < 2 ^ 31)) :
    ∃ pos empty, pos < 10 ^ 20 ∧ FlushesFrom c s ((s.prepare c).ready
      (posLine pos ++ (front ++ back)) (21 + front.length) empty) := by
  have hopen : (s.prepare c).file = .opened s.file.content 0 := by
    rw [hfile, FileStream.openFile, hclosed]
    rfl
  rcases h with ⟨hcontent, rfl, rfl⟩ | ⟨hcontent, hlt⟩
  · have hflush := flush_of_no_position (c := c) (s := s) [] 0
      (by rw [hopen, hcontent]; exact getCyclicFileCurrPos_nil)
    have hline : FileStream.put [] 0 (posLine 21) = posLine 21 := by
      have happend := FileStream.put_append [] [] (posLine 21)
      rwa [List.drop_nil, List.append_nil, List.append_nil] at happend
    have hheader : FileStream.put (posLine 21) 21 c.headerData =
        posLine 21 ++ (c.headerData ++ []) := by
      have happend := FileStream.put_append (posLine 21) [] c.headerData
      rwa [List.drop_nil, List.append_nil, length_posLine (by decide)] at happend
    rw [hline, hheader] at hflush
    exact ⟨21, _, by decide, hflush⟩
  · refine ⟨21 + front.length, _, by omega, flush_of_position (q := 21) (by omega) hlt ?_⟩
    rw [hopen, hcontent, getCyclicFileCurrPos_posLine (by omega), if_pos hlt]

/-- Writing the buffer behind what is in front of the position. -/
theorem writeBuffer_ready {pos : ℕ} (hpos : pos < 10 ^ 20) (front back : List UInt8)
    (empty : Bool) (hlen : s.pending.length = s.buffSizeToWrite)
    (hsum : 21 + front.length + s.buffSizeToWrite < 10 ^ 20) :
    (s.ready (posLine pos ++ (front ++ back)) (21 + front.length) empty).writeBuffer =
      ({ s with
        file := ⟨posLine (21 + front.length + s.buffSizeToWrite) ++
          (front ++ (s.pending ++ back.drop s.buffSizeToWrite)), false, false, false, 21⟩
        isEmpty := empty
        currFileSize := 21 + front.length + s.buffSizeToWrite
        buffToWrite := none
        buffSizeToWrite := 0 }, true) := by
  -- First the buffer, then the position line at the front.
  have hput : FileStream.put (posLine pos ++ (front ++ back)) (21 + front.length) s.pending =
      posLine pos ++ (front ++ (s.pending ++ back.drop s.buffSizeToWrite)) := by
    have happend := FileStream.put_append (posLine pos ++ front) back s.pending
    rwa [List.length_append, length_posLine hpos, hlen, List.append_assoc,
      List.append_assoc] at happend
  have hwrite : (s.ready (posLine pos ++ (front ++ back)) (21 + front.length) empty).file.write
      s.pending = .opened (posLine pos ++ (front ++ (s.pending ++ back.drop s.buffSizeToWrite)))
        (21 + front.length + s.buffSizeToWrite) := by
    rw [ready, FileStream.write_opened, hput, hlen]
  have hset := setCyclicFileCurrPos_opened
    (posLine pos ++ (front ++ (s.pending ++ back.drop s.buffSizeToWrite)))
    (21 + front.length + s.buffSizeToWrite) hsum
  rw [put_posLine hpos hsum] at hset
  have hpending : (s.ready (posLine pos ++ (front ++ back)) (21 + front.length) empty).pending =
      s.pending := rfl
  rw [writeBuffer, hpending, hwrite, FileStream.failbit_opened, if_neg Bool.false_ne_true]
  change ({ s with
    file := (setCyclicFileCurrPos _ (21 + front.length + s.buffSizeToWrite)).1.close
    isEmpty := empty
    currFileSize := _
    buffToWrite := none
    buffSizeToWrite := 0 }, true) = _
  rw [hset]
  rfl

end Flush

/-! ### The buffers -/

/-- The bytes in the active buffer. -/
def current (s : LogFile) : List UInt8 := (s.buffers s.currBuff).take s.currBuffSize

/-- What holds of the buffers: the one that waits to be written is not the active one. -/
structure BufferInv (c : LogConfig) (s : LogFile) : Prop where
  length : ∀ i, (s.buffers i).length = c.maxBuffSize
  currBuffSize_le : s.currBuffSize ≤ c.maxBuffSize
  buffToWrite : ∀ i ∈ s.buffToWrite, i = s.currBuff + 1 ∧ s.buffSizeToWrite ≤ c.maxBuffSize

section Buffers

variable {c : LogConfig} {s : LogFile}

theorem bufferInv_new (c : LogConfig) (content : Option (List UInt8)) :
    BufferInv c (new c content) where
  length _ := List.length_replicate
  currBuffSize_le := Nat.zero_le _
  buffToWrite _ h := by cases h

theorem BufferInv.length_pending (h : BufferInv c s) (hsome : s.buffToWrite.isSome) :
    s.pending.length = s.buffSizeToWrite := by
  obtain ⟨i, hi⟩ := Option.isSome_iff_exists.mp hsome
  rw [pending, hi]
  dsimp only
  rw [List.length_take, h.length]
  exact Nat.min_eq_left (h.buffToWrite i hi).2

theorem buffers_switchBuffers (c : LogConfig) (s : LogFile) :
    (s.switchBuffers c).buffers =
      Function.update s.buffers (s.currBuff + 1) (List.replicate c.maxBuffSize 0) := rfl

theorem buffers_append (s : LogFile) (buffer : List UInt8) :
    (s.append buffer).buffers = Function.update s.buffers s.currBuff
      (Bytes.blit (s.buffers s.currBuff) s.currBuffSize buffer) := rfl

theorem add_one_ne_self (i : Fin 2) : i + 1 ≠ i := by
  revert i
  decide

/-- Switching the buffers lets the active one wait. -/
theorem BufferInv.switchBuffers (h : BufferInv c s) :
    BufferInv c (s.switchBuffers c) ∧ (s.switchBuffers c).pending = s.current ∧
      (s.switchBuffers c).current = [] := by
  refine ⟨⟨fun i => ?_, Nat.zero_le _, ?_⟩, ?_, List.take_zero⟩
  · rw [buffers_switchBuffers]
    by_cases hi : i = s.currBuff + 1
    · rw [hi, Function.update_self, List.length_replicate]
    · rw [Function.update_of_ne hi, h.length]
  · rintro i hi
    obtain rfl := Option.some.inj hi
    refine ⟨?_, h.currBuffSize_le⟩
    change s.currBuff = s.currBuff + 1 + 1
    generalize s.currBuff = i
    revert i
    decide
  · change ((s.switchBuffers c).buffers s.currBuff).take s.currBuffSize = s.current
    rw [buffers_switchBuffers, Function.update_of_ne (add_one_ne_self s.currBuff).symm, current]

/-- What fits the active buffer is appended to it. -/
theorem BufferInv.append (h : BufferInv c s) {buffer : List UInt8}
    (hfit : s.currBuffSize + buffer.length ≤ c.maxBuffSize) :
    BufferInv c (s.append buffer) ∧ (s.append buffer).pending = s.pending ∧
      (s.append buffer).current = s.current ++ buffer := by
  have hlen := h.length s.currBuff
  refine ⟨⟨fun i => ?_, hfit, h.buffToWrite⟩, ?_, ?_⟩
  · rw [buffers_append]
    by_cases hi : i = s.currBuff
    · rw [hi, Function.update_self, Bytes.length_blit (hlen ▸ hfit), hlen]
    · rw [Function.update_of_ne hi, h.length]
  · cases hw : s.buffToWrite with
    | none =>
      rw [pending, pending, show (s.append buffer).buffToWrite = none from hw, hw]
    | some i =>
      obtain ⟨rfl, -⟩ := h.buffToWrite i hw
      rw [pending, pending, show (s.append buffer).buffToWrite = some _ from hw, hw,
        buffers_append]
      dsimp only
      rw [Function.update_of_ne (add_one_ne_self s.currBuff)]
      rfl
  · change ((s.append buffer).buffers s.currBuff).take (s.currBuffSize + buffer.length) = _
    rw [buffers_append, Function.update_self, Bytes.blit]
    have htake : ((s.buffers s.currBuff).take s.currBuffSize ++ buffer).length =
        s.currBuffSize + buffer.length := by
      rw [List.length_append, List.length_take, hlen, Nat.min_eq_left h.currBuffSize_le]
    rw [← htake, List.take_left]
    rfl

/-- **Writing.** A write is refused and changes nothing, or its bytes are appended to what waits
in the buffers. -/
theorem write_cases (h : BufferInv c s) (buffer : List UInt8) :
    s.write c buffer = (s, 0) ∨
      ∃ s', s.write c buffer = (s', buffer.length) ∧ buffer.length ≠ 0 ∧ BufferInv c s' ∧
        s'.pending ++ s'.current = s.pending ++ s.current ++ buffer ∧
        s'.file = s.file ∧ s'.created = s.created ∧
        (s.buffToWrite.isSome → s'.buffToWrite = s.buffToWrite ∧
          s'.buffSizeToWrite = s.buffSizeToWrite ∧ s'.pending = s.pending) := by
  rw [write]
  split_ifs with hsize hover hsome
  · exact .inl rfl
  · exact .inl rfl
  · rw [not_or, Nat.not_le] at hsize
    obtain ⟨hinv, hpending, hcurrent⟩ := h.switchBuffers
    have hfit : (s.switchBuffers c).currBuffSize + buffer.length ≤ c.maxBuffSize := by
      change 0 + buffer.length ≤ c.maxBuffSize
      omega
    obtain ⟨hinv', hpending', hcurrent'⟩ := hinv.append hfit
    have hnone : s.pending = [] := by
      rw [pending]
      split
      · rename_i i hi
        rw [hi] at hsome
        exact absurd rfl hsome
      · rfl
    refine .inr ⟨_, rfl, hsize.1, hinv', ?_, rfl, rfl, fun h => absurd h hsome⟩
    rw [hpending', hcurrent', hpending, hcurrent, hnone, List.nil_append, List.nil_append]
  · rw [not_or, Nat.not_le] at hsize
    obtain ⟨hinv', hpending', hcurrent'⟩ := h.append (Nat.not_lt.mp hover)
    refine .inr ⟨_, rfl, hsize.1, hinv', ?_, rfl, rfl, fun _ => ⟨rfl, rfl, hpending'⟩⟩
    rw [hpending', hcurrent', List.append_assoc]

/-- What `flush` finds in the buffers: one that waits to be written, and the other. -/
theorem prepare_data (h : BufferInv c s) :
    BufferInv c (s.prepare c) ∧ (s.prepare c).buffToWrite.isSome ∧
      (s.prepare c).pending ++ (s.prepare c).current = s.pending ++ s.current ∧
      (s.prepare c).file = s.file.openFile ∧ (s.prepare c).created = true ∧
      (s.prepare c).buffSizeToWrite =
        if s.buffToWrite.isSome then s.buffSizeToWrite else s.currBuffSize := by
  cases hw : s.buffToWrite with
  | none =>
    have heq : s.prepare c = LogFile.switchBuffers c
        { s with created := true, file := s.file.openFile } := by
      rw [prepare]
      exact if_pos hw
    have hinv : BufferInv c { s with created := true, file := s.file.openFile } :=
      ⟨h.length, h.currBuffSize_le, h.buffToWrite⟩
    obtain ⟨hinv', hpending, hcurrent⟩ := hinv.switchBuffers
    have hnone : s.pending = [] := by
      rw [pending, hw]
    rw [heq]
    refine ⟨hinv', rfl, ?_, rfl, rfl, rfl⟩
    rw [hpending, hcurrent, hnone, List.append_nil, List.nil_append]
    rfl
  | some i =>
    have heq : s.prepare c = { s with created := true, file := s.file.openFile } := by
      rw [prepare]
      exact if_neg (by rw [hw]; rintro ⟨⟩)
    rw [heq]
    exact ⟨⟨h.length, h.currBuffSize_le, h.buffToWrite⟩, by rw [hw]; rfl, rfl, rfl, rfl, rfl⟩

end Buffers

end LogFile

end UtilityFramework
