import UtilityFramework.Communication.TextEncodings

/-!
# The opening handshake of the WebSocket client

The client sends a nonce and reads the response of the server up to the empty line. It goes on if
the status is `101` and the header field `Sec-WebSocket-Accept` is the encoded SHA-1 digest of
the nonce and a constant. `sha1::calc` gives the digest as a `char*`, and the decoded field, a
string, is compared with it: the comparison takes the digest for a C string, which ends at its
first zero byte.

So a server that answers as it should is accepted only if the digest has no zero byte
(`upgrade_honestResponse`). What the response has behind the empty line is then left to the
reader of messages.
-/

namespace UtilityFramework

/-! ### SHA-1 -/

namespace Sha1

/-- The five words `a` to `e`, and `result`. -/
structure Words where
  a : UInt32
  b : UInt32
  c : UInt32
  d : UInt32
  e : UInt32

/-- `rol`. -/
def rol (value steps : UInt32) : UInt32 := (value <<< steps) ||| (value >>> (32 - steps))

/-- `sha1macro`. -/
def sha1macro (s : Words) (func val w : UInt32) : Words :=
  let t := rol s.a 5 + func + s.e + val + w
  ⟨t, s.a, rol s.b 30, s.c, s.d⟩

/-- One round of `innerHash`, with the round buffer. -/
def innerRound (sw : Words × List UInt32) (round : ℕ) : Words × List UInt32 :=
  let s := sw.1
  let word (i : ℕ) := sw.2.getD i 0
  let w := if round < 16 then sw.2
    else sw.2.set round
      (rol (word (round - 3) ^^^ word (round - 8) ^^^ word (round - 14) ^^^ word (round - 16)) 1)
  let x := w.getD round 0
  if round < 20 then ( sha1macro s ((s.b &&& s.c) ||| (~~~s.b &&& s.d)) 0x5a827999 x, w)
  else if round < 40 then ( sha1macro s (s.b ^^^ s.c ^^^ s.d) 0x6ed9eba1 x, w)
  else if round < 60 then
    ( sha1macro s ((s.b &&& s.c) ||| (s.b &&& s.d) ||| (s.c &&& s.d)) 0x8f1bbcdc x, w)
  else ( sha1macro s (s.b ^^^ s.c ^^^ s.d) 0xca62c1d6 x, w)

/-- `innerHash`. -/
def innerHash (result : Words) (w : List UInt32) : Words × List UInt32 :=
  let (s, w) := (List.range 80).foldl innerRound (result, w)
  (⟨result.a + s.a, result.b + s.b, result.c + s.c, result.d + s.d, result.e + s.e⟩, w)

/-- `clearWBuffert`. -/
def clearWBuffert (w : List UInt32) : List UInt32 := List.replicate 16 0 ++ w.drop 16

/-- The word at position `i` of a block. -/
def blockWord (block : List UInt8) (i : ℕ) : UInt32 :=
  let byte (k : ℕ) := (block.getD (4 * i + k) 0).toUInt32
  byte 3 ||| (byte 2 <<< 8) ||| (byte 1 <<< 16) ||| (byte 0 <<< 24)

/-- A full block is hashed. -/
def fullBlock (src : List UInt8) (sw : Words × List UInt32) (k : ℕ) : Words × List UInt32 :=
  innerHash sw.1 ((List.range 16).map (blockWord (src.drop (64 * k))) ++ sw.2.drop 16)

/-- A byte of the last block is put into its word. -/
def putByte (w : List UInt32) (i : ℕ) (byte : UInt32) : List UInt32 :=
  w.set (i / 4) (w.getD (i / 4) 0 ||| byte <<< UInt32.ofNat ((3 - i % 4) * 8))

/-- `sha1::calc`: the 20 bytes that are stored in `hash`. -/
def sha1Calc (src : List UInt8) : List UInt8 :=
  let start : Words := ⟨0x67452301, 0xefcdab89, 0x98badcfe, 0x10325476, 0xc3d2e1f0⟩
  let (result, w) :=
    (List.range (src.length / 64)).foldl (fullBlock src) (start, List.replicate 80 0)
  let last := src.drop (64 * (src.length / 64))
  let w := last.zipIdx.foldl (fun w byte => putByte w byte.2 byte.1.toUInt32) (clearWBuffert w)
  let w := putByte w last.length 0x80
  let (result, w) := if 56 ≤ last.length then
      let (result, w) := innerHash result w
      (result, clearWBuffert w)
    else (result, w)
  let (result, _) := innerHash result (w.set 15 (UInt32.ofNat src.length <<< 3))
  (List.range 20).map fun hashByte =>
    let word := [result.a, result.b, result.c, result.d, result.e].getD (hashByte / 4) 0
    (word >>> UInt32.ofNat ((3 - hashByte % 4) * 8)).toUInt8

end Sha1

/-! ### The response -/

namespace WebSocket

/-- `getline`. -/
def getline (stream : List UInt8) : Option (List UInt8 × List UInt8) :=
  if stream = [] then none
  else some (stream.takeWhile (· ≠ 10), (stream.dropWhile (· ≠ 10)).drop 1)

/-- `line.find(c)`. -/
def find (c : UInt8) (line : List UInt8) : Option ℕ := line.findIdx? (· == c)

/-- Spaces are skipped, the last character is not. -/
def skipSpaces : List UInt8 → List UInt8
  | a :: b :: value => if a = 32 then skipSpaces (b :: value) else a :: b :: value
  | value => value

/-- `'\r'` at the end of what is not empty. -/
def dropCr (value : List UInt8) : List UInt8 :=
  value.take (value.length - if value.getLast? = some 13 then 1 else 0)

theorem length_getline_lt {stream line rest : List UInt8}
    (h : getline stream = some (line, rest)) : rest.length < stream.length := by
  rw [getline] at h
  split_ifs at h with hs
  rw [Option.some.injEq, Prod.mk.injEq] at h
  obtain ⟨-, rfl⟩ := h
  have hle := (List.dropWhile_suffix (l := stream) (· ≠ 10)).length_le
  have hpos := List.length_pos_iff.mpr hs
  rw [List.length_drop]
  omega

/-- A header, by the names of its fields. -/
abbrev Header := List (List UInt8 × List UInt8)

/-- A line of `http_header::parse` that has a colon at `paramEnd`. -/
def parseField (line : List UInt8) (paramEnd : ℕ) : Header :=
  let value := skipSpaces (line.drop (paramEnd + 1))
  if value = [] then [] else [(line.take paramEnd, dropCr value)]

/-- `http_header::parse`, with what it leaves of the stream. -/
def parseHeader (stream : List UInt8) : Header × List UInt8 :=
  match hline : getline stream with
  | none => ([], stream)
  | some (line, rest) =>
    match find 58 line with
    | none => ([], rest)
    | some paramEnd =>
      have := length_getline_lt hline
      let (header, rest) := parseHeader rest
      (parseField line paramEnd ++ header, rest)
  termination_by stream.length

/-- What `response_message::parse` finds. -/
structure ResponseMessage where
  version : List UInt8
  statusCode : List UInt8
  header : Header

/-- The status line: the version and the status code. -/
def parseStatusLine (line : List UInt8) : Option (List UInt8 × List UInt8) :=
  (find 32 line).bind fun versionEnd =>
    if 5 < line.length ∧ versionEnd + 1 < line.length then
      -- `version_end - 5` wraps around if it is negative
      some (if 5 ≤ versionEnd then (line.drop 5).take (versionEnd - 5) else line.drop 5,
        dropCr (line.drop (versionEnd + 1)))
    else none

/-- `response_message::parse`, with what it leaves of the stream. -/
def parseResponse (stream : List UInt8) : Option (ResponseMessage × List UInt8) :=
  (getline stream).bind fun (line, rest) =>
    (parseStatusLine line).map fun (version, statusCode) =>
      (⟨version, statusCode, (parseHeader rest).1⟩, (parseHeader rest).2)

/-- `tolower`. -/
def toLower (c : UInt8) : UInt8 := if 65 ≤ c ∧ c ≤ 90 then c + 32 else c

/-- `case_insensitive_equal`. -/
def caseInsensitiveEqual (s t : List UInt8) : Bool := s.map toLower == t.map toLower

/-- `ws_magic_string`. -/
def magicString : List UInt8 := asciiBytes "258EAFA5-E914-47DA-95CA-C5AB0DC85B11"

/-- `"Sec-WebSocket-Accept"`. -/
def acceptName : List UInt8 := asciiBytes "Sec-WebSocket-Accept"

/-- The digest for a nonce. -/
def digest (nonceBase64 : List UInt8) : List UInt8 := Sha1.sha1Calc (nonceBase64 ++ magicString)

/-- The bytes before the first zero. -/
def cString (bytes : List UInt8) : List UInt8 := bytes.takeWhile (· ≠ 0)

/-- How the handler of the response ends. -/
inductive Upgraded
  | protocolError
  | permissionDenied
  | opened (rest : List UInt8)
  deriving DecidableEq

/-- The handler of `upgrade` for the response, with the bytes that have been read. Of fields
of one name it looks at one. -/
def upgrade (nonceBase64 stream : List UInt8) : Upgraded :=
  match parseResponse stream with
  | none => .protocolError
  | some (response, rest) =>
    if response.statusCode.take 4 ≠ asciiBytes "101 " then .permissionDenied
    else
      match response.header.find? fun field => caseInsensitiveEqual field.1 acceptName with
      | none => .protocolError
      | some field =>
        if Base64.base64Decode field.2 = cString (digest nonceBase64) then .opened rest
        else .protocolError

/-! ### The response of a server -/

/-- A header field, as it is written. -/
def fieldLine (field : List UInt8 × List UInt8) : List UInt8 :=
  field.1 ++ 58 :: 32 :: field.2 ++ [13, 10]

/-- A header field that is read as it was written. -/
structure Field (field : List UInt8 × List UInt8) : Prop where
  name : ∀ c ∈ field.1, c ≠ 10 ∧ c ≠ 58
  value : ∀ c ∈ field.2, c ≠ 10
  head : field.2.head? ≠ some 32

/-- The response of a server that accepts, with header fields before and after the one that
answers the nonce, and with what the server has sent behind it. -/
def honestResponse (reason : List UInt8) (before after : Header) (nonceBase64 sent : List UInt8) :
    List UInt8 :=
  asciiBytes "HTTP/1.1 101 " ++ reason ++ [13, 10] ++
    (before ++ (acceptName, Base64.base64Encode (digest nonceBase64)) :: after).flatMap
      fieldLine ++ [13, 10] ++ sent

variable {stream line rest name value : List UInt8} {field : List UInt8 × List UInt8}

/-- A line and its end. -/
theorem getline_append (hline : ∀ c ∈ line, c ≠ 10) (rest : List UInt8) :
    getline (line ++ 10 :: rest) = some (line, rest) := by
  have hall : ∀ c ∈ line, decide (c ≠ 10) = true := fun c hc => decide_eq_true (hline c hc)
  rw [getline, if_neg (by simp), List.takeWhile_append_of_pos hall,
    List.dropWhile_append_of_pos hall, List.takeWhile_cons_of_neg (by simp),
    List.dropWhile_cons_of_neg (by simp), List.append_nil, List.drop_succ_cons, List.drop_zero]

theorem find_append {c : UInt8} (hname : ∀ d ∈ name, d ≠ c) (rest : List UInt8) :
    find c (name ++ c :: rest) = some name.length := by
  have hnone : name.findIdx? (· == c) = none :=
    List.findIdx?_eq_none_iff.mpr fun d hd => beq_false_of_ne (hname d hd)
  rw [find, List.findIdx?_append, hnone, List.findIdx?_cons, if_pos (BEq.rfl)]
  simp

theorem dropCr_concat (value : List UInt8) : dropCr (value ++ [13]) = value := by
  rw [dropCr, List.getLast?_concat, if_pos rfl, List.length_append, List.length_singleton,
    Nat.add_sub_cancel, List.take_left]

/-- The value is what is between the space and the end of the line. -/
theorem dropCr_skipSpaces (hhead : value.head? ≠ some 32) :
    skipSpaces (32 :: (value ++ [13])) ≠ [] ∧
      dropCr (skipSpaces (32 :: (value ++ [13]))) = value := by
  have hskip : skipSpaces (32 :: (value ++ [13])) = value ++ [13] := by
    cases value with
    | nil =>
      rw [List.nil_append, skipSpaces, if_pos rfl, skipSpaces]
      intro _ _ _ h
      cases h
    | cons c value =>
      rw [List.cons_append, skipSpaces, if_pos rfl]
      have hc : c ≠ 32 := fun h => hhead (h ▸ rfl)
      cases value with
      | nil => rw [List.nil_append, skipSpaces, if_neg hc]
      | cons d value => rw [List.cons_append, skipSpaces, if_neg hc]
  rw [hskip]
  exact ⟨by simp, dropCr_concat value⟩

theorem parseHeader_of_field (hf : Field field) (rest : List UInt8) :
    parseHeader (fieldLine field ++ rest) =
      (field :: (parseHeader rest).1, (parseHeader rest).2) := by
  have hsplit : fieldLine field ++ rest =
      (field.1 ++ 58 :: (32 :: (field.2 ++ [13]))) ++ 10 :: rest := by
    simp [fieldLine]
  have hline : ∀ c ∈ field.1 ++ 58 :: (32 :: (field.2 ++ [13])), c ≠ 10 := by
    simp only [List.forall_mem_append, List.forall_mem_cons]
    exact ⟨fun c hc => (hf.name c hc).1, by decide, by decide, hf.value, by decide,
      fun _ h => nomatch h⟩
  obtain ⟨hne, hvalue⟩ := dropCr_skipSpaces hf.head
  rw [hsplit, parseHeader]
  split
  · next h =>
    rw [getline_append hline] at h
    cases h
  · next line' rest' h =>
    rw [getline_append hline, Option.some.injEq, Prod.mk.injEq] at h
    obtain ⟨rfl, rfl⟩ := h
    rw [find_append fun c hc => (hf.name c hc).2]
    dsimp only
    rw [parseField, List.drop_append, List.drop_eq_nil_of_le (Nat.le_succ _)]
    simp only [Nat.add_sub_cancel_left, List.drop_succ_cons, List.drop_zero, List.nil_append,
      if_neg hne, hvalue, List.take_left, List.singleton_append]

theorem parseHeader_of_empty (rest : List UInt8) : parseHeader (13 :: 10 :: rest) = ([], rest) := by
  have hget : getline (13 :: 10 :: rest) = some ([13], rest) :=
    @getline_append [13] (by simp) rest
  rw [parseHeader]
  split
  · next h =>
    rw [hget] at h
    cases h
  · next line' rest' h =>
    rw [hget, Option.some.injEq, Prod.mk.injEq] at h
    obtain ⟨rfl, rfl⟩ := h
    rfl

/-- **A header is read up to the empty line.** -/
theorem parseHeader_flatMap {header : Header} (hheader : ∀ field ∈ header, Field field)
    (sent : List UInt8) :
    parseHeader (header.flatMap fieldLine ++ [13, 10] ++ sent) = (header, sent) := by
  induction header with
  | nil => exact parseHeader_of_empty sent
  | cons field header ih =>
    rw [List.forall_mem_cons] at hheader
    rw [List.flatMap_cons, List.append_assoc, List.append_assoc,
      parseHeader_of_field hheader.1, ← List.append_assoc, ih hheader.2]

theorem field_accept (nonceBase64 : List UInt8) :
    Field (acceptName, Base64.base64Encode (digest nonceBase64)) := by
  have hchar {c : UInt8} (hc : c ∈ Base64.base64Encode (digest nonceBase64)) :
      c ≠ 10 ∧ c ≠ 32 := by
    rcases Base64.mem_base64Encode hc with rfl | ⟨s, hs, rfl⟩
    · decide
    · have h := (Base64.toChar_spec hs).2.1
      exact ⟨fun h10 => absurd (h10 ▸ h) (by decide), fun h32 => absurd (h32 ▸ h) (by decide)⟩
  have hname : ∀ c ∈ acceptName, c ≠ 10 ∧ c ≠ 58 := forall_mem_of_all (by decide)
  refine ⟨hname, fun c hc => (hchar hc).1, fun h => ?_⟩
  exact (hchar (List.mem_of_mem_head? h)).2 rfl

theorem cString_eq_iff (bytes : List UInt8) : bytes = cString bytes ↔ 0 ∉ bytes := by
  rw [eq_comm, cString, List.takeWhile_eq_self_iff]
  simp only [decide_eq_true_eq, ne_eq]
  exact ⟨fun h h0 => h 0 h0 rfl, fun h c hc h0 => h (h0 ▸ hc)⟩

/-- The status line of a server that accepts. -/
theorem parseStatusLine_append (reason : List UInt8) :
    parseStatusLine (asciiBytes "HTTP/1.1 101 " ++ reason ++ [13]) =
      some (asciiBytes "1.1", asciiBytes "101 " ++ reason) := by
  have hlength : (asciiBytes "HTTP/1.1").length = 8 := by decide
  have hversion : ((asciiBytes "HTTP/1.1").drop 5).take 3 = asciiBytes "1.1" := by
    decide
  have hspace : ∀ c ∈ asciiBytes "HTTP/1.1", c ≠ 32 := forall_mem_of_all (by decide)
  have hstart : asciiBytes "HTTP/1.1 101 " = asciiBytes "HTTP/1.1" ++ 32 :: asciiBytes "101 " := by
    decide
  have hwords : asciiBytes "HTTP/1.1 101 " ++ reason ++ [13] =
      asciiBytes "HTTP/1.1" ++ 32 :: (asciiBytes "101 " ++ reason ++ [13]) := by
    rw [hstart]
    simp
  rw [hwords]
  generalize asciiBytes "101 " ++ reason = code
  have hlong : 5 < (asciiBytes "HTTP/1.1" ++ 32 :: (code ++ [13])).length ∧
      8 + 1 < (asciiBytes "HTTP/1.1" ++ 32 :: (code ++ [13])).length := by
    simp only [List.length_append, List.length_cons, hlength]
    omega
  have hdrop5 : ((asciiBytes "HTTP/1.1" ++ 32 :: (code ++ [13])).drop 5).take (8 - 5) =
      asciiBytes "1.1" := by
    rw [List.drop_append_of_le_length (by omega), List.take_append_of_le_length, hversion]
    rw [List.length_drop, hlength]
  have hdrop9 : (asciiBytes "HTTP/1.1" ++ 32 :: (code ++ [13])).drop (8 + 1) = code ++ [13] := by
    rw [List.drop_append, hlength, List.drop_eq_nil_of_le (by omega)]
    rfl
  rw [parseStatusLine, find_append hspace, Option.bind_some, hlength, if_pos hlong,
    if_pos (by decide), hdrop5, hdrop9, dropCr_concat]

/-- The response of a server that accepts. -/
theorem parseResponse_append {reason : List UInt8} {header : Header}
    (hreason : ∀ c ∈ reason, c ≠ 10) (hheader : ∀ field ∈ header, Field field)
    (sent : List UInt8) :
    parseResponse (asciiBytes "HTTP/1.1 101 " ++ reason ++ [13, 10] ++
        header.flatMap fieldLine ++ [13, 10] ++ sent) =
      some (⟨asciiBytes "1.1", asciiBytes "101 " ++ reason, header⟩, sent) := by
  have hend : ∀ c ∈ asciiBytes "HTTP/1.1 101 ", c ≠ 10 := forall_mem_of_all (by decide)
  have hline : ∀ c ∈ asciiBytes "HTTP/1.1 101 " ++ reason ++ [13], c ≠ 10 := by
    simp only [List.forall_mem_append]
    exact ⟨⟨hend, hreason⟩, by simp⟩
  have hsplit : asciiBytes "HTTP/1.1 101 " ++ reason ++ [13, 10] ++ header.flatMap fieldLine ++
      [13, 10] ++ sent = (asciiBytes "HTTP/1.1 101 " ++ reason ++ [13]) ++
        10 :: (header.flatMap fieldLine ++ [13, 10] ++ sent) := by simp
  rw [hsplit, parseResponse, getline_append hline, Option.bind_some]
  dsimp only
  rw [parseStatusLine_append, Option.map_some, parseHeader_flatMap hheader]

/-- **A server that answers as it should is accepted** precisely if the digest has no zero
byte. What it has sent behind its response is left to be read. -/
theorem upgrade_honestResponse {reason : List UInt8} {before after : Header}
    (hreason : ∀ c ∈ reason, c ≠ 10)
    (hfields : ∀ field ∈ before ++ after, Field field ∧
      caseInsensitiveEqual field.1 acceptName = false) (nonceBase64 sent : List UInt8) :
    upgrade nonceBase64 (honestResponse reason before after nonceBase64 sent) =
      if 0 ∈ digest nonceBase64 then .protocolError else .opened sent := by
  have hheader : ∀ field ∈
      before ++ (acceptName, Base64.base64Encode (digest nonceBase64)) :: after, Field field := by
    rw [List.forall_mem_append, List.forall_mem_cons]
    rw [List.forall_mem_append] at hfields
    exact ⟨fun field hf => (hfields.1 field hf).1, field_accept nonceBase64,
      fun field hf => (hfields.2 field hf).1⟩
  have hcode : (asciiBytes "101 " ++ reason).take 4 = asciiBytes "101 " :=
    List.take_left' (by decide)
  have hfind : (before ++ (acceptName, Base64.base64Encode (digest nonceBase64)) ::
      after).find? (fun field => caseInsensitiveEqual field.1 acceptName) =
        some (acceptName, Base64.base64Encode (digest nonceBase64)) := by
    have hnone : before.find? (fun field => caseInsensitiveEqual field.1 acceptName) = none :=
      List.find?_eq_none.mpr fun field hf =>
        Bool.eq_false_iff.mp (hfields field (List.mem_append_left _ hf)).2
    rw [List.find?_append, hnone, Option.none_or, List.find?_cons_of_pos]
    exact BEq.rfl
  rw [upgrade, honestResponse, parseResponse_append hreason hheader sent]
  dsimp only
  rw [if_neg (not_not_intro hcode), hfind]
  dsimp only
  rw [Base64.base64Decode_base64Encode]
  by_cases hzero : 0 ∈ digest nonceBase64
  · rw [if_pos hzero, if_neg fun h => (cString_eq_iff _).mp h hzero]
  · rw [if_neg hzero, if_pos ((cString_eq_iff _).mpr hzero)]

/-- A response with two more header fields, and with a message behind it. -/
theorem upgrade_honestResponse_switching :
    upgrade (asciiBytes "dGhlIHNhbXBsZSBub25jZQ==") (honestResponse (asciiBytes "Switching")
        [(asciiBytes "Upgrade", asciiBytes "websocket")] [(asciiBytes "Server", [])]
        (asciiBytes "dGhlIHNhbXBsZSBub25jZQ==") [129, 0]) =
      if 0 ∈ digest (asciiBytes "dGhlIHNhbXBsZSBub25jZQ==") then .protocolError
      else .opened [129, 0] := by
  refine upgrade_honestResponse (forall_mem_of_all (by decide)) ?_ _ _
  simp only [List.forall_mem_append, List.forall_mem_singleton]
  exact ⟨⟨⟨forall_mem_of_all (by decide), forall_mem_of_all (by decide), by decide⟩, by decide⟩,
    ⟨forall_mem_of_all (by decide), fun _ h => (nomatch h), by decide⟩, by decide⟩

end WebSocket

end UtilityFramework
