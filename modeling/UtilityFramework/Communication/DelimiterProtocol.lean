import UtilityFramework.Lib.Window

/-!
# The delimiter protocol

`communication::protocols::delimiter_protocol_impl` cuts the byte stream of a port into
messages. A call of `recieve` reads one byte at a time. Until a start delimiter is found it
keeps, for each couple, a window of the length of the couple's start delimiter, and compares
each window with its delimiter; then it copies the start delimiter to the caller's buffer
and goes on, byte by byte, with a window for the end delimiter of that couple. The windows
are members of the object, but every call begins by filling them with spaces.

The port is the list of the outcomes of its reads: a byte, or an error. A call that has used
up the list is waiting for the port.
-/

namespace UtilityFramework

open Window

/-! ### The protocol -/

/-- `communication_error`, without `NO_ERRORS`. -/
inductive CommunicationError
  | noPermission
  | accessDenied
  | hostUnreachable
  | timedOut
  | connectionRefused
  | unknownError
  deriving DecidableEq

/-- The outcome of one read of one byte from the port. -/
inductive PortRead
  | byte (c : UInt8)
  | error (e : CommunicationError)
  deriving DecidableEq

/-- `delimiters`: the two strings of a couple, or the two windows for it. -/
structure Delimiters where
  startDelimiter : List UInt8
  endDelimiter : List UInt8
  deriving DecidableEq

/-- The character the windows are filled with. -/
def space : UInt8 := 32

/-- `delimiter_protocol_impl`. There is a couple, and no delimiter is empty: the
constructors throw otherwise. -/
structure DelimiterProtocol where
  delimiters : List Delimiters
  couples_ne : delimiters ≠ []
  start_ne : ∀ d ∈ delimiters, d.startDelimiter ≠ []
  end_ne : ∀ d ∈ delimiters, d.endDelimiter ≠ []

/-- What a call of `recieve` has done: the number it returns (`none` as long as it is
waiting for the port), the bytes it has written to the caller's buffer, from its beginning
on, and the reads of the port it has not used. -/
structure Recieved where
  returned : Option ℕ
  buffer : List UInt8
  port : List PortRead
  deriving DecidableEq

namespace Delimiters

/-- The constructor from two lengths: windows of spaces. -/
def blank (startLength endLength : ℕ) : Delimiters :=
  ⟨List.replicate startLength space, List.replicate endLength space⟩

/-- Put a byte at the end of the start window. -/
def putStart (w : Delimiters) (c : UInt8) : Delimiters :=
  { w with startDelimiter := setLast w.startDelimiter c }

/-- Shift the start window. -/
def shiftStart (w : Delimiters) : Delimiters :=
  { w with startDelimiter := shiftLeft space w.startDelimiter }

end Delimiters

/-- The loop that compares the start windows with the start delimiters: at the first that
agrees it breaks, and those before it are shifted. With the index of the one that
agrees. -/
def checkStart : List Delimiters → List Delimiters → List Delimiters × Option ℕ
  | w :: ws, d :: ds =>
    if w.startDelimiter = d.startDelimiter then (w :: ws, some 0)
    else
      let r := checkStart ws ds
      (w.shiftStart :: r.1, r.2.map (· + 1))
  | ws, _ => (ws, none)

/-- How the search for a start delimiter ends. -/
inductive StartSearch
  | found (coupleIndex : ℕ) (temp : List Delimiters) (port : List PortRead)
  | failed (port : List PortRead)
  | waiting

/-- The search for a start delimiter. -/
def searchStart (delimiters : List Delimiters) : List Delimiters → List PortRead → StartSearch
  | _, [] => .waiting
  | _, .error _ :: port => .failed port
  | temp, .byte c :: port =>
    match checkStart (temp.map (·.putStart c)) delimiters with
    | (temp, some i) => .found i temp port
    | (temp, none) => searchStart delimiters temp port

/-- The search for the end delimiter, with its window and the bytes that are already in the
buffer. The test of the size stands between the read and the write of a byte. -/
def searchEnd (endDelimiter : List UInt8) (size : ℕ) :
    List UInt8 → List UInt8 → List PortRead → Recieved
  | _, buffer, [] => ⟨none, buffer, []⟩
  | _, buffer, .error _ :: port => ⟨some 0, buffer, port⟩
  | w, buffer, .byte c :: port =>
    if size ≤ buffer.length then ⟨some 0, buffer, port⟩
    else if setLast w c = endDelimiter then
      ⟨some (buffer ++ [c]).length, buffer ++ [c], port⟩
    else searchEnd endDelimiter size (shiftLeft space (setLast w c)) (buffer ++ [c]) port

namespace DelimiterProtocol

/-- `delimiter_protocol::create`. -/
def create (couples : List Delimiters) : Option DelimiterProtocol :=
  if h : couples ≠ [] ∧ (∀ d ∈ couples, d.startDelimiter ≠ []) ∧
      ∀ d ∈ couples, d.endDelimiter ≠ [] then
    some ⟨couples, h.1, h.2.1, h.2.2⟩
  else none

/-- The windows at the beginning of a call. -/
def initTemp (p : DelimiterProtocol) : List Delimiters :=
  p.delimiters.map fun d => .blank d.startDelimiter.length d.endDelimiter.length

/-- `recieve`. -/
def recieve (p : DelimiterProtocol) (size : ℕ) (port : List PortRead) : Recieved :=
  match searchStart p.delimiters p.initTemp port with
  | .waiting => ⟨none, [], []⟩
  | .failed port => ⟨some 0, [], port⟩
  | .found i temp port =>
    let w := temp.getD i (.blank 0 0)
    let d := p.delimiters.getD i (.blank 0 0)
    searchEnd d.endDelimiter size w.endDelimiter w.startDelimiter port

/-- Successive calls, with the sizes they are given: the messages, and what is left of the
port. A call that does not return ends the sequence. -/
def recieves (p : DelimiterProtocol) : List ℕ → List PortRead → List (List UInt8) × List PortRead
  | [], port => ([], port)
  | size :: sizes, port =>
    let r := p.recieve size port
    match r.returned with
    | none => ([], r.port)
    | some n =>
      let rs := p.recieves sizes r.port
      (r.buffer.take n :: rs.1, rs.2)

end DelimiterProtocol

/-! ### Where the windows agree -/

section Windows

variable {d : Delimiters} {ds : List Delimiters} {l m : List UInt8} {c : UInt8}
  {port rest : List PortRead}

/-- The start window of a couple agrees with its start delimiter once `l` has been read. -/
def Delimiters.StartsAt (d : Delimiters) (l : List UInt8) : Prop :=
  window space d.startDelimiter.length l = d.startDelimiter

/-- The end window of a couple agrees with its end delimiter once `m` has been read after
the start delimiter. -/
def Delimiters.EndsAt (d : Delimiters) (m : List UInt8) : Prop :=
  window space d.endDelimiter.length m = d.endDelimiter

instance : DecidablePred d.StartsAt := fun l =>
  inferInstanceAs (Decidable (window space d.startDelimiter.length l = d.startDelimiter))

instance : DecidablePred d.EndsAt := fun m =>
  inferInstanceAs (Decidable (window space d.endDelimiter.length m = d.endDelimiter))

/-- No start window has agreed while `l` was read. -/
def NoStart (ds : List Delimiters) (l : List UInt8) : Prop :=
  ∀ l', l' <+: l → l' ≠ [] → ∀ d ∈ ds, ¬d.StartsAt l'

/-- With the last byte of `l` a start window agrees for the first time, and `d` is the first
couple whose window does. -/
def FoundStart (ds : List Delimiters) (l : List UInt8) (d : Delimiters) : Prop :=
  ∃ l₀ c, l = l₀ ++ [c] ∧ NoStart ds l₀ ∧ d.StartsAt l ∧
    ∃ before after, ds = before ++ d :: after ∧ ∀ d' ∈ before, ¬d'.StartsAt l

/-- The end window has not agreed while `m` was read. -/
def Delimiters.NoEnd (d : Delimiters) (m : List UInt8) : Prop :=
  ∀ m', m' <+: m → m' ≠ [] → ¬d.EndsAt m'

/-- With the last byte of `m` the end window agrees for the first time. -/
def Delimiters.FoundEnd (d : Delimiters) (m : List UInt8) : Prop :=
  ∃ m₀ c, m = m₀ ++ [c] ∧ d.NoEnd m₀ ∧ d.EndsAt m

theorem prefix_append_singleton {l' : List UInt8} (h : l' <+: l ++ [c]) :
    l' <+: l ∨ l' = l ++ [c] :=
  (List.prefix_concat_iff.mp h).symm

theorem NoStart.nil : NoStart ds [] := fun _ h hne =>
  absurd (List.prefix_nil.mp h) hne

theorem NoStart.concat (h : NoStart ds l) (hc : ∀ d ∈ ds, ¬d.StartsAt (l ++ [c])) :
    NoStart ds (l ++ [c]) := by
  intro l' hl' hne
  rcases prefix_append_singleton hl' with hl' | rfl
  · exact h l' hl' hne
  · exact hc

theorem Delimiters.NoEnd.nil : d.NoEnd [] := fun _ h hne =>
  absurd (List.prefix_nil.mp h) hne

theorem Delimiters.NoEnd.concat (h : d.NoEnd m) (hc : ¬d.EndsAt (m ++ [c])) :
    d.NoEnd (m ++ [c]) := by
  intro m' hm' hne
  rcases prefix_append_singleton hm' with hm' | rfl
  · exact h m' hm' hne
  · exact hc

/-- The windows of a couple when `l` has been read, and they have been looked at. -/
def Delimiters.shifted (l : List UInt8) (d : Delimiters) : Delimiters :=
  ⟨shiftLeft space (window space d.startDelimiter.length l),
    List.replicate d.endDelimiter.length space⟩

/-- The windows of a couple when `l` has been read, before they are looked at. -/
def Delimiters.ready (l : List UInt8) (d : Delimiters) : Delimiters :=
  ⟨window space d.startDelimiter.length l, List.replicate d.endDelimiter.length space⟩

theorem Delimiters.putStart_shifted (h : d.startDelimiter ≠ []) :
    (d.shifted l).putStart c = d.ready (l ++ [c]) := by
  rw [shifted, putStart, ready, setLast_shiftLeft_window (List.length_pos_of_ne_nil h)]

theorem map_putStart_shifted (hds : ∀ d ∈ ds, d.startDelimiter ≠ []) :
    (ds.map (Delimiters.shifted l)).map (·.putStart c) =
      ds.map (Delimiters.ready (l ++ [c])) := by
  rw [List.map_map]
  exact List.map_congr_left fun d hd => Delimiters.putStart_shifted (hds d hd)

theorem DelimiterProtocol.initTemp_eq (p : DelimiterProtocol) :
    p.initTemp = p.delimiters.map (Delimiters.shifted []) := by
  refine List.map_congr_left fun d hd => ?_
  have hpos := List.length_pos_of_ne_nil (p.start_ne d hd)
  rw [Delimiters.shifted, shiftLeft_window_nil hpos, Delimiters.blank]

/-- No window agrees: all are shifted. -/
theorem checkStart_of_not_startsAt (h : ∀ d ∈ ds, ¬d.StartsAt l) :
    checkStart (ds.map (Delimiters.ready l)) ds = (ds.map (Delimiters.shifted l), none) := by
  induction ds with
  | nil => rfl
  | cons d ds ih =>
    have hd : (d.ready l).startDelimiter ≠ d.startDelimiter := h d List.mem_cons_self
    rw [List.map_cons, checkStart, if_neg hd, ih fun d' hd' => h d' (List.mem_cons_of_mem d hd')]
    rfl

/-- The first window that agrees ends the loop. -/
theorem checkStart_of_startsAt {before after : List Delimiters} (hd : d.StartsAt l)
    (hbefore : ∀ d' ∈ before, ¬d'.StartsAt l) :
    checkStart ((before ++ d :: after).map (Delimiters.ready l)) (before ++ d :: after) =
      (before.map (Delimiters.shifted l) ++ (d :: after).map (Delimiters.ready l),
        some before.length) := by
  induction before with
  | nil =>
    have hd : (d.ready l).startDelimiter = d.startDelimiter := hd
    rw [List.nil_append, List.map_cons, checkStart, if_pos hd]
    rfl
  | cons d' before ih =>
    have hd' : (d'.ready l).startDelimiter ≠ d'.startDelimiter :=
      hbefore d' List.mem_cons_self
    rw [List.cons_append, List.map_cons, checkStart, if_neg hd',
      ih fun x hx => hbefore x (List.mem_cons_of_mem d' hx)]
    rfl

/-- Bytes with which no start window agrees are skipped. -/
theorem searchStart_skip (hds : ∀ d ∈ ds, d.startDelimiter ≠ []) (port : List PortRead)
    (h : NoStart ds (l ++ m)) :
    searchStart ds (ds.map (Delimiters.shifted l)) (m.map .byte ++ port) =
      searchStart ds (ds.map (Delimiters.shifted (l ++ m))) port := by
  induction m generalizing l with
  | nil => rw [List.append_nil, List.map_nil, List.nil_append]
  | cons c m ih =>
    have hc : ∀ d ∈ ds, ¬d.StartsAt (l ++ [c]) :=
      h (l ++ [c]) ((List.prefix_append_right_inj l).mpr (List.prefix_append [c] m))
        (List.concat_ne_nil c l)
    rw [List.append_cons] at h ⊢
    rw [← ih h, List.map_cons, List.cons_append, searchStart,
      map_putStart_shifted hds, checkStart_of_not_startsAt hc]

/-- The search ends where a start window agrees for the first time. -/
theorem searchStart_found (hds : ∀ d ∈ ds, d.startDelimiter ≠ []) (port : List PortRead)
    (h : FoundStart ds l d) :
    ∃ i temp, searchStart ds (ds.map (Delimiters.shifted [])) (l.map .byte ++ port) =
        .found i temp port ∧ ds.getD i (.blank 0 0) = d ∧
        temp.getD i (.blank 0 0) = d.ready l := by
  obtain ⟨l₀, c, rfl, hno, hd, before, after, rfl, hbefore⟩ := h
  refine ⟨before.length, before.map (Delimiters.shifted (l₀ ++ [c])) ++
    (d :: after).map (Delimiters.ready (l₀ ++ [c])), ?_, ?_, ?_⟩
  · have hport : (l₀ ++ [c]).map PortRead.byte ++ port =
        l₀.map .byte ++ (.byte c :: port) := by simp
    rw [hport, searchStart_skip hds _ (by rwa [List.nil_append]), List.nil_append, searchStart,
      map_putStart_shifted hds, checkStart_of_startsAt hd hbefore]
  · simp
  · simp

/-- The search finds a start delimiter, or the call ends or waits with nothing written. -/
theorem searchStart_cases (hds : ∀ d ∈ ds, d.startDelimiter ≠ []) (port : List PortRead)
    (hno : NoStart ds l) :
    (∃ m d rest, port = m.map .byte ++ rest ∧ FoundStart ds (l ++ m) d) ∨
      searchStart ds (ds.map (Delimiters.shifted l)) port = .waiting ∨
      ∃ rest, searchStart ds (ds.map (Delimiters.shifted l)) port = .failed rest := by
  induction port generalizing l with
  | nil => exact .inr (.inl rfl)
  | cons r port ih =>
    cases r with
    | error e => exact .inr (.inr ⟨port, rfl⟩)
    | byte c =>
      rcases hfind : ds.find? (fun d => decide (d.StartsAt (l ++ [c]))) with _ | d
      · -- no window agrees, so the search goes on
        have hc : ∀ d ∈ ds, ¬d.StartsAt (l ++ [c]) := fun d hd => by
          simpa using List.find?_eq_none.mp hfind d hd
        have hskip := searchStart_skip (m := [c]) hds port (hno.concat hc)
        rw [List.map_singleton, List.singleton_append] at hskip
        rw [hskip]
        rcases ih (hno.concat hc) with ⟨m, d, rest, rfl, hfound⟩ | h
        · exact .inl ⟨c :: m, d, rest, rfl, by rwa [List.append_cons]⟩
        · exact .inr h
      · obtain ⟨hd, before, after, hsplit, hbefore⟩ := List.find?_eq_some_iff_append.mp hfind
        refine .inl ⟨[c], d, port, rfl, l, c, rfl, hno, of_decide_eq_true hd, before, after,
          hsplit, fun d' hd' => ?_⟩
        simpa using hbefore d' hd'

/-- The search for the end delimiter ends where its window agrees for the first time, if
the message fits. -/
theorem searchEnd_found {size : ℕ} {m₀ : List UInt8} (buffer : List UInt8)
    (rest : List PortRead) (hd : d.endDelimiter ≠ []) (hno : d.NoEnd (m₀ ++ m))
    (hend : d.EndsAt (m₀ ++ m ++ [c])) (hsize : buffer.length + m.length < size) :
    searchEnd d.endDelimiter size (shiftLeft space (window space d.endDelimiter.length m₀))
        buffer ((m ++ [c]).map .byte ++ rest) =
      ⟨some (buffer ++ (m ++ [c])).length, buffer ++ (m ++ [c]), rest⟩ := by
  have hpos := List.length_pos_of_ne_nil hd
  induction m generalizing m₀ buffer with
  | nil =>
    have hfits : ¬size ≤ buffer.length := by simpa using hsize
    rw [List.append_nil] at hend
    have hend : window space d.endDelimiter.length (m₀ ++ [c]) = d.endDelimiter := hend
    rw [List.nil_append, List.map_singleton, List.singleton_append, searchEnd, if_neg hfits,
      setLast_shiftLeft_window hpos, if_pos hend]
  | cons b m ih =>
    rw [List.length_cons] at hsize
    have hfits : ¬size ≤ buffer.length := by omega
    have hb : ¬window space d.endDelimiter.length (m₀ ++ [b]) = d.endDelimiter :=
      hno (m₀ ++ [b]) ((List.prefix_append_right_inj m₀).mpr (List.prefix_append [b] m))
        (List.concat_ne_nil b m₀)
    rw [List.append_cons m₀ b m] at hno hend
    rw [List.cons_append, List.map_cons, List.cons_append, searchEnd, if_neg hfits,
      setLast_shiftLeft_window hpos, if_neg hb,
      ih (buffer ++ [b]) hno hend (by rw [List.length_append, List.length_singleton]; omega)]
    simp

/-- The search for the end delimiter finds it, or nothing is returned; nothing is written
beyond the size. -/
theorem searchEnd_cases {m₀ : List UInt8} (size : ℕ) (buffer : List UInt8)
    (hd : d.endDelimiter ≠ []) (port : List PortRead) (hno : d.NoEnd m₀) :
    (∃ m rest, port = m.map .byte ++ rest ∧ d.FoundEnd (m₀ ++ m) ∧
        buffer.length + m.length ≤ size ∧
        searchEnd d.endDelimiter size (shiftLeft space (window space d.endDelimiter.length m₀))
          buffer port = ⟨some (buffer ++ m).length, buffer ++ m, rest⟩) ∨
      ∃ r b rest, (r = none ∨ r = some 0) ∧ (buffer ++ b).length ≤ max buffer.length size ∧
        searchEnd d.endDelimiter size (shiftLeft space (window space d.endDelimiter.length m₀))
          buffer port = ⟨r, buffer ++ b, rest⟩ := by
  have hpos := List.length_pos_of_ne_nil hd
  have hstay (b : List UInt8) : (b ++ []).length ≤ max b.length size := by
    rw [List.append_nil]
    exact Nat.le_max_left _ _
  induction port generalizing m₀ buffer with
  | nil => exact .inr ⟨none, [], [], .inl rfl, hstay buffer, by simp [searchEnd]⟩
  | cons r port ih =>
    cases r with
    | error e => exact .inr ⟨some 0, [], port, .inr rfl, hstay buffer, by simp [searchEnd]⟩
    | byte c =>
      rw [searchEnd, setLast_shiftLeft_window hpos]
      split
      · exact .inr ⟨some 0, [], port, .inr rfl, hstay buffer, by rw [List.append_nil]⟩
      · rename_i hfits
        split
        · rename_i hc
          refine .inl ⟨[c], port, rfl, ⟨m₀, c, rfl, hno, hc⟩, ?_, rfl⟩
          rw [List.length_singleton]
          omega
        · rename_i hc
          rcases ih (buffer ++ [c]) (hno.concat hc) with
            ⟨m, rest, rfl, hfound, hsize, h⟩ | ⟨r, b, rest, hr, hb, h⟩
          · refine .inl ⟨c :: m, rest, rfl, by rwa [List.append_cons], ?_, ?_⟩
            · rw [List.length_append, List.length_singleton] at hsize
              rw [List.length_cons]
              omega
            · rw [h, List.append_assoc, List.singleton_append]
          · refine .inr ⟨r, c :: b, rest, hr, ?_, ?_⟩
            · rw [List.append_assoc, List.singleton_append, List.length_append,
                List.length_append, List.length_singleton] at hb
              rw [List.length_append]
              omega
            · rw [h, List.append_assoc, List.singleton_append]

theorem FoundStart.mem (h : FoundStart ds l d) : d ∈ ds := by
  obtain ⟨-, -, -, -, -, before, after, rfl, -⟩ := h
  simp

/-- What a call does after the start delimiter has been found. -/
theorem DelimiterProtocol.recieve_of_foundStart (p : DelimiterProtocol) (size : ℕ)
    (port : List PortRead) (h : FoundStart p.delimiters l d) :
    p.recieve size (l.map .byte ++ port) =
      searchEnd d.endDelimiter size (shiftLeft space (window space d.endDelimiter.length []))
        d.startDelimiter port := by
  obtain ⟨i, temp, hsearch, hi, htemp⟩ := searchStart_found p.start_ne port h
  have hpos := List.length_pos_of_ne_nil (p.end_ne d h.mem)
  have hstart : (d.ready l).startDelimiter = d.startDelimiter := by
    obtain ⟨-, -, -, -, hd, -⟩ := h
    exact hd
  rw [recieve, p.initTemp_eq, hsearch, shiftLeft_window_nil hpos]
  simp only [hi, htemp, hstart]
  rfl

end Windows

/-! ### Framing -/

namespace DelimiterProtocol

variable {p : DelimiterProtocol} {stream message rest : List UInt8}

/-- No delimiter begins with a space. -/
def SpaceFree (p : DelimiterProtocol) : Prop :=
  ∀ d ∈ p.delimiters, d.startDelimiter.head? ≠ some space ∧ d.endDelimiter.head? ≠ some space

/-- The next message of a stream, and what comes after it. The bytes `skip` are discarded:
the first position at which a start delimiter is completed is the end of
`skip ++ d.startDelimiter`, and `d` is the first couple whose start delimiter is completed
there. The message goes on to the first completion of its end delimiter. -/
inductive NextMessage (p : DelimiterProtocol) :
    List UInt8 → List UInt8 → List UInt8 → Prop
  | intro (skip m rest : List UInt8) (d : Delimiters) (before after : List Delimiters)
    (hsplit : p.delimiters = before ++ d :: after)
    (hfirst : ∀ d' ∈ p.delimiters, ∀ l, l <+: skip ++ d.startDelimiter →
      d'.startDelimiter <:+ l → l = skip ++ d.startDelimiter)
    (hlowest : ∀ d' ∈ before, ¬d'.startDelimiter <:+ skip ++ d.startDelimiter)
    (hend : d.endDelimiter <:+ m)
    (hendFirst : ∀ l, l <+: m → d.endDelimiter <:+ l → l = m) :
    NextMessage p (skip ++ (d.startDelimiter ++ m) ++ rest) (d.startDelimiter ++ m) rest

/-- The messages of a stream, one after the other. -/
inductive Messages (p : DelimiterProtocol) :
    List UInt8 → List (List UInt8) → List UInt8 → Prop
  | nil (stream : List UInt8) : Messages p stream [] stream
  | cons {stream message tail rest : List UInt8} {messages : List (List UInt8)}
    (head : NextMessage p stream message tail) (tail : Messages p tail messages rest) :
    Messages p stream (message :: messages) rest

theorem NextMessage.eq_append (h : NextMessage p stream message rest) :
    ∃ skip, stream = skip ++ message ++ rest := by
  cases h with
  | intro skip => exact ⟨skip, rfl⟩

/-- A list that is its only prefix with a property has none before its last element. -/
theorem exists_concat_of_first {l : List UInt8} {P : List UInt8 → Prop} (hne : l ≠ [])
    (hfirst : ∀ l', l' <+: l → P l' → l' = l) :
    ∃ l₀ c, l = l₀ ++ [c] ∧ ∀ l', l' <+: l₀ → ¬P l' := by
  obtain ⟨l₀, c, rfl⟩ := (List.eq_nil_or_concat' l).resolve_left hne
  refine ⟨l₀, c, rfl, fun l' hl' hP => ?_⟩
  have heq := hfirst l' (hl'.trans (List.prefix_append l₀ [c])) hP
  have hle := hl'.length_le
  rw [heq, List.length_append, List.length_singleton] at hle
  omega

/-- Without spaces in front, the first start window to agree is that of the next message. -/
theorem foundStart_of_first (hp : p.SpaceFree) {skip : List UInt8} {d : Delimiters}
    {before after : List Delimiters} (hsplit : p.delimiters = before ++ d :: after)
    (hfirst : ∀ d' ∈ p.delimiters, ∀ l, l <+: skip ++ d.startDelimiter →
      d'.startDelimiter <:+ l → l = skip ++ d.startDelimiter)
    (hlowest : ∀ d' ∈ before, ¬d'.startDelimiter <:+ skip ++ d.startDelimiter) :
    FoundStart p.delimiters (skip ++ d.startDelimiter) d := by
  have hmem : d ∈ p.delimiters := by rw [hsplit]; simp
  have hne : skip ++ d.startDelimiter ≠ [] := List.append_ne_nil_of_right_ne_nil _
    (p.start_ne d hmem)
  have hiff (d' : Delimiters) (hd' : d' ∈ p.delimiters) (l : List UInt8) :
      d'.StartsAt l ↔ d'.startDelimiter <:+ l := window_eq_iff_of_head?_ne (hp d' hd').1
  obtain ⟨l₀, c, hl, hno⟩ := exists_concat_of_first
    (P := fun l => ∃ d' ∈ p.delimiters, d'.startDelimiter <:+ l) hne
    fun l hl ⟨d', hd', h⟩ => hfirst d' hd' l hl h
  refine ⟨l₀, c, hl, ?_, ?_, before, after, hsplit, ?_⟩
  · intro l' hl' _ d' hd' hstart
    exact hno l' hl' ⟨d', hd', (hiff d' hd' l').mp hstart⟩
  · exact (hiff d hmem _).mpr (List.suffix_append skip d.startDelimiter)
  · intro d' hd' hstart
    have hmem' : d' ∈ p.delimiters := by rw [hsplit]; exact List.mem_append_left _ hd'
    exact hlowest d' hd' ((hiff d' hmem' _).mp hstart)

/-- A call returns the next message if it fits, and leaves what comes after it. -/
theorem recieve_of_nextMessage (hp : p.SpaceFree) (h : NextMessage p stream message rest)
    {size : ℕ} (hsize : message.length ≤ size) :
    p.recieve size (stream.map .byte) = ⟨some message.length, message, rest.map .byte⟩ := by
  cases h with
  | intro skip m rest d before after hsplit hfirst hlowest hend hendFirst =>
    have hmem : d ∈ p.delimiters := by rw [hsplit]; simp
    have hiff (l : List UInt8) : d.EndsAt l ↔ d.endDelimiter <:+ l :=
      window_eq_iff_of_head?_ne (hp d hmem).2
    have hne : m ≠ [] := by
      rintro rfl
      exact p.end_ne d hmem (List.suffix_nil.mp hend)
    obtain ⟨m₀, c, rfl, hno⟩ := exists_concat_of_first hne hendFirst
    have hport : (skip ++ (d.startDelimiter ++ (m₀ ++ [c])) ++ rest).map PortRead.byte =
        (skip ++ d.startDelimiter).map .byte ++ ((m₀ ++ [c]).map .byte ++ rest.map .byte) := by
      simp
    have hfits : d.startDelimiter.length + m₀.length < size := by
      rw [List.length_append, List.length_append, List.length_singleton] at hsize
      omega
    rw [hport, p.recieve_of_foundStart size _ (foundStart_of_first hp hsplit hfirst hlowest),
      searchEnd_found _ _ (p.end_ne d hmem) _ _ hfits]
    · intro m' hm' _ hm
      exact hno m' hm' ((hiff m').mp hm)
    · exact (hiff _).mpr hend

/-- **Successive calls cut the stream into its messages.** Each call whose size is at least
the length of the next message returns exactly that message, and the messages stand in the
stream one after the other. -/
theorem recieves_eq_messages (hp : p.SpaceFree) {messages : List (List UInt8)}
    (h : Messages p stream messages rest) {sizes : List ℕ}
    (hsizes : List.Forall₂ (fun size message => message.length ≤ size) sizes messages) :
    p.recieves sizes (stream.map .byte) = (messages, rest.map .byte) ∧
      ∃ skips : List (List UInt8), skips.length = messages.length ∧
        stream = (List.zipWith (· ++ ·) skips messages).flatten ++ rest := by
  induction h generalizing sizes with
  | nil stream =>
    cases hsizes
    exact ⟨rfl, [], rfl, rfl⟩
  | @cons stream message tail rest messages head _ ih =>
    cases hsizes with
    | @cons size _ sizes _ hsize hsizes =>
      obtain ⟨hrest, skips, hskips, htail⟩ := ih hsizes
      obtain ⟨skip, hskip⟩ := head.eq_append
      constructor
      · rw [recieves, recieve_of_nextMessage hp head hsize]
        simp only [hrest, List.take_length]
      · refine ⟨skip :: skips, by simp [hskips], ?_⟩
        rw [hskip, htail, List.zipWith_cons_cons, List.flatten_cons]
        simp only [List.append_assoc]

/-- The couples `AB`, `BA` and `B`, `C`. -/
def overlapping : DelimiterProtocol where
  delimiters := [⟨[65, 66], [66, 65]⟩, ⟨[66], [67]⟩]
  couples_ne := by decide
  start_ne := by decide
  end_ne := by decide

/-- In `xABzBABBCq` both start delimiters are completed by the third byte, and the end of
the first message overlaps what could begin it again. -/
theorem recieves_eq_messages_overlapping :
    overlapping.recieves [16, 3] ([120, 65, 66, 122, 66, 65, 66, 66, 67, 113].map .byte) =
        ([[65, 66, 122, 66, 65], [66, 66, 67]], [113].map .byte) ∧
      ∃ skips : List (List UInt8), skips.length = 2 ∧
        [120, 65, 66, 122, 66, 65, 66, 66, 67, 113] =
          (List.zipWith (· ++ ·) skips [[65, 66, 122, 66, 65], [66, 66, 67]]).flatten ++ [113] := by
  have hfirst : NextMessage overlapping [120, 65, 66, 122, 66, 65, 66, 66, 67, 113]
      [65, 66, 122, 66, 65] [66, 66, 67, 113] := by
    refine .intro [120] [122, 66, 65] [66, 66, 67, 113] ⟨[65, 66], [66, 65]⟩ []
      [⟨[66], [67]⟩] rfl ?_ ?_ ?_ ?_
    all_goals simp only [← List.mem_inits]; decide
  have hsecond : NextMessage overlapping [66, 66, 67, 113] [66, 66, 67] [113] := by
    refine .intro [] [66, 67] [113] ⟨[66], [67]⟩ [⟨[65, 66], [66, 65]⟩] [] rfl ?_ ?_ ?_ ?_
    all_goals simp only [← List.mem_inits]; decide
  exact recieves_eq_messages (by rw [SpaceFree]; decide)
    (.cons hfirst (.cons hsecond (.nil [113]))) (by decide)

/-! ### Soundness -/

/-- At most `size` bytes are written, and a non-zero result is a contiguous piece of what
has been read that begins and ends with the delimiters of one couple. -/
def Sound (p : DelimiterProtocol) (size : ℕ) (port : List PortRead) : Prop :=
  (p.recieve size port).buffer.length ≤ size ∧
    ∀ n, (p.recieve size port).returned = some n → n ≠ 0 →
      (∃ read : List UInt8, port = read.map .byte ++ (p.recieve size port).port ∧
        (p.recieve size port).buffer.take n <:+: read) ∧
      ∃ d ∈ p.delimiters, d.startDelimiter <+: (p.recieve size port).buffer.take n ∧
        d.endDelimiter <:+ (p.recieve size port).buffer.take n

/-- The start delimiter whose window is the first to agree fits in the buffer; and if the
message that follows fits, then no byte of that window was a filler, and no byte of the end
window was one either, unless the piece happens to be framed by some couple anyway. -/
def Unfilled (p : DelimiterProtocol) (size : ℕ) (port : List PortRead) : Prop :=
  ∀ l d rest, port = l.map .byte ++ rest → FoundStart p.delimiters l d →
    d.startDelimiter.length ≤ size ∧
      ∀ m rest', rest = m.map .byte ++ rest' → d.FoundEnd m →
        d.startDelimiter.length + m.length ≤ size →
          d.startDelimiter.length ≤ l.length ∧
            (d.endDelimiter.length ≤ m.length ∨
              ∃ d' ∈ p.delimiters, d'.startDelimiter <+: d.startDelimiter ++ m ∧
                d'.endDelimiter <:+ d.startDelimiter ++ m)

theorem map_byte_injective : Function.Injective (List.map PortRead.byte) :=
  List.map_injective_iff.mpr fun _ _ h => PortRead.byte.inj h

theorem sound_of_not_returned {size : ℕ} {port : List PortRead} {r : Option ℕ}
    {buffer : List UInt8} {rest : List PortRead}
    (h : p.recieve size port = ⟨r, buffer, rest⟩) (hr : r = none ∨ r = some 0)
    (hb : buffer.length ≤ size) : p.Sound size port := by
  rw [Sound, h]
  refine ⟨hb, fun n hn hne => ?_⟩
  rcases hr with rfl | rfl
  · cases hn
  · exact absurd (Option.some.inj hn).symm hne

theorem Sound.unfilled {p : DelimiterProtocol} {size : ℕ} {port : List PortRead}
    (h : p.Sound size port) : p.Unfilled size port := by
  obtain ⟨hlen, hres⟩ := h
  rintro l d rest rfl hstart
  have hend := p.end_ne d hstart.mem
  rw [p.recieve_of_foundStart size rest hstart] at hlen hres
  constructor
  · -- whatever follows, the start delimiter has been written
    rcases searchEnd_cases size d.startDelimiter hend rest .nil with
      ⟨m, rest', -, -, hsize, h⟩ | ⟨r, b, rest', -, -, h⟩
    · omega
    · rw [h, List.length_append] at hlen
      omega
  · rintro m rest' rfl ⟨m₀, c, rfl, hno, hends⟩ hsize
    rw [List.length_append, List.length_singleton] at hsize
    have hfits : d.startDelimiter.length + m₀.length < size := by omega
    rw [searchEnd_found _ rest' hend (by rwa [List.nil_append])
      (by rwa [List.nil_append]) hfits] at hres
    obtain ⟨⟨read, hread, hinfix⟩, hframed⟩ := hres _ rfl (by simp)
    rw [List.take_length] at hinfix hframed
    rw [← List.append_assoc, List.append_cancel_right_eq, ← List.map_append] at hread
    obtain rfl := map_byte_injective hread
    have hle := hinfix.length_le
    rw [List.length_append, @List.length_append _ l, Nat.add_le_add_iff_right] at hle
    exact ⟨hle, .inr hframed⟩

/-- A call that finds a start delimiter. -/
theorem Unfilled.sound_of_foundStart {p : DelimiterProtocol} {size : ℕ} {l : List UInt8}
    {d : Delimiters} {rest : List PortRead} (hstart : FoundStart p.delimiters l d)
    (h : p.Unfilled size (l.map .byte ++ rest)) : p.Sound size (l.map .byte ++ rest) := by
  obtain ⟨hfits, hmessage⟩ := h l d rest rfl hstart
  have hrec := p.recieve_of_foundStart size rest hstart
  rcases searchEnd_cases size d.startDelimiter (p.end_ne d hstart.mem) rest .nil
    with ⟨m, rest', rfl, hfound, hsize, h⟩ | ⟨r, b, rest', hr, hb, h⟩
  · rw [List.nil_append] at hfound
    obtain ⟨hread, hframed⟩ := hmessage m rest' rfl hfound hsize
    rw [Sound, hrec, h]
    refine ⟨by rwa [List.length_append], fun n hn _ => ?_⟩
    obtain rfl := Option.some.inj hn
    rw [List.take_length]
    constructor
    · -- without fillers the start delimiter ends the bytes read up to it
      refine ⟨l ++ m, by rw [List.map_append, List.append_assoc], ?_⟩
      obtain ⟨-, -, -, -, hat, -⟩ := hstart
      obtain ⟨skip, rfl⟩ := (window_eq_iff_of_length_le hread).mp hat
      exact ⟨skip, [], by simp⟩
    · rcases hframed with hlen | hframed
      · obtain ⟨-, -, -, -, hat⟩ := hfound
        have hsuffix := (window_eq_iff_of_length_le hlen).mp hat
        exact ⟨d, hstart.mem, List.prefix_append _ m,
          hsuffix.trans (List.suffix_append _ m)⟩
      · exact hframed
  · exact sound_of_not_returned (hrec.trans h) hr (by omega)

/-- **When a call is sound.** -/
theorem sound_iff_unfilled (p : DelimiterProtocol) (size : ℕ) (port : List PortRead) :
    p.Sound size port ↔ p.Unfilled size port := by
  refine ⟨Sound.unfilled, fun hcond => ?_⟩
  rcases searchStart_cases p.start_ne port .nil with ⟨l, d, rest, rfl, hstart⟩ | h | ⟨rest, h⟩
  · rw [List.nil_append] at hstart
    exact hcond.sound_of_foundStart hstart
  · have hrec : p.recieve size port = ⟨none, [], []⟩ := by rw [recieve, p.initTemp_eq, h]
    exact sound_of_not_returned hrec (.inl rfl) (Nat.zero_le size)
  · have hrec : p.recieve size port = ⟨some 0, [], rest⟩ := by
      rw [recieve, p.initTemp_eq, h]
    exact sound_of_not_returned hrec (.inr rfl) (Nat.zero_le size)

/-- A couple whose start delimiter begins with a space. -/
def spaced : DelimiterProtocol where
  delimiters := [⟨[32, 65], [66]⟩]
  couples_ne := by decide
  start_ne := by decide
  end_ne := by decide

/-- For the stream `AxB` the call returns four bytes, with a space that was never read. -/
theorem not_sound_spaced : ¬spaced.Sound 16 ([65, 120, 66].map .byte) := by
  intro h
  obtain ⟨⟨read, hread, hinfix⟩, -⟩ := h.2 4 rfl (by decide)
  have hlen := congrArg List.length hread
  have hle := hinfix.length_le
  rw [List.length_append, List.length_map, List.length_map] at hlen
  have hport : (spaced.recieve 16 ([65, 120, 66].map .byte)) =
    ⟨some 4, [32, 65, 120, 66], []⟩ := rfl
  rw [hport] at hlen hle
  simp at hlen hle
  omega

end DelimiterProtocol

end UtilityFramework
