import UtilityFramework.Communication.DelimiterProtocol
import UtilityFramework.Core.Types
import UtilityFramework.Lib.Bytes

/-!
# The UDP client port

`communication::ports::udp_client_port_impl` makes a stream of the datagrams that arrive at a
socket. `recieve` with a size keeps the last datagram in a cache, serves the bytes between
`m_cache_index` and `m_last_read_size` first, and reads the next datagram only when these are
used up; a datagram of another sender goes into the cache as well, but leaves the two
numbers as they are. `recieve` with size zero gives the next datagram as a whole.

The socket is the list of the outcomes of its reads. A call that has used up the list is
waiting for the socket.
-/

namespace UtilityFramework

open Bytes

universe u

/-- `UDP_CACHE_SIZE`: the most that a datagram over IPv4 can hold. -/
def udpCacheSize : ℕ := 65507

/-- A datagram that arrives, with the address of its sender. -/
structure Datagram (α : Type u) where
  sender : α
  data : List UInt8
  length_le : data.length ≤ udpCacheSize

/-- The outcome of one `receive_from`. -/
inductive SocketRead (α : Type u)
  | datagram (d : Datagram α)
  | error (e : CommunicationError)

/-- `udp_client_port_impl`, without the endpoints and options that only `connect` uses. The
remote address is given with the answer of its `is_unspecified`. -/
structure UdpClientPort (α : Type u) where
  remoteAddress : α
  remoteUnspecified : Bool
  multicast : Bool
  cache : List UInt8
  cacheIndex : ℕ
  lastReadSize : ℕ
  connected : Bool

/-- What a call of `recieve` has done: the number it returns (`none` as long as it waits for
the socket), the bytes it has written to the caller's buffer, from its beginning on, the
port, the reads of the socket it has not used, and the error it reports. -/
structure UdpRecieved (α : Type u) where
  returned : Option ℕ
  buffer : List UInt8
  port : UdpClientPort α
  socket : List (SocketRead α)
  commError : Option CommunicationError

namespace UdpClientPort

variable {α : Type u}

/-- The constructor. -/
def create (remoteAddress : α) (remoteUnspecified multicast : Bool) : UdpClientPort α where
  remoteAddress := remoteAddress
  remoteUnspecified := remoteUnspecified
  multicast := multicast
  cache := List.replicate udpCacheSize 0
  cacheIndex := 0
  lastReadSize := 0
  connected := false

/-- `connect`, when the socket can be opened. -/
def connect (p : UdpClientPort α) : UdpClientPort α :=
  { p with cacheIndex := 0, lastReadSize := 0, connected := true }

/-- A port after a successful `connect`. -/
abbrev opened (remoteAddress : α) (remoteUnspecified multicast : Bool) : UdpClientPort α :=
  (create remoteAddress remoteUnspecified multicast).connect

/-- The copy at the end of an iteration: as many of the cached bytes as there are and as
the caller still wants. -/
def copyCached (p : UdpClientPort α) (dataLeft : ℕ) : UdpClientPort α × List UInt8 :=
  let readSize := min (Size.sub p.lastReadSize p.cacheIndex) dataLeft
  ({ p with cacheIndex := p.cacheIndex + readSize }, slice p.cache p.cacheIndex readSize)

section Recieve

variable [DecidableEq α]

/-- The test for a datagram of another sender. -/
def ignores (p : UdpClientPort α) (d : Datagram α) : Bool :=
  !p.multicast && !p.remoteUnspecified && decide (d.sender ≠ p.remoteAddress)

/-- The loop of `recieve` with size zero. -/
def recieveDatagram (p : UdpClientPort α) : List (SocketRead α) → UdpRecieved α
  | [] => ⟨none, [], p, [], none⟩
  | .error e :: socket => ⟨some 0, [], { p with connected := false }, socket, some e⟩
  | .datagram d :: socket =>
    if d.data = [] then ⟨some 0, [], { p with connected := false }, socket, none⟩
    else
      let q := { p with cache := blit p.cache 0 d.data }
      if q.ignores d then q.recieveDatagram socket
      else ⟨some d.data.length, d.data, q, socket, none⟩

/-- The loop of `recieve` with a positive size; `buffer` is what has been copied so far. -/
def recieveLoop (size : ℕ) :
    ℕ → UdpClientPort α → List (SocketRead α) → List UInt8 → UdpRecieved α
  | 0, p, socket, buffer => ⟨none, buffer, p, socket, none⟩
  | fuel + 1, p, socket, buffer =>
    if size ≤ buffer.length then ⟨some buffer.length, buffer, p, socket, none⟩
    else if p.cacheIndex = p.lastReadSize then
      match socket with
      | [] => ⟨none, buffer, p, [], none⟩
      | .error e :: socket => ⟨some 0, buffer, { p with connected := false }, socket, some e⟩
      | .datagram d :: socket =>
        if d.data = [] then ⟨some 0, buffer, { p with connected := false }, socket, none⟩
        else
          let q := { p with cache := blit p.cache 0 d.data }
          if q.ignores d then recieveLoop size fuel q socket buffer
          else
            let q := { q with cacheIndex := 0, lastReadSize := d.data.length }
            let r := q.copyCached (size - buffer.length)
            recieveLoop size fuel r.1 socket (buffer ++ r.2)
    else
      let r := p.copyCached (size - buffer.length)
      recieveLoop size fuel r.1 socket (buffer ++ r.2)

/-- `recieve`. An iteration of the loop uses up a read of the socket or copies at least one
byte, so that the loop ends within the number of iterations it is given. -/
def recieve (p : UdpClientPort α) (size : ℕ) (socket : List (SocketRead α)) : UdpRecieved α :=
  if size = 0 then { p with cacheIndex := 0 }.recieveDatagram socket
  else recieveLoop size (size + socket.length + 1) p socket []

/-- Successive calls with the sizes they are given: the data they return, the port after them
and what is left of the socket. `none` if a call does not return. -/
def recieves (p : UdpClientPort α) :
    List ℕ → List (SocketRead α) → Option (List (List UInt8) × UdpClientPort α ×
      List (SocketRead α))
  | [], socket => some ([], p, socket)
  | size :: sizes, socket =>
    let r := p.recieve size socket
    r.returned.bind fun n =>
      (r.port.recieves sizes r.socket).map fun q => (r.buffer.take n :: q.1, q.2)

/-- The bytes of the datagrams that are not ignored, in the order of their arrival. -/
def accepted (p : UdpClientPort α) (arrived : List (Datagram α)) : List UInt8 :=
  (arrived.filter fun d => !p.ignores d).flatMap (·.data)

end Recieve

/-! ### The cache -/

/-- `m_cache_index <= m_last_read_size <=` the size of the cache. -/
structure Invariant (p : UdpClientPort α) : Prop where
  index_le : p.cacheIndex ≤ p.lastReadSize
  last_le : p.lastReadSize ≤ p.cache.length
  length_cache : p.cache.length = udpCacheSize

/-- The cached bytes that have not been served. -/
def pending (p : UdpClientPort α) : List UInt8 :=
  slice p.cache p.cacheIndex (p.lastReadSize - p.cacheIndex)

theorem invariant_connect (remoteAddress : α) (remoteUnspecified multicast : Bool) :
    (opened remoteAddress remoteUnspecified multicast).Invariant where
  index_le := le_refl 0
  last_le := Nat.zero_le _
  length_cache := List.length_replicate

section Cache

variable {p : UdpClientPort α}

theorem Invariant.length_pending (h : p.Invariant) :
    p.pending.length = p.lastReadSize - p.cacheIndex := by
  have hindex := h.index_le
  have hlast := h.last_le
  exact length_slice (by omega)

theorem Invariant.size_sub (h : p.Invariant) :
    Size.sub p.lastReadSize p.cacheIndex = p.lastReadSize - p.cacheIndex := by
  refine Size.sub_of_le h.index_le (lt_of_le_of_lt h.last_le ?_)
  rw [h.length_cache]
  decide

/-- The copy serves the first of the pending bytes and leaves the others pending. -/
theorem Invariant.copyCached (h : p.Invariant) (n : ℕ) :
    (p.copyCached n).2 = p.pending.take n ∧ (p.copyCached n).1.pending = p.pending.drop n ∧
      (p.copyCached n).1.Invariant := by
  have hindex := h.index_le
  have hlast := h.last_le
  simp only [UdpClientPort.copyCached, h.size_sub]
  refine ⟨?_, ?_, ⟨?_, hlast, h.length_cache⟩⟩
  · rw [pending, slice, slice, List.take_take, Nat.min_comm]
  · rw [pending, pending, slice, slice, List.drop_take, List.drop_drop]
    rcases Nat.le_total n (p.lastReadSize - p.cacheIndex) with hle | hle
    · rw [Nat.min_eq_right hle, Nat.sub_sub]
    · have h₁ : p.lastReadSize - (p.cacheIndex + (p.lastReadSize - p.cacheIndex)) = 0 := by omega
      have h₂ : p.lastReadSize - p.cacheIndex - n = 0 := by omega
      rw [Nat.min_eq_left hle, h₁, h₂, List.take_zero, List.take_zero]
  · show p.cacheIndex + min (p.lastReadSize - p.cacheIndex) n ≤ p.lastReadSize
    omega

theorem Invariant.length_copyCached (h : p.Invariant) (n : ℕ) :
    (p.copyCached n).2.length = min n (p.lastReadSize - p.cacheIndex) := by
  rw [(h.copyCached n).1, List.length_take, h.length_pending]

/-- A datagram of another sender overwrites the cache when nothing in it is pending. -/
theorem Invariant.overwrite (h : p.Invariant) (d : Datagram α) :
    { p with cache := blit p.cache 0 d.data }.Invariant := by
  have hfit : 0 + d.data.length ≤ p.cache.length := by
    rw [h.length_cache, zero_add]
    exact d.length_le
  have hlen : (blit p.cache 0 d.data).length = p.cache.length := length_blit hfit
  exact ⟨h.index_le, hlen ▸ h.last_le, hlen.trans h.length_cache⟩

/-- After a read, the datagram is what is pending. -/
theorem Invariant.fill (h : p.Invariant) (d : Datagram α) :
    { p with
      cache := blit p.cache 0 d.data
      cacheIndex := 0
      lastReadSize := d.data.length }.Invariant ∧
    { p with
      cache := blit p.cache 0 d.data
      cacheIndex := 0
      lastReadSize := d.data.length }.pending = d.data := by
  have hfit : 0 + d.data.length ≤ p.cache.length := by
    rw [h.length_cache, zero_add]
    exact d.length_le
  have hlen : (blit p.cache 0 d.data).length = p.cache.length := length_blit hfit
  refine ⟨⟨Nat.zero_le _, ?_, hlen.trans h.length_cache⟩, slice_blit_self hfit⟩
  show d.data.length ≤ (blit p.cache 0 d.data).length
  omega

end Cache

/-! ### The stream of the accepted datagrams -/

section Stream

variable [DecidableEq α] {p q : UdpClientPort α}

theorem ignores_congr (hremote : q.remoteAddress = p.remoteAddress)
    (hunspec : q.remoteUnspecified = p.remoteUnspecified) (hmulti : q.multicast = p.multicast) :
    q.ignores = p.ignores := by
  funext d
  rw [ignores, ignores, hremote, hunspec, hmulti]

theorem accepted_congr (h : q.ignores = p.ignores) (ds : List (Datagram α)) :
    q.accepted ds = p.accepted ds := by
  rw [accepted, accepted, h]

theorem accepted_cons_of_ignores {d : Datagram α} (h : p.ignores d = true)
    (ds : List (Datagram α)) : p.accepted (d :: ds) = p.accepted ds := by
  rw [accepted, List.filter_cons, if_neg (by simp [h]), accepted]

theorem accepted_cons {d : Datagram α} (h : ¬p.ignores d = true) (ds : List (Datagram α)) :
    p.accepted (d :: ds) = d.data ++ p.accepted ds := by
  rw [accepted, List.filter_cons, if_pos (by simp [h]), List.flatMap_cons, accepted]

/-- The bytes a call can still give: those pending, and those of the datagrams. -/
def available (p : UdpClientPort α) (ds : List (Datagram α)) : List UInt8 :=
  p.pending ++ p.accepted ds

/-- The reads of a socket at which the given datagrams arrive. -/
def arrivals (ds : List (Datagram α)) : List (SocketRead α) := ds.map .datagram

/-- What a call leaves behind after it has taken `n` bytes of the stream. -/
structure Served (p : UdpClientPort α) (ds : List (Datagram α)) (n : ℕ)
    (q : UdpClientPort α) (ds' : List (Datagram α)) : Prop where
  invariant : q.Invariant
  ignores_eq : q.ignores = p.ignores
  available_eq : q.available ds' = (p.available ds).drop n
  suffix : ds' <:+ ds

/-- `r` gives the caller the bytes it still wants, if the stream has as many, and waits
otherwise. -/
def Serves (size : ℕ) (p : UdpClientPort α) (ds : List (Datagram α)) (buffer : List UInt8)
    (r : UdpRecieved α) : Prop :=
  if size - buffer.length ≤ (p.available ds).length then
    ∃ q ds', r = ⟨some size, buffer ++ (p.available ds).take (size - buffer.length), q,
        arrivals ds', none⟩ ∧
      Served p ds (size - buffer.length) q ds'
  else r.returned = none

theorem Serves.of_available_eq {size : ℕ} {ds : List (Datagram α)} {buffer : List UInt8}
    {r : UdpRecieved α} (q : UdpClientPort α) (ds' : List (Datagram α))
    (h : Serves size q ds' buffer r) (hig : q.ignores = p.ignores)
    (hav : q.available ds' = p.available ds) (hsuf : ds' <:+ ds) :
    Serves size p ds buffer r := by
  rw [Serves, hav] at h
  rw [Serves]
  split_ifs at h ⊢
  · obtain ⟨q', ds'', hr, hserved⟩ := h
    exact ⟨q', ds'', hr, hserved.invariant, hserved.ignores_eq.trans hig,
      hav ▸ hserved.available_eq, hserved.suffix.trans hsuf⟩
  · exact h

/-- Bytes that are copied from the cache need not be given any more. -/
theorem Serves.of_copyCached {size : ℕ} {ds : List (Datagram α)} {buffer : List UInt8}
    {r : UdpRecieved α} (hinv : p.Invariant) (hbuf : buffer.length ≤ size)
    (h : Serves size (p.copyCached (size - buffer.length)).1 ds
      (buffer ++ (p.copyCached (size - buffer.length)).2) r) : Serves size p ds buffer r := by
  obtain ⟨hdata, hpending, -⟩ := hinv.copyCached (size - buffer.length)
  generalize hc : p.copyCached (size - buffer.length) = c at h hdata hpending
  have hig : c.1.ignores = p.ignores := by
    rw [← hc]
    exact ignores_congr rfl rfl rfl
  have hlen : c.2.length ≤ size - buffer.length := by
    rw [hdata, List.length_take]
    exact min_le_left _ _
  have htake : c.2.take (size - buffer.length) = c.2 := List.take_of_length_le hlen
  have hdrop : c.2.drop (size - buffer.length) = [] := List.drop_of_length_le hlen
  have hav : p.available ds = c.2 ++ c.1.available ds := by
    rw [available, available, hdata, hpending, ← List.append_assoc, List.take_append_drop,
      accepted_congr hig]
  have hsub : size - (buffer ++ c.2).length = size - buffer.length - c.2.length := by
    rw [List.length_append]
    omega
  rw [Serves, hsub] at h
  rw [Serves, hav, List.length_append]
  split_ifs at h ⊢ with h₁ h₂ h₂
  · obtain ⟨q', ds', hr, hserved⟩ := h
    refine ⟨q', ds', ?_, hserved.invariant, hserved.ignores_eq.trans hig, ?_, hserved.suffix⟩
    · rw [hr, List.take_append, htake, List.append_assoc]
    · rw [hserved.available_eq, hav, List.drop_append, hdrop, List.nil_append]
  · omega
  · omega
  · exact h

section Iterations

variable {size fuel : ℕ} {socket : List (SocketRead α)} {buffer : List UInt8}

theorem recieveLoop_of_full (h : size ≤ buffer.length) :
    recieveLoop size (fuel + 1) p socket buffer =
      ⟨some buffer.length, buffer, p, socket, none⟩ := by
  rw [recieveLoop.eq_def]
  exact if_pos h

theorem recieveLoop_cached (h : ¬size ≤ buffer.length) (hcache : p.cacheIndex ≠ p.lastReadSize) :
    recieveLoop size (fuel + 1) p socket buffer =
      recieveLoop size fuel (p.copyCached (size - buffer.length)).1 socket
        (buffer ++ (p.copyCached (size - buffer.length)).2) := by
  rw [recieveLoop.eq_def]
  exact (if_neg h).trans (if_neg hcache)

theorem recieveLoop_waiting (h : ¬size ≤ buffer.length) (hcache : p.cacheIndex = p.lastReadSize) :
    recieveLoop size (fuel + 1) p [] buffer = ⟨none, buffer, p, [], none⟩ := by
  rw [recieveLoop.eq_def]
  exact (if_neg h).trans (if_pos hcache)

theorem recieveLoop_ignored {d : Datagram α} (h : ¬size ≤ buffer.length)
    (hcache : p.cacheIndex = p.lastReadSize) (hne : d.data ≠ []) (hig : p.ignores d = true) :
    recieveLoop size (fuel + 1) p (.datagram d :: socket) buffer =
      recieveLoop size fuel { p with cache := blit p.cache 0 d.data } socket buffer := by
  rw [recieveLoop.eq_def]
  exact (if_neg h).trans ((if_pos hcache).trans ((if_neg hne).trans (if_pos hig)))

theorem recieveLoop_read {d : Datagram α} (h : ¬size ≤ buffer.length)
    (hcache : p.cacheIndex = p.lastReadSize) (hne : d.data ≠ []) (hig : ¬p.ignores d = true)
    (hq : q = { p with
      cache := blit p.cache 0 d.data
      cacheIndex := 0
      lastReadSize := d.data.length }) :
    recieveLoop size (fuel + 1) p (.datagram d :: socket) buffer =
      recieveLoop size fuel (q.copyCached (size - buffer.length)).1 socket
        (buffer ++ (q.copyCached (size - buffer.length)).2) := by
  subst hq
  rw [recieveLoop.eq_def]
  exact (if_neg h).trans ((if_pos hcache).trans ((if_neg hne).trans (if_neg hig)))

end Iterations

/-- The loop gives the next bytes of the stream if there are enough of them, and waits
otherwise. -/
theorem recieveLoop_serves {size : ℕ} (fuel : ℕ) (p : UdpClientPort α) (ds : List (Datagram α))
    (buffer : List UInt8) (hinv : p.Invariant) (hne : ∀ d ∈ ds, d.data ≠ [])
    (hbuf : buffer.length ≤ size) (hfuel : size - buffer.length + ds.length < fuel) :
    Serves size p ds buffer (recieveLoop size fuel p (arrivals ds) buffer) := by
  induction fuel generalizing p ds buffer with
  | zero => omega
  | succ fuel ih =>
    by_cases hfull : size ≤ buffer.length
    · have hn : size - buffer.length = 0 := by omega
      have hsize : buffer.length = size := by omega
      rw [Serves, hn, if_pos (Nat.zero_le _), recieveLoop_of_full hfull]
      refine ⟨p, ds, ?_, ⟨hinv, rfl, by rw [List.drop_zero], List.suffix_refl ds⟩⟩
      rw [List.take_zero, List.append_nil, hsize]
    by_cases hcache : p.cacheIndex = p.lastReadSize
    · have hpending : p.pending = [] := by
        rw [← List.length_eq_zero_iff, hinv.length_pending]
        omega
      cases ds with
      | nil =>
        have hav : (p.available []).length = 0 := by
          rw [available, hpending]
          rfl
        rw [Serves, if_neg (by omega)]
        exact congrArg UdpRecieved.returned (recieveLoop_waiting hfull hcache)
      | cons d ds =>
        have hd := hne d List.mem_cons_self
        have hne' : ∀ d' ∈ ds, d'.data ≠ [] := fun d' h => hne d' (List.mem_cons_of_mem d h)
        rw [List.length_cons] at hfuel
        by_cases hig : p.ignores d = true
        · -- the cache is overwritten, and nothing is taken from it
          refine Serves.of_available_eq { p with cache := blit p.cache 0 d.data } ds ?_
            (ignores_congr rfl rfl rfl) ?_ (List.suffix_cons d ds)
          · rw [arrivals, List.map_cons, recieveLoop_ignored hfull hcache hd hig]
            exact ih _ ds buffer (hinv.overwrite d) hne' hbuf (by omega)
          · rw [available, available, accepted_cons_of_ignores hig, hpending]
            congr 1
            rw [← List.length_eq_zero_iff, (hinv.overwrite d).length_pending]
            exact Nat.sub_eq_zero_of_le (le_of_eq hcache.symm)
        · obtain ⟨hinv', hpending'⟩ := hinv.fill d
          generalize hq : { p with
            cache := blit p.cache 0 d.data
            cacheIndex := 0
            lastReadSize := d.data.length } = q at hinv' hpending'
          have higq : q.ignores = p.ignores := by
            rw [← hq]
            exact ignores_congr rfl rfl rfl
          refine Serves.of_available_eq q ds ?_ higq ?_ (List.suffix_cons d ds)
          · refine Serves.of_copyCached hinv' hbuf ?_
            rw [arrivals, List.map_cons, recieveLoop_read hfull hcache hd hig hq.symm]
            have hlen := hinv'.length_copyCached (size - buffer.length)
            refine ih _ ds _ (hinv'.copyCached _).2.2 hne' ?_ ?_ <;>
              rw [List.length_append] <;> omega
          · rw [available, available, accepted_cons hig, hpending, hpending', accepted_congr higq]
            rfl
    · refine Serves.of_copyCached hinv hbuf ?_
      rw [recieveLoop_cached hfull hcache]
      have hlen := hinv.length_copyCached (size - buffer.length)
      have hindex := hinv.index_le
      refine ih _ ds _ (hinv.copyCached _).2.2 hne ?_ ?_ <;> rw [List.length_append] <;> omega

theorem Served.trans {r : UdpClientPort α} {ds ds' ds'' : List (Datagram α)} {n m : ℕ}
    (h : Served p ds n q ds') (h' : Served q ds' m r ds'') : Served p ds (n + m) r ds'' where
  invariant := h'.invariant
  ignores_eq := h'.ignores_eq.trans h.ignores_eq
  available_eq := by rw [h'.available_eq, h.available_eq, List.drop_drop]
  suffix := h'.suffix.trans h.suffix

/-- One call with a positive size. -/
theorem recieve_serves {size : ℕ} {ds : List (Datagram α)} (hinv : p.Invariant)
    (hne : ∀ d ∈ ds, d.data ≠ []) (hsize : 0 < size) :
    Serves size p ds [] (p.recieve size (arrivals ds)) := by
  have hlen : (arrivals ds).length = ds.length := List.length_map _
  rw [recieve, if_neg (by omega)]
  exact recieveLoop_serves _ p ds [] hinv hne (Nat.zero_le _) (by simp [hlen])

/-- Successive calls give successive parts of the stream, as long as it has enough bytes. -/
theorem recieves_eq {sizes : List ℕ} (hpos : ∀ n ∈ sizes, 0 < n) (ds : List (Datagram α))
    (hinv : p.Invariant) (hne : ∀ d ∈ ds, d.data ≠ []) :
    if sizes.sum ≤ (p.available ds).length then
      ∃ datas q ds', p.recieves sizes (arrivals ds) = some (datas, q, arrivals ds') ∧
        datas.map List.length = sizes ∧ datas.flatten = (p.available ds).take sizes.sum ∧
        Served p ds sizes.sum q ds'
    else p.recieves sizes (arrivals ds) = none := by
  induction sizes generalizing p ds with
  | nil =>
    rw [List.sum_nil, if_pos (Nat.zero_le _)]
    exact ⟨[], p, ds, rfl, rfl, rfl, hinv, rfl, rfl, List.suffix_refl ds⟩
  | cons n sizes ih =>
    have hcall := recieve_serves hinv hne (hpos n List.mem_cons_self)
    rw [Serves, List.length_nil, Nat.sub_zero] at hcall
    rw [List.sum_cons, recieves]
    split_ifs at hcall with hn
    · obtain ⟨q, ds', hr, hserved⟩ := hcall
      have hne' : ∀ d ∈ ds', d.data ≠ [] := fun d hd => hne d (hserved.suffix.subset hd)
      have hrest := ih (p := q) (fun k hk => hpos k (List.mem_cons_of_mem n hk)) ds'
        hserved.invariant hne'
      have hlen : (q.available ds').length = (p.available ds).length - n := by
        rw [hserved.available_eq, List.length_drop]
      have htake : ((p.available ds).take n).length = n := by
        rw [List.length_take, Nat.min_eq_left hn]
      rw [hr]
      simp only [List.nil_append, Option.bind_some]
      split_ifs at hrest with hsum
      · obtain ⟨datas, q', ds'', hr', hmap, hflat, hserved'⟩ := hrest
        rw [if_pos (by omega), hr']
        refine ⟨_ :: datas, q', ds'', rfl, ?_, ?_, hserved.trans hserved'⟩
        · rw [List.map_cons, hmap, List.take_of_length_le (le_of_eq htake), htake]
        · rw [List.flatten_cons, hflat, hserved.available_eq, List.take_add,
            List.take_of_length_le (le_of_eq htake)]
      · rw [if_neg (by omega), hrest]
        rfl
    · rw [if_neg (by omega), hcall]
      rfl

/-- **The datagrams as a stream.** From a connected port on, calls with positive sizes all
return precisely if the accepted datagrams have as many bytes as they ask for in total; the
data they return are then the first of these bytes, each once and in order, and the two
numbers of the cache stay within it. -/
theorem recieves_stream (remoteAddress : α) (remoteUnspecified multicast : Bool)
    (ds : List (Datagram α)) (hne : ∀ d ∈ ds, d.data ≠ []) (sizes : List ℕ)
    (hpos : ∀ n ∈ sizes, 0 < n) :
    (((opened remoteAddress remoteUnspecified multicast).recieves sizes
          (arrivals ds)).isSome = true ↔
        sizes.sum ≤ ((opened remoteAddress remoteUnspecified multicast).accepted ds).length) ∧
      ∀ datas q socket, (opened remoteAddress remoteUnspecified multicast).recieves sizes
          (arrivals ds) = some (datas, q, socket) →
        datas.map List.length = sizes ∧
        datas.flatten = ((opened remoteAddress remoteUnspecified multicast).accepted ds).take
          sizes.sum ∧
        q.cacheIndex ≤ q.lastReadSize ∧ q.lastReadSize ≤ q.cache.length := by
  have hinv := invariant_connect remoteAddress remoteUnspecified multicast
  have hav : (opened remoteAddress remoteUnspecified multicast).available ds =
      (opened remoteAddress remoteUnspecified multicast).accepted ds := rfl
  have h := recieves_eq hpos ds hinv hne
  rw [hav] at h
  generalize opened remoteAddress remoteUnspecified multicast = p at h
  split_ifs at h with hsum
  · obtain ⟨datas, q, ds', hr, hmap, hflat, hserved⟩ := h
    refine ⟨by simp [hr, hsum], fun datas' q' socket hr' => ?_⟩
    rw [hr, Option.some.injEq, Prod.mk.injEq, Prod.mk.injEq] at hr'
    obtain ⟨rfl, rfl, -⟩ := hr'
    exact ⟨hmap, hflat, hserved.invariant.index_le, hserved.invariant.last_le⟩
  · refine ⟨by simp [h, hsum], fun datas' q' socket hr' => ?_⟩
    rw [h] at hr'
    exact absurd hr' (by simp)

/-- Two requests across two datagrams, with a datagram of another sender between them. -/
theorem recieves_stream_foreign :
    ((opened 7 false false).recieves [3, 2] (arrivals [⟨7, [1, 2], by decide⟩,
        ⟨8, [9], by decide⟩, ⟨7, [3, 4, 5, 6], by decide⟩])).isSome = true ∧
      ∀ datas q socket, (opened 7 false false).recieves [3, 2] (arrivals [⟨7, [1, 2], by decide⟩,
          ⟨8, [9], by decide⟩, ⟨7, [3, 4, 5, 6], by decide⟩]) = some (datas, q, socket) →
        datas.flatten = [1, 2, 3, 4, 5] :=
  ⟨(recieves_stream 7 false false _ (by decide) [3, 2] (by decide)).1.mpr (by decide),
    fun datas q socket h =>
      ((recieves_stream 7 false false _ (by decide) [3, 2] (by decide)).2 datas q socket h).2.1⟩

end Stream

end UdpClientPort

end UtilityFramework
