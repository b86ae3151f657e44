import Mathlib.Data.List.Forall2
import UtilityFramework.Communication.UdpClientPort

/-!
# The two modes of receiving datagrams

A call of `recieve` with size zero reads into the cache that the calls with positive sizes serve
their bytes from. It sets `m_cache_index` to the beginning of the cache but leaves
`m_last_read_size`, so that the datagram that it has given as a whole is served again to the next
call with a positive size, if one has been served before.

`orderly_iff` says that this is the only way in which bytes are delivered twice or out of order,
and that it happens in every run in which a call with size zero comes between two with positive
sizes. No datagram is empty: the port takes a read of no bytes for a failure.
-/

namespace UtilityFramework

open Bytes

universe u

variable {α : Type u}

/-! ### The specification -/

/-- The same arrivals, with other bytes. -/
def SameShape (ds ds' : List (Datagram α)) : Prop :=
  List.Forall₂ (fun d d' => d.sender = d'.sender ∧ d.data.length = d'.data.length) ds ds'

theorem SameShape.ne_nil {ds ds' : List (Datagram α)} (h : SameShape ds ds')
    (hne : ∀ d ∈ ds, d.data ≠ []) : ∀ d ∈ ds', d.data ≠ [] := by
  induction h with
  | nil => exact fun _ h => absurd h List.not_mem_nil
  | cons hd _ ih =>
    obtain ⟨hhead, htail⟩ := List.forall_mem_cons.mp hne
    refine List.forall_mem_cons.mpr ⟨?_, ih htail⟩
    rw [← List.length_pos_iff, ← hd.2]
    exact List.length_pos_iff.mpr hhead

/-- No call with size zero comes between two with positive sizes. -/
def ModesApart (sizes : List ℕ) : Prop :=
  ∀ pre m mid n post, sizes = pre ++ m :: (mid ++ n :: post) → 0 < m → 0 < n → 0 ∉ mid

namespace UdpClientPort

/-- Whatever the bytes of the datagrams are, the calls deliver a subsequence of them. No byte is
delivered twice, since it may be the only one of its kind, and no two are exchanged. -/
def Orderly [DecidableEq α] (p : UdpClientPort α) (sizes : List ℕ) (ds : List (Datagram α)) :
    Prop :=
  ∀ ds', SameShape ds ds' → ∀ datas q socket,
    p.recieves sizes (arrivals ds') = some (datas, q, socket) →
      datas.flatten.Sublist (ds'.flatMap fun d => d.data)

end UdpClientPort

/-! ### Sequences of modes -/

section Modes

variable {sizes : List ℕ} {m n : ℕ}

theorem ModesApart.tail (h : ModesApart (m :: sizes)) : ModesApart sizes :=
  fun pre m' mid n' post hsizes => h (m :: pre) m' mid n' post (by rw [hsizes]; rfl)

/-- **Modes apart.** The positive sizes are together, with zeroes before and behind them. -/
theorem ModesApart.exists_eq (h : ModesApart sizes) :
    ∃ a ns c, sizes = List.replicate a 0 ++ (ns ++ List.replicate c 0) ∧ ∀ n ∈ ns, 0 < n := by
  induction sizes with
  | nil => exact ⟨0, [], 0, rfl, fun _ h => absurd h List.not_mem_nil⟩
  | cons m sizes ih =>
    obtain ⟨a, ns, c, rfl, hpos⟩ := ih h.tail
    rcases Nat.eq_zero_or_pos m with rfl | hm
    · exact ⟨a + 1, ns, c, rfl, hpos⟩
    · cases ns with
      | nil =>
        refine ⟨0, [m], a + c, ?_, fun k hk => List.mem_singleton.mp hk ▸ hm⟩
        rw [List.nil_append, List.replicate_append_replicate]
        rfl
      | cons n ns =>
        -- there are no zeroes between the two
        have hn := hpos n List.mem_cons_self
        have ha : a = 0 := by
          by_contra hne
          exact h [] m (List.replicate a 0) n (ns ++ List.replicate c 0) rfl hm hn
            (List.mem_replicate.mpr ⟨hne, rfl⟩)
        subst ha
        refine ⟨0, m :: n :: ns, c, rfl, fun k hk => ?_⟩
        rcases List.mem_cons.mp hk with rfl | hk
        · exact hm
        · exact hpos k hk

/-- A zero with a positive size behind it has one right behind it, or another zero does. -/
theorem exists_zero_then_pos {mid : List ℕ} (hmid : 0 ∈ mid) (hn : 0 < n) (post : List ℕ) :
    ∃ u k v, mid ++ n :: post = u ++ 0 :: k :: v ∧ 0 < k := by
  induction mid with
  | nil => exact absurd hmid List.not_mem_nil
  | cons m mid ih =>
    by_cases hrest : 0 ∈ mid
    · obtain ⟨u, k, v, heq, hk⟩ := ih hrest
      exact ⟨m :: u, k, v, by rw [List.cons_append, heq, List.cons_append], hk⟩
    · obtain rfl : 0 = m := (List.mem_cons.mp hmid).resolve_right hrest
      cases mid with
      | nil => exact ⟨[], n, post, rfl, hn⟩
      | cons k mid =>
        refine ⟨[], k, mid ++ n :: post, rfl, Nat.pos_of_ne_zero fun hk => hrest ?_⟩
        rw [hk]
        exact List.mem_cons_self

/-- Otherwise there is a positive size right behind a zero, and one before it. -/
theorem exists_of_not_modesApart (h : ¬ModesApart sizes) :
    ∃ pre k post, sizes = pre ++ 0 :: k :: post ∧ 0 < k ∧ ∃ m ∈ pre, 0 < m := by
  rw [ModesApart] at h
  push Not at h
  obtain ⟨pre, m, mid, n, post, rfl, hm, hn, hmid⟩ := h
  obtain ⟨u, k, v, heq, hk⟩ := exists_zero_then_pos hmid hn post
  refine ⟨pre ++ m :: u, k, v, ?_, hk, m, ?_, hm⟩
  · rw [heq, List.append_assoc, List.cons_append]
  · exact List.mem_append_right _ List.mem_cons_self

end Modes

namespace UdpClientPort

theorem arrivals_injective : Function.Injective (arrivals : List (Datagram α) → _) :=
  List.map_injective_iff.mpr fun _ _ h => SocketRead.datagram.inj h

/-- The cache with a datagram at its beginning. -/
theorem length_overwrite {cache : List UInt8} (hcache : cache.length = udpCacheSize)
    (d : Datagram α) : (blit cache 0 d.data).length = udpCacheSize :=
  (length_blit (by rw [hcache, Nat.zero_add]; exact d.length_le)).trans hcache

/-! ### One byte among zeroes -/

/-- A datagram of zeroes. -/
def blank (d : Datagram α) : Datagram α :=
  ⟨d.sender, List.replicate d.data.length 0, List.length_replicate.trans_le d.length_le⟩

/-- A datagram with a one at the beginning. -/
def mark (d : Datagram α) : Datagram α where
  sender := d.sender
  data := 1 :: List.replicate (d.data.length - 1) 0
  length_le := by
    have := d.length_le
    rw [List.length_cons, List.length_replicate]
    rw [udpCacheSize] at *
    omega

theorem sameShape_map_blank (ds : List (Datagram α)) : SameShape ds (ds.map blank) := by
  induction ds with
  | nil => exact List.Forall₂.nil
  | cons d ds ih => exact List.Forall₂.cons ⟨rfl, List.length_replicate.symm⟩ ih

theorem sameShape_mark {front rest : List (Datagram α)} {d : Datagram α} (hd : d.data ≠ []) :
    SameShape (front ++ d :: rest) (front.map blank ++ mark d :: rest.map blank) := by
  have hpos := List.length_pos_iff.mpr hd
  refine List.rel_append (sameShape_map_blank front) (List.Forall₂.cons ⟨rfl, ?_⟩
    (sameShape_map_blank rest))
  rw [mark, List.length_cons, List.length_replicate]
  omega

/-- There is one byte that is no zero. -/
theorem count_one_marked (front rest : List (Datagram α)) (d : Datagram α) :
    ((front.map blank ++ mark d :: rest.map blank).flatMap fun e => e.data).count 1 = 1 := by
  have hblank (es : List (Datagram α)) : ((es.map blank).flatMap fun e => e.data).count 1 = 0 := by
    rw [List.count_eq_zero, List.mem_flatMap]
    rintro ⟨e, he, hone⟩
    obtain ⟨e, -, rfl⟩ := List.mem_map.mp he
    exact absurd (List.eq_of_mem_replicate hone) (by decide)
  rw [List.flatMap_append, List.flatMap_cons, List.count_append, List.count_append, hblank, hblank,
    mark, List.count_cons_self, List.count_replicate]
  rfl

variable [DecidableEq α] {p q : UdpClientPort α} {ds : List (Datagram α)}

/-! ### Successive calls -/

theorem recieves_append (p : UdpClientPort α) (sizes sizes' : List ℕ)
    (socket : List (SocketRead α)) :
    p.recieves (sizes ++ sizes') socket =
      (p.recieves sizes socket).bind fun r =>
        (r.2.1.recieves sizes' r.2.2).map fun r' => (r.1 ++ r'.1, r'.2) := by
  induction sizes generalizing p socket with
  | nil =>
    rw [List.nil_append, recieves, Option.bind_some]
    simp
  | cons n sizes ih =>
    simp only [List.cons_append, recieves, ih]
    cases (p.recieve n socket).returned with
    | none => rfl
    | some k =>
      simp only [Option.bind_some]
      cases (p.recieve n socket).port.recieves sizes (p.recieve n socket).socket with
      | none => rfl
      | some r =>
        simp only [Option.bind_some, Option.map_some, Option.map_map]
        rfl

/-- One call that has returned. -/
theorem recieves_cons_eq_some {n : ℕ} {sizes : List ℕ} {socket socket' : List (SocketRead α)}
    {datas : List (List UInt8)} (h : p.recieves (n :: sizes) socket = some (datas, q, socket')) :
    ∃ k datas', (p.recieve n socket).returned = some k ∧
      (p.recieve n socket).port.recieves sizes (p.recieve n socket).socket =
        some (datas', q, socket') ∧
      datas = (p.recieve n socket).buffer.take k :: datas' := by
  rw [recieves] at h
  obtain ⟨k, hk, h⟩ := Option.bind_eq_some_iff.mp h
  obtain ⟨r, hr, heq⟩ := Option.map_eq_some_iff.mp h
  obtain ⟨hdatas, hrest⟩ := Prod.mk.inj heq
  exact ⟨k, r.1, hk, hrest ▸ hr, hdatas.symm⟩

/-! ### Calls with size zero -/

/-- The next datagram that is not ignored, as a whole. -/
theorem recieveDatagram_spec (hcache : p.cache.length = udpCacheSize)
    (hne : ∀ d ∈ ds, d.data ≠ []) {n : ℕ}
    (h : (p.recieveDatagram (arrivals ds)).returned = some n) :
    ∃ skipped d rest cache, ds = skipped ++ d :: rest ∧ (∀ e ∈ skipped, p.ignores e = true) ∧
      ¬p.ignores d = true ∧ cache.length = udpCacheSize ∧
      p.recieveDatagram (arrivals ds) =
        ⟨some d.data.length, d.data, { p with cache := blit cache 0 d.data }, arrivals rest,
          none⟩ := by
  induction ds generalizing p with
  | nil => cases h
  | cons d ds ih =>
    have hd := hne d List.mem_cons_self
    simp only [arrivals, List.map_cons, recieveDatagram, if_neg hd] at h ⊢
    by_cases hig : p.ignores d = true
    · have hig' : ({ p with cache := blit p.cache 0 d.data } : UdpClientPort α).ignores d = true :=
        hig
      rw [if_pos hig'] at h ⊢
      obtain ⟨skipped, e, rest, cache, rfl, hskipped, he, hlength, heq⟩ :=
        ih (length_overwrite hcache d) (fun e he => hne e (List.mem_cons_of_mem _ he)) h
      refine ⟨d :: skipped, e, rest, cache, rfl, fun e' he' => ?_, he, hlength, heq⟩
      rcases List.mem_cons.mp he' with rfl | he'
      · exact hig
      · exact hskipped e' he'
    · have hig' :
          ¬({ p with cache := blit p.cache 0 d.data } : UdpClientPort α).ignores d = true := hig
      rw [if_neg hig']
      exact ⟨[], d, ds, p.cache, rfl, fun _ he => absurd he List.not_mem_nil, hig, hcache, rfl⟩

/-- What a call with size zero does to the port. -/
structure GaveDatagram (p : UdpClientPort α) (ds : List (Datagram α)) (d : Datagram α)
    (q : UdpClientPort α) (rest : List (Datagram α)) : Prop where
  exists_eq : ∃ skipped, ds = skipped ++ d :: rest ∧ (∀ e ∈ skipped, p.ignores e = true)
  not_ignores : ¬p.ignores d = true
  ignores_eq : q.ignores = p.ignores
  cacheIndex_eq : q.cacheIndex = 0
  lastReadSize_eq : q.lastReadSize = p.lastReadSize
  cache_eq : ∃ cache, cache.length = udpCacheSize ∧ q.cache = blit cache 0 d.data

theorem recieve_zero_spec (hcache : p.cache.length = udpCacheSize)
    (hne : ∀ d ∈ ds, d.data ≠ []) {n : ℕ}
    (h : (p.recieve 0 (arrivals ds)).returned = some n) :
    ∃ d q rest, p.recieve 0 (arrivals ds) =
        ⟨some d.data.length, d.data, q, arrivals rest, none⟩ ∧ p.GaveDatagram ds d q rest := by
  rw [recieve, if_pos rfl] at h ⊢
  obtain ⟨skipped, d, rest, cache, hds, hskipped, hd, hlength, heq⟩ :=
    recieveDatagram_spec (p := { p with cacheIndex := 0 }) hcache hne h
  exact ⟨d, _, rest, heq, ⟨skipped, hds, hskipped⟩, hd, rfl, rfl, rfl, cache, hlength, rfl⟩

theorem GaveDatagram.cache_length {d : Datagram α} {rest : List (Datagram α)}
    (h : p.GaveDatagram ds d q rest) : q.cache.length = udpCacheSize := by
  obtain ⟨cache, hlength, hcache⟩ := h.cache_eq
  exact hcache ▸ length_overwrite hlength d

theorem GaveDatagram.invariant {d : Datagram α} {rest : List (Datagram α)}
    (h : p.GaveDatagram ds d q rest) (hinv : p.Invariant) : q.Invariant where
  index_le := h.cacheIndex_eq ▸ Nat.zero_le _
  last_le := by
    rw [h.lastReadSize_eq, h.cache_length, ← hinv.length_cache]
    exact hinv.last_le
  length_cache := h.cache_length

theorem GaveDatagram.suffix {d : Datagram α} {rest : List (Datagram α)}
    (h : p.GaveDatagram ds d q rest) : rest <:+ ds := by
  obtain ⟨skipped, rfl, -⟩ := h.exists_eq
  exact ⟨skipped ++ [d], by simp⟩

theorem accepted_append (p : UdpClientPort α) (ds ds' : List (Datagram α)) :
    p.accepted (ds ++ ds') = p.accepted ds ++ p.accepted ds' := by
  rw [accepted, List.filter_append, List.flatMap_append]
  rfl

theorem GaveDatagram.accepted_eq {d : Datagram α} {rest : List (Datagram α)}
    (h : p.GaveDatagram ds d q rest) : p.accepted ds = d.data ++ q.accepted rest := by
  obtain ⟨skipped, rfl, hskipped⟩ := h.exists_eq
  have hnone : p.accepted skipped = [] := by
    rw [accepted, List.filter_eq_nil_iff.mpr fun e he => by simp [hskipped e he]]
    rfl
  rw [accepted_append, hnone, List.nil_append, accepted_cons h.not_ignores,
    accepted_congr h.ignores_eq]

/-- Calls with size zero give the datagrams, one after the other. -/
theorem recieves_zeroes {c : ℕ} {socket : List (SocketRead α)} {datas : List (List UInt8)}
    (hinv : p.Invariant) (hne : ∀ d ∈ ds, d.data ≠ [])
    (h : p.recieves (List.replicate c 0) (arrivals ds) = some (datas, q, socket)) :
    ∃ rest, socket = arrivals rest ∧ rest <:+ ds ∧ q.Invariant ∧ q.ignores = p.ignores ∧
      q.lastReadSize = p.lastReadSize ∧ (p.cacheIndex = 0 → q.cacheIndex = 0) ∧
      p.accepted ds = datas.flatten ++ q.accepted rest := by
  induction c generalizing p ds datas with
  | zero =>
    rw [List.replicate_zero, recieves, Option.some.injEq, Prod.mk.injEq, Prod.mk.injEq] at h
    obtain ⟨rfl, rfl, rfl⟩ := h
    exact ⟨ds, rfl, List.suffix_rfl, hinv, rfl, rfl, id, rfl⟩
  | succ c ih =>
    rw [List.replicate_succ] at h
    obtain ⟨k, datas', hk, hrest, rfl⟩ := recieves_cons_eq_some h
    obtain ⟨d, q', rest, heq, hgave⟩ := recieve_zero_spec hinv.length_cache hne hk
    rw [heq] at hk hrest ⊢
    obtain ⟨rest', hsocket, hsuffix, hinv', hig, hlast, hindex, haccepted⟩ :=
      ih (hgave.invariant hinv) (fun e he => hne e (hgave.suffix.subset he)) hrest
    refine ⟨rest', hsocket, hsuffix.trans hgave.suffix, hinv', hig.trans hgave.ignores_eq,
      hlast.trans hgave.lastReadSize_eq, fun _ => hindex hgave.cacheIndex_eq, ?_⟩
    obtain rfl : d.data.length = k := Option.some.inj hk
    rw [hgave.accepted_eq, haccepted, List.take_length, List.flatten_cons, List.append_assoc]

/-! ### Modes apart -/

/-- The calls with positive sizes, and those with size zero behind them. -/
theorem recieves_positive_then_zeroes {ns : List ℕ} {c : ℕ} {socket : List (SocketRead α)}
    {datas : List (List UInt8)} (hinv : p.Invariant) (hne : ∀ d ∈ ds, d.data ≠ [])
    (hpos : ∀ n ∈ ns, 0 < n)
    (h : p.recieves (ns ++ List.replicate c 0) (arrivals ds) = some (datas, q, socket)) :
    datas.flatten.Sublist (p.available ds) := by
  rw [recieves_append] at h
  obtain ⟨⟨datas₁, q₁, socket₁⟩, hfirst, h⟩ := Option.bind_eq_some_iff.mp h
  obtain ⟨⟨datas₂, q₂, socket₂⟩, hsecond, heq⟩ := Option.map_eq_some_iff.mp h
  obtain ⟨rfl, -⟩ := Prod.mk.inj heq
  have hcalls := recieves_eq hpos ds hinv hne
  split_ifs at hcalls with hsum
  · obtain ⟨datas', q', ds', hr, -, hflatten, hserved⟩ := hcalls
    rw [hr, Option.some.injEq, Prod.mk.injEq, Prod.mk.injEq] at hfirst
    obtain ⟨rfl, rfl, rfl⟩ := hfirst
    have hne' : ∀ d ∈ ds', d.data ≠ [] := fun d hd => hne d (hserved.suffix.subset hd)
    obtain ⟨rest, -, -, -, -, -, -, haccepted⟩ :=
      recieves_zeroes hserved.invariant hne' hsecond
    -- what is left in the cache is not given any more
    have hsub : datas₂.flatten.Sublist (q'.available ds') := by
      rw [available, haccepted]
      exact (List.sublist_append_left _ _).trans (List.sublist_append_right _ _)
    rw [hserved.available_eq] at hsub
    have hwhole := (List.Sublist.refl ((p.available ds).take ns.sum)).append hsub
    rwa [List.take_append_drop, ← hflatten, ← List.flatten_append] at hwhole
  · rw [hcalls] at hfirst
    cases hfirst

theorem accepted_sublist (p : UdpClientPort α) (ds : List (Datagram α)) :
    (p.accepted ds).Sublist (ds.flatMap fun d => d.data) := by
  induction ds with
  | nil => exact List.Sublist.refl _
  | cons d ds ih =>
    rw [List.flatMap_cons]
    by_cases hig : p.ignores d = true
    · rw [accepted_cons_of_ignores hig]
      exact ih.trans (List.sublist_append_right _ _)
    · rw [accepted_cons hig]
      exact (List.Sublist.refl _).append ih

/-- **Modes apart** deliver in order. -/
theorem orderly_of_modesApart {sizes : List ℕ} (h : ModesApart sizes) (remoteAddress : α)
    (remoteUnspecified multicast : Bool) (hne : ∀ d ∈ ds, d.data ≠ []) :
    (opened remoteAddress remoteUnspecified multicast).Orderly sizes ds := by
  intro ds' hshape datas q socket hr
  obtain ⟨a, ns, c, rfl, hpos⟩ := h.exists_eq
  rw [recieves_append] at hr
  obtain ⟨⟨datas₁, q₁, socket₁⟩, hfirst, hr⟩ := Option.bind_eq_some_iff.mp hr
  obtain ⟨⟨datas₂, q₂, socket₂⟩, hsecond, heq⟩ := Option.map_eq_some_iff.mp hr
  obtain ⟨rfl, -⟩ := Prod.mk.inj heq
  have hne' := SameShape.ne_nil hshape hne
  obtain ⟨rest, rfl, hsuffix, hinv, -, hlast, hindex, haccepted⟩ :=
    recieves_zeroes (invariant_connect remoteAddress remoteUnspecified multicast) hne' hfirst
  have hsub := recieves_positive_then_zeroes hinv
    (fun d hd => hne' d (hsuffix.subset hd)) hpos hsecond
  -- nothing is in the cache before the first call with a positive size
  have hpending : q₁.pending = [] := by
    rw [← List.length_eq_zero_iff, hinv.length_pending, hlast, hindex rfl]
    rfl
  rw [available, hpending, List.nil_append] at hsub
  have hwhole := (List.Sublist.refl datas₁.flatten).append hsub
  rw [← haccepted, ← List.flatten_append] at hwhole
  exact hwhole.trans (accepted_sublist _ ds')

/-! ### Runs on other bytes -/

/-- The ports differ in nothing but the bytes in their caches. -/
structure Alike (p p' : UdpClientPort α) : Prop where
  ignores_eq : p.ignores = p'.ignores
  cacheIndex_eq : p.cacheIndex = p'.cacheIndex
  lastReadSize_eq : p.lastReadSize = p'.lastReadSize
  length_cache : p.cache.length = p'.cache.length

/-- Calls have done the same, up to bytes. -/
structure AlikeRecieved (r r' : UdpRecieved α) : Prop where
  returned_eq : r.returned = r'.returned
  length_buffer : r.buffer.length = r'.buffer.length
  port : r.port.Alike r'.port
  socket : ∃ es es', r.socket = arrivals es ∧ r'.socket = arrivals es' ∧ SameShape es es'

section Alike

variable {p' : UdpClientPort α} {d d' : Datagram α} {ds' : List (Datagram α)}

theorem Alike.ignores_iff (h : p.Alike p') (hd : d.sender = d'.sender) :
    p.ignores d = p'.ignores d' := by
  rw [h.ignores_eq, ignores, ignores, hd]

theorem Alike.overwrite (h : p.Alike p') (hd : d.data.length = d'.data.length) :
    Alike { p with cache := blit p.cache 0 d.data }
      { p' with cache := blit p'.cache 0 d'.data } where
  ignores_eq := h.ignores_eq
  cacheIndex_eq := h.cacheIndex_eq
  lastReadSize_eq := h.lastReadSize_eq
  length_cache := by simp [blit, hd, h.length_cache]

theorem Alike.copyCached (h : p.Alike p') (n : ℕ) :
    (p.copyCached n).1.Alike (p'.copyCached n).1 ∧
      (p.copyCached n).2.length = (p'.copyCached n).2.length := by
  have hsize : min (Size.sub p.lastReadSize p.cacheIndex) n =
      min (Size.sub p'.lastReadSize p'.cacheIndex) n := by
    rw [h.lastReadSize_eq, h.cacheIndex_eq]
  constructor
  · refine ⟨h.ignores_eq, ?_, h.lastReadSize_eq, h.length_cache⟩
    exact congrArg₂ (· + ·) h.cacheIndex_eq hsize
  · simp only [UdpClientPort.copyCached, slice, List.length_take, List.length_drop,
      h.length_cache, h.cacheIndex_eq, h.lastReadSize_eq]

/-- The cache with a datagram that has been read. -/
theorem Alike.read (h : p.Alike p') (hd : d.data.length = d'.data.length) :
    Alike
      { p with cache := blit p.cache 0 d.data, cacheIndex := 0, lastReadSize := d.data.length }
      { p' with cache := blit p'.cache 0 d'.data, cacheIndex := 0,
                lastReadSize := d'.data.length } :=
  ⟨h.ignores_eq, rfl, hd, (h.overwrite hd).length_cache⟩

theorem recieveDatagram_alike (h : p.Alike p') (hshape : SameShape ds ds')
    (hne : ∀ d ∈ ds, d.data ≠ []) :
    AlikeRecieved (p.recieveDatagram (arrivals ds)) (p'.recieveDatagram (arrivals ds')) := by
  induction hshape generalizing p p' with
  | nil => exact ⟨rfl, rfl, h, [], [], rfl, rfl, List.Forall₂.nil⟩
  | @cons d d' ds ds' hd hshape ih =>
    obtain ⟨hdata, hne'⟩ := List.forall_mem_cons.mp hne
    have hdata' : d'.data ≠ [] := by
      rw [← List.length_pos_iff, ← hd.2]
      exact List.length_pos_iff.mpr hdata
    have hover := h.overwrite hd.2
    simp only [arrivals, List.map_cons, recieveDatagram]
    rw [if_neg hdata, if_neg hdata', hover.ignores_iff hd.1]
    split_ifs
    · exact ih hover hne'
    · exact ⟨congrArg some hd.2, hd.2, hover, ds, ds', rfl, rfl, hshape⟩

theorem recieveLoop_alike {size fuel : ℕ} {buffer buffer' : List UInt8} (h : p.Alike p')
    (hshape : SameShape ds ds') (hne : ∀ d ∈ ds, d.data ≠ [])
    (hbuffer : buffer.length = buffer'.length) :
    AlikeRecieved (recieveLoop size fuel p (arrivals ds) buffer)
      (recieveLoop size fuel p' (arrivals ds') buffer') := by
  induction fuel generalizing p p' ds ds' buffer buffer' with
  | zero => exact ⟨rfl, hbuffer, h, ds, ds', rfl, rfl, hshape⟩
  | succ fuel ih =>
    by_cases hfull : size ≤ buffer.length
    · rw [recieveLoop_of_full hfull, recieveLoop_of_full (hbuffer ▸ hfull)]
      exact ⟨congrArg some hbuffer, hbuffer, h, ds, ds', rfl, rfl, hshape⟩
    have hfull' : ¬size ≤ buffer'.length := hbuffer ▸ hfull
    by_cases hcache : p.cacheIndex = p.lastReadSize
    · have hcache' : p'.cacheIndex = p'.lastReadSize :=
        h.cacheIndex_eq ▸ h.lastReadSize_eq ▸ hcache
      cases hshape with
      | nil =>
        rw [arrivals, List.map_nil, recieveLoop_waiting hfull hcache,
          recieveLoop_waiting hfull' hcache']
        exact ⟨rfl, hbuffer, h, [], [], rfl, rfl, List.Forall₂.nil⟩
      | @cons d d' ds ds' hd hshape =>
        obtain ⟨hdata, hne'⟩ := List.forall_mem_cons.mp hne
        have hdata' : d'.data ≠ [] := by
          rw [← List.length_pos_iff, ← hd.2]
          exact List.length_pos_iff.mpr hdata
        rw [arrivals, List.map_cons, arrivals, List.map_cons]
        by_cases hig : p.ignores d = true
        · have hig' : p'.ignores d' = true := h.ignores_iff hd.1 ▸ hig
          rw [recieveLoop_ignored hfull hcache hdata hig,
            recieveLoop_ignored hfull' hcache' hdata' hig']
          exact ih (h.overwrite hd.2) hshape hne' hbuffer
        · have hig' : ¬p'.ignores d' = true := h.ignores_iff hd.1 ▸ hig
          rw [recieveLoop_read hfull hcache hdata hig rfl,
            recieveLoop_read hfull' hcache' hdata' hig' rfl, ← hbuffer]
          obtain ⟨hport, hlength⟩ := (h.read hd.2).copyCached (size - buffer.length)
          refine ih hport hshape hne' ?_
          rw [List.length_append, List.length_append, hlength, hbuffer]
    · have hcache' : p'.cacheIndex ≠ p'.lastReadSize :=
        h.cacheIndex_eq ▸ h.lastReadSize_eq ▸ hcache
      rw [recieveLoop_cached hfull hcache, recieveLoop_cached hfull' hcache', ← hbuffer]
      obtain ⟨hport, hlength⟩ := h.copyCached (size - buffer.length)
      refine ih hport hshape hne ?_
      rw [List.length_append, List.length_append, hlength, hbuffer]

/-- **Calls** do not look at the bytes. -/
theorem recieve_alike (size : ℕ) (h : p.Alike p') (hshape : SameShape ds ds')
    (hne : ∀ d ∈ ds, d.data ≠ []) :
    AlikeRecieved (p.recieve size (arrivals ds)) (p'.recieve size (arrivals ds')) := by
  have hlength : (arrivals ds).length = (arrivals ds').length := by
    rw [arrivals, List.length_map, arrivals, List.length_map]
    exact List.Forall₂.length_eq hshape
  rw [recieve, recieve, hlength]
  split_ifs
  · exact recieveDatagram_alike ⟨h.ignores_eq, rfl, h.lastReadSize_eq, h.length_cache⟩ hshape hne
  · exact recieveLoop_alike h hshape hne rfl

end Alike

/-! ### What calls leave behind -/

/-- A call with a positive size reads a datagram, or one has been read before. -/
theorem lastReadSize_recieveLoop {size fuel : ℕ} {buffer : List UInt8} (hinv : p.Invariant)
    (hne : ∀ d ∈ ds, d.data ≠ [])
    (h : (recieveLoop size fuel p (arrivals ds) buffer).returned ≠ none)
    (hpos : 0 < p.lastReadSize ∨ buffer.length < size) :
    0 < (recieveLoop size fuel p (arrivals ds) buffer).port.lastReadSize := by
  induction fuel generalizing p ds buffer with
  | zero => exact absurd rfl h
  | succ fuel ih =>
    by_cases hfull : size ≤ buffer.length
    · rw [recieveLoop_of_full hfull]
      exact hpos.resolve_right hfull.not_gt
    by_cases hcache : p.cacheIndex = p.lastReadSize
    · cases ds with
      | nil =>
        rw [arrivals, List.map_nil, recieveLoop_waiting hfull hcache] at h
        exact absurd rfl h
      | cons d ds =>
        obtain ⟨hdata, hne'⟩ := List.forall_mem_cons.mp hne
        rw [arrivals, List.map_cons] at h ⊢
        by_cases hig : p.ignores d = true
        · rw [recieveLoop_ignored hfull hcache hdata hig] at h ⊢
          exact ih (hinv.overwrite d) hne' h hpos
        · rw [recieveLoop_read hfull hcache hdata hig rfl] at h ⊢
          exact ih ((hinv.fill d).1.copyCached _).2.2 hne' h (.inl (List.length_pos_iff.mpr hdata))
    · rw [recieveLoop_cached hfull hcache] at h ⊢
      have hlast : 0 < p.lastReadSize :=
        (Nat.zero_le _).trans_lt (lt_of_le_of_ne hinv.index_le hcache)
      exact ih (hinv.copyCached _).2.2 hne h (.inl hlast)

/-- What a call leaves behind. -/
structure Left (p : UdpClientPort α) (ds : List (Datagram α)) (size : ℕ) (q : UdpClientPort α)
    (rest : List (Datagram α)) : Prop where
  invariant : q.Invariant
  suffix : rest <:+ ds
  lastReadSize_pos : 0 < p.lastReadSize ∨ 0 < size → 0 < q.lastReadSize

theorem recieve_left (hinv : p.Invariant) (hne : ∀ d ∈ ds, d.data ≠ []) {size n : ℕ}
    (h : (p.recieve size (arrivals ds)).returned = some n) :
    ∃ rest, (p.recieve size (arrivals ds)).socket = arrivals rest ∧
      p.Left ds size (p.recieve size (arrivals ds)).port rest := by
  rcases Nat.eq_zero_or_pos size with rfl | hsize
  · obtain ⟨d, q, rest, heq, hgave⟩ := recieve_zero_spec hinv.length_cache hne h
    rw [heq]
    refine ⟨rest, rfl, hgave.invariant hinv, hgave.suffix, fun hpos => ?_⟩
    exact hgave.lastReadSize_eq ▸ hpos.resolve_right (lt_irrefl 0)
  · have hserves := recieve_serves hinv hne hsize
    rw [Serves] at hserves
    split_ifs at hserves
    · obtain ⟨q, rest, heq, hserved⟩ := hserves
      refine ⟨rest, by rw [heq], by rw [heq]; exact hserved.invariant, hserved.suffix,
        fun _ => ?_⟩
      rw [recieve, if_neg hsize.ne'] at h ⊢
      exact lastReadSize_recieveLoop hinv hne (by rw [h]; exact Option.some_ne_none n)
        (.inr hsize)
    · rw [h] at hserves
      cases hserves

/-- **Successive calls**, on the same arrivals with other bytes. -/
theorem recieves_alike {sizes : List ℕ} {p' : UdpClientPort α} {ds' : List (Datagram α)}
    {datas : List (List UInt8)} {socket : List (SocketRead α)} (h : p.Alike p')
    (hinv : p.Invariant) (hinv' : p'.Invariant) (hshape : SameShape ds ds')
    (hne : ∀ d ∈ ds, d.data ≠ [])
    (hr : p.recieves sizes (arrivals ds) = some (datas, q, socket)) :
    ∃ datas' q' rest rest', socket = arrivals rest ∧
      p'.recieves sizes (arrivals ds') = some (datas', q', arrivals rest') ∧
      q.Alike q' ∧ SameShape rest rest' ∧ rest <:+ ds ∧ rest' <:+ ds' ∧ q.Invariant ∧
      q'.Invariant ∧ (0 < p.lastReadSize ∨ (∃ m ∈ sizes, 0 < m) → 0 < q.lastReadSize) := by
  induction sizes generalizing p p' ds ds' datas with
  | nil =>
    rw [recieves, Option.some.injEq, Prod.mk.injEq, Prod.mk.injEq] at hr
    obtain ⟨rfl, rfl, rfl⟩ := hr
    refine ⟨[], p', ds, ds', rfl, rfl, h, hshape, List.suffix_rfl, List.suffix_rfl, hinv, hinv',
      fun hpos => hpos.resolve_right ?_⟩
    rintro ⟨m, hm, -⟩
    exact absurd hm List.not_mem_nil
  | cons size sizes ih =>
    obtain ⟨n, datas₁, hn, hrest, rfl⟩ := recieves_cons_eq_some hr
    have hne' := SameShape.ne_nil hshape hne
    have halike := recieve_alike size h hshape hne
    have hn' := halike.returned_eq ▸ hn
    obtain ⟨rest, hsocket, hleft⟩ := recieve_left hinv hne hn
    obtain ⟨rest', hsocket', hleft'⟩ := recieve_left hinv' hne' hn'
    obtain ⟨es, es', hes, hes', hshape'⟩ := halike.socket
    obtain rfl := arrivals_injective (hsocket.symm.trans hes)
    obtain rfl := arrivals_injective (hsocket'.symm.trans hes')
    rw [hsocket] at hrest
    obtain ⟨datas', q', last, last', hlast, hcalls', hport, hshape'', hsuffix, hsuffix', hq, hq',
      hpos⟩ := ih halike.port hleft.invariant hleft'.invariant hshape'
        (fun d hd => hne d (hleft.suffix.subset hd)) hrest
    refine ⟨(p'.recieve size (arrivals ds')).buffer.take n :: datas', q', last, last', hlast, ?_,
      hport, hshape'', hsuffix.trans hleft.suffix, hsuffix'.trans hleft'.suffix, hq, hq',
      fun hor => hpos ?_⟩
    · rw [recieves, hn', hsocket', hcalls']
      rfl
    · rcases hor with hlast | ⟨m, hm, hmpos⟩
      · exact .inl (hleft.lastReadSize_pos (.inl hlast))
      · rcases List.mem_cons.mp hm with rfl | hm
        · exact .inl (hleft.lastReadSize_pos (.inr hmpos))
        · exact .inr ⟨m, hm, hmpos⟩

/-! ### A zero between -/

/-- The first pending byte, after a datagram has been given as a whole. -/
theorem GaveDatagram.head?_pending {d : Datagram α} {rest : List (Datagram α)}
    (h : p.GaveDatagram ds d q rest) (hne : d.data ≠ []) (hlast : 0 < p.lastReadSize) :
    q.pending.head? = d.data.head? := by
  obtain ⟨cache, -, hcache⟩ := h.cache_eq
  obtain ⟨b, data, hdata⟩ := List.exists_cons_of_ne_nil hne
  rw [pending, h.cacheIndex_eq, h.lastReadSize_eq, slice_zero_left, hcache, blit, hdata,
    List.take_zero, List.nil_append, Nat.sub_zero, List.head?_take, if_neg hlast.ne',
    List.cons_append, List.head?_cons, List.head?_cons]

/-- **Given twice.** A call with size zero gives a datagram as a whole, and the next call with a
positive size begins with it. -/
theorem recieves_zero_then_pos {k : ℕ} {post : List ℕ} {socket : List (SocketRead α)}
    {datas : List (List UInt8)} (hinv : p.Invariant) (hne : ∀ d ∈ ds, d.data ≠ [])
    (hlast : 0 < p.lastReadSize) (hk : 0 < k)
    (h : p.recieves (0 :: k :: post) (arrivals ds) = some (datas, q, socket)) :
    ∃ d data datas', (p.recieve 0 (arrivals ds)).buffer = d.data ∧
      (∃ rest, (p.recieve 0 (arrivals ds)).socket = arrivals rest ∧ d :: rest <:+ ds) ∧
      datas = d.data :: data :: datas' ∧ data.head? = d.data.head? := by
  obtain ⟨n, datas₁, hn, hrest, rfl⟩ := recieves_cons_eq_some h
  obtain ⟨d, q₁, rest, heq, hgave⟩ := recieve_zero_spec hinv.length_cache hne hn
  obtain ⟨skipped, hds, -⟩ := hgave.exists_eq
  have hd : d.data ≠ [] := hne d (hds ▸ List.mem_append_right _ List.mem_cons_self)
  rw [heq] at hn hrest ⊢
  dsimp only at hrest ⊢
  obtain rfl : d.data.length = n := Option.some.inj hn
  obtain ⟨n', datas₂, hn', -, rfl⟩ := recieves_cons_eq_some hrest
  refine ⟨d, (q₁.recieve k (arrivals rest)).buffer.take n', datas₂, rfl,
    ⟨rest, rfl, skipped, hds.symm⟩, by rw [List.take_length], ?_⟩
  have hserves := recieve_serves (hgave.invariant hinv)
    (fun e he => hne e (hgave.suffix.subset he)) hk
  rw [Serves] at hserves
  split_ifs at hserves
  · obtain ⟨q₂, rest₂, heq₂, -⟩ := hserves
    rw [heq₂] at hn' ⊢
    obtain rfl : k = n' := Option.some.inj hn'
    obtain ⟨b, data, hdata⟩ := List.exists_cons_of_ne_nil hd
    have hhead := hgave.head?_pending hd hlast
    rw [hdata, List.head?_cons] at hhead
    obtain ⟨pending, hpending⟩ := List.head?_eq_some_iff.mp hhead
    rw [List.length_nil, Nat.sub_zero, List.nil_append, List.take_take, min_self,
      List.head?_take, if_neg hk.ne', available, hpending, hdata]
    rfl
  · rw [hn'] at hserves
    cases hserves

/-- **A zero between** two positive sizes makes a port deliver bytes twice. -/
theorem not_orderly {sizes pre post : List ℕ} {k : ℕ} (hinv : p.Invariant)
    (hne : ∀ d ∈ ds, d.data ≠ []) (hsizes : sizes = pre ++ 0 :: k :: post) (hk : 0 < k)
    (hpre : ∃ m ∈ pre, 0 < m) (hreturn : (p.recieves sizes (arrivals ds)).isSome = true) :
    ¬p.Orderly sizes ds := by
  subst hsizes
  intro horderly
  have hself : p.Alike p := ⟨rfl, rfl, rfl, rfl⟩
  obtain ⟨⟨datas, q, socket⟩, hr⟩ := Option.isSome_iff_exists.mp hreturn
  rw [recieves_append] at hr
  obtain ⟨⟨datas₁, q₁, socket₁⟩, hfirst, hr⟩ := Option.bind_eq_some_iff.mp hr
  obtain ⟨⟨datas₂, q₂, socket₂⟩, hsecond, -⟩ := Option.map_eq_some_iff.mp hr
  -- the datagram that is given twice
  obtain ⟨-, -, ds₁, -, rfl, -, -, -, hsuffix, -, hinv₁, -, hpos⟩ :=
    recieves_alike hself hinv hinv (List.forall₂_same.mpr fun _ _ => ⟨rfl, rfl⟩) hne hfirst
  have hne₁ : ∀ d ∈ ds₁, d.data ≠ [] := fun d hd => hne d (hsuffix.subset hd)
  obtain ⟨d, -, -, -, ⟨rest, hrest, hd⟩, -, -⟩ :=
    recieves_zero_then_pos hinv₁ hne₁ (hpos (.inr hpre)) hk hsecond
  obtain ⟨front, rfl⟩ := hd.trans hsuffix
  -- the same run, with one byte in it that is no zero
  have hshape : SameShape (front ++ d :: rest) (front.map blank ++ mark d :: rest.map blank) :=
    sameShape_mark (hne d (List.mem_append_right _ List.mem_cons_self))
  have hne' := SameShape.ne_nil hshape hne
  obtain ⟨datas₁', q₁', es₁, ds₁', hes₁, hfirst', halike, hshape₁, -, hsuffix', -, hinv₁', -⟩ :=
    recieves_alike hself hinv hinv hshape hne hfirst
  obtain rfl := arrivals_injective hes₁
  have hne₁' := SameShape.ne_nil hshape₁ hne₁
  obtain ⟨datas₂', q₂', -, rest₂', -, hsecond', -⟩ :=
    recieves_alike halike hinv₁ hinv₁' hshape₁ hne₁ hsecond
  obtain ⟨d', data, datas', -, ⟨rest', hrest', hd'⟩, rfl, hhead⟩ :=
    recieves_zero_then_pos hinv₁' hne₁' (halike.lastReadSize_eq ▸ hpos (.inr hpre)) hk hsecond'
  obtain ⟨es, es', hes, hes', hshape'⟩ := (recieve_alike 0 halike hshape₁ hne₁).socket
  obtain rfl := arrivals_injective (hrest.symm.trans hes)
  obtain rfl := arrivals_injective (hrest'.symm.trans hes')
  have hmark : d' :: rest' = mark d :: rest.map blank := by
    refine (List.suffix_of_suffix_length_le (hd'.trans hsuffix') (List.suffix_append _ _)
      (le_of_eq ?_)).eq_of_length ?_
    all_goals rw [List.length_cons, List.length_cons, List.length_map, hshape'.length_eq]
  obtain ⟨rfl, -⟩ := List.cons.inj hmark
  obtain ⟨data', rfl⟩ := List.head?_eq_some_iff.mp hhead
  have hcount := (horderly _ hshape (datas₁' ++ (mark d).data :: (1 :: data') :: datas') q₂'
    (arrivals rest₂')
    (by rw [recieves_append, hfirst', Option.bind_some, hsecond']; rfl)).count_le 1
  rw [count_one_marked, List.flatten_append, List.flatten_cons, List.flatten_cons,
    List.count_append, List.count_append, List.count_append, mark, List.count_cons_self,
    List.count_cons_self] at hcount
  omega

/-- **The modes.** From a connected port on, with datagrams that are not empty, calls that all
return deliver every byte at most once and in order if and only if no call with size zero comes
between two with positive sizes. -/
theorem orderly_iff (remoteAddress : α) (remoteUnspecified multicast : Bool)
    (ds : List (Datagram α)) (hne : ∀ d ∈ ds, d.data ≠ []) (sizes : List ℕ)
    (hreturn : ((opened remoteAddress remoteUnspecified multicast).recieves sizes
      (arrivals ds)).isSome = true) :
    (opened remoteAddress remoteUnspecified multicast).Orderly sizes ds ↔ ModesApart sizes := by
  refine ⟨fun horderly => ?_, fun h =>
    orderly_of_modesApart h remoteAddress remoteUnspecified multicast hne⟩
  by_contra h
  obtain ⟨pre, k, post, hsizes, hk, hpre⟩ := exists_of_not_modesApart h
  exact not_orderly (invariant_connect remoteAddress remoteUnspecified multicast) hne hsizes hk
    hpre hreturn horderly

/-- Two datagrams of two bytes. -/
def twoDatagrams : List (Datagram ℕ) := [⟨7, [1, 2], by decide⟩, ⟨7, [3, 4], by decide⟩]

/-- A whole datagram, and then a byte. -/
theorem orderly_iff_two :
    (∀ d ∈ twoDatagrams, d.data ≠ []) ∧
      ((opened 7 false false).recieves [0, 1] (arrivals twoDatagrams)).isSome = true ∧
      (opened 7 false false).Orderly [0, 1] twoDatagrams := by
  refine ⟨by decide, by decide, ?_⟩
  refine (orderly_iff 7 false false twoDatagrams (by decide) [0, 1] (by decide)).mpr ?_
  rintro (_ | ⟨_, pre⟩) m mid n post hsizes hm -
  · exact absurd (List.cons.inj hsizes).1 hm.ne
  · -- there is no place for two positive sizes behind the zero
    have hlength := congrArg List.length hsizes
    simp only [List.length_append, List.length_cons, List.length_nil] at hlength
    omega

/-- A byte, a whole datagram, and two bytes: the second datagram is delivered twice. -/
theorem not_orderly_two :
    (opened 7 false false).recieves [1, 0, 2] (arrivals twoDatagrams) ≠ none ∧
      ¬ ∀ (remoteAddress : ℕ) (remoteUnspecified multicast : Bool) (ds : List (Datagram ℕ)),
        (∀ d ∈ ds, d.data ≠ []) → ∀ sizes,
          (opened remoteAddress remoteUnspecified multicast).Orderly sizes ds := by
  refine ⟨by decide, fun h => ?_⟩
  have hrun : ((opened 7 false false).recieves [1, 0, 2] (arrivals twoDatagrams)).map Prod.fst =
      some [[1], [3, 4], [3, 4]] := by
    decide
  obtain ⟨⟨datas, q, socket⟩, hr, rfl⟩ := Option.map_eq_some_iff.mp hrun
  have hsub := h 7 false false twoDatagrams (by decide) [1, 0, 2] twoDatagrams
    (List.forall₂_same.mpr fun _ _ => ⟨rfl, rfl⟩) _ q socket hr
  exact absurd hsub (by decide)

end UdpClientPort

end UtilityFramework
