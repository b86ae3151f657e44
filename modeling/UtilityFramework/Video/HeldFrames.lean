import UtilityFramework.Lib.SharableLock
import UtilityFramework.Lib.Transition
import UtilityFramework.Video.FrameSerializer

/-!
# What clients see of the frames they hold

A client that has got a frame by `query_frame` has seen its parameters and its image. The
parameters of a frame never change; its image does when `deserialize` recycles its buffer
(`view_overwrite_eq_iff`). A recycled buffer is referenced by one frame only, the one that the
serializer has (`eq_of_recycled`), but the reference counted there may be the one of a client
that holds the frame: the frame is alive, and its buffer is overwritten.

`always_stable_iff` says for every run from a constructor that the clients always see what they
have seen precisely if no image is read over a different one in this way.
-/

namespace UtilityFramework

open Transition

namespace FrameStore

variable {s t : FrameStore} {k b : ℕ}

/-- Whoever holds a frame sees what they have seen when they got it. -/
def Stable (s : FrameStore) : Prop := ∀ h ∈ s.heldFrames, s.view h.frame = h.seen

/-- A client holds a reference to the frame. -/
def Held (s : FrameStore) (k : ℕ) : Prop := ∃ h ∈ s.heldFrames, h.frame = k

/-- If a call of `deserialize` recycles the buffer of a frame that a client holds, then the
bytes that the stream stores there and those of the image agree as far as both go. -/
def Careful (s : FrameStore) : FrameCall → Prop
  | .deserialize i stream _ =>
    ∀ header stream', readHeader i stream = (some header, stream') →
      (s.recycled header.image.size.toNat).isSome →
      ∀ k, s.frame = some k → s.Held k → ∀ v, s.view k = some v →
        (i.readBytes stream' header.image.size.toNat).stored <+: v.bytes ∨
          v.bytes <+: (i.readBytes stream' header.image.size.toNat).stored
  | _ => True

/-- The numbers in the store are numbers of frames and buffers. -/
structure Inv (s : FrameStore) : Prop where
  frame : ∀ i, s.frame = some i → i < s.frames.length
  held : ∀ h ∈ s.heldFrames, h.frame < s.frames.length
  buffer : ∀ f ∈ s.frames, f.buffer < s.buffers.length

theorem inv_ofAllocator (hasAllocator : Bool) : (ofAllocator hasAllocator).Inv :=
  ⟨nofun, nofun, nofun⟩

theorem inv_ofFrame (header : FrameHeader) (others : ℕ) (buffer : StoredBuffer) :
    (ofFrame header others buffer).Inv := by
  refine ⟨?_, nofun, ?_⟩
  · rintro i ⟨rfl⟩
    exact Nat.zero_lt_one
  · intro f hf
    rw [List.mem_singleton.mp hf]
    exact Nat.zero_lt_one

/-! ### Views -/

/-- What changes neither a frame nor its buffer does not change the view. -/
theorem view_congr (hframe : t.frames[k]? = s.frames[k]?)
    (hbuffer : ∀ f, s.frames[k]? = some f → t.buffers[f.buffer]? = s.buffers[f.buffer]?) :
    t.view k = s.view k := by
  rw [view, view, interface, interface, hframe]
  cases hf : s.frames[k]? with
  | none => rfl
  | some f => rw [Option.map_some, Option.map_some, hbuffer f hf]

theorem view_overwrite_of_ne {bytes : List UInt8}
    (hne : ∀ f, s.frames[k]? = some f → f.buffer ≠ b) :
    (s.overwrite b bytes).view k = s.view k := by
  exact view_congr rfl fun f hf => List.getElem?_modify_ne _ _ (hne f hf).symm

/-- Overwriting the buffer of a frame keeps the view precisely if the bytes agree. -/
theorem view_overwrite_eq_iff {f : StoredFrame} {buffer : StoredBuffer} {bytes : List UInt8}
    (hf : s.frames[k]? = some f) (hb : s.buffers[f.buffer]? = some buffer)
    (hlen : bytes.length ≤ buffer.data.length) :
    (s.overwrite f.buffer bytes).view k = s.view k ↔
      bytes <+: (viewOf f buffer.data).bytes ∨ (viewOf f buffer.data).bytes <+: bytes := by
  have hover : (s.overwrite f.buffer bytes).buffers[f.buffer]? =
      some { buffer with data := Bytes.blit buffer.data 0 bytes } := by
    rw [overwrite, List.getElem?_modify_eq, hb]
    rfl
  rw [view_eq (s := s) hf hb, view_eq (s := s.overwrite f.buffer bytes) hf hover,
    Option.some.injEq, viewOf, viewOf, FrameView.mk.injEq]
  simp only [true_and]
  exact Bytes.take_blit_zero_eq_iff hlen _

theorem view_readImage {σ : Type} (i : StreamInterface σ) (stream : σ) (header : FrameHeader)
    (b : ℕ) (hk : k < s.frames.length) :
    (s.readImage i stream header b).2.view k =
      (s.overwrite b (i.readBytes stream header.image.size.toNat).stored).view k := by
  rw [readImage]
  split_ifs
  · exact view_congr (List.getElem?_append_left hk) fun _ _ => rfl
  · rfl

/-! ### References -/

/-- The frame that has a recycled buffer is the one of the serializer, also among those that
clients hold: two frames that are alive would count twice. -/
theorem eq_of_uses_le_one {i : ℕ} {f g : StoredFrame} (huses : s.uses b ≤ 1)
    (hi : s.frame = some i) (hf : s.frames[i]? = some f) (hfb : f.buffer = b)
    (hk : s.Held k) (hg : s.frames[k]? = some g) (hgb : g.buffer = b) : k = i := by
  have hrange : ∀ {j : ℕ} {x : StoredFrame}, s.frames[j]? = some x →
      (List.range s.frames.length)[j]? = some j := fun hx =>
    List.getElem?_range (List.getElem?_eq_some_iff.mp hx).1
  have hcount : (List.range s.frames.length).countP (fun i => s.References b i) ≤ 1 := by
    rw [uses] at huses
    omega
  refine eq_of_countP_le_one hcount (hrange hg) ?_ (hrange hf) ?_
  · exact decide_eq_true ⟨Or.inr (Or.inl hk), g, hg, hgb⟩
  · exact decide_eq_true ⟨Or.inl hi, f, hf, hfb⟩

/-- A buffer that nobody uses is the buffer of no frame that a client holds. -/
theorem ne_of_uses_eq_zero {g : StoredFrame} (huses : s.uses b = 0) (hk : s.Held k)
    (hg : s.frames[k]? = some g) : g.buffer ≠ b := by
  intro hgb
  have hcount : (List.range s.frames.length).countP (fun i => s.References b i) = 0 := by
    rw [uses] at huses
    omega
  have hmem : k ∈ List.range s.frames.length :=
    List.mem_range.mpr (List.getElem?_eq_some_iff.mp hg).1
  have hnot := List.countP_eq_zero.mp hcount k hmem
  exact hnot (decide_eq_true ⟨Or.inr (Or.inl hk), g, hg, hgb⟩)

/-- A recycled buffer is the one of the serializer's frame, it is long enough, and nobody else
uses it. -/
theorem recycled_eq_some {size : ℕ} (h : s.recycled size = some b) :
    ∃ i f buffer, s.frame = some i ∧ s.frames[i]? = some f ∧ f.buffer = b ∧
      s.buffers[b]? = some buffer ∧ size ≤ buffer.data.length ∧ s.uses b ≤ 1 := by
  rw [recycled, Option.bind_eq_some_iff] at h
  obtain ⟨i, hi, h⟩ := h
  obtain ⟨f, hf, h⟩ := Option.bind_eq_some_iff.mp h
  obtain ⟨buffer, hb, h⟩ := Option.bind_eq_some_iff.mp h
  split_ifs at h with hcond
  cases h
  rw [not_or, refCount] at hcond
  exact ⟨i, f, buffer, hi, hf, rfl, hb, by omega, by omega⟩

/-! ### Allocation -/

/-- More buffers than there were. -/
def withBuffers (s : FrameStore) (l : List StoredBuffer) : FrameStore :=
  { s with buffers := s.buffers ++ l }

theorem view_withBuffers (hs : s.Inv) (l : List StoredBuffer) (k : ℕ) :
    (s.withBuffers l).view k = s.view k := by
  refine view_congr rfl fun f hf => ?_
  exact List.getElem?_append_left (hs.buffer f (List.mem_of_getElem? hf))

theorem Inv.withBuffers (hs : s.Inv) (l : List StoredBuffer) : (s.withBuffers l).Inv where
  frame := hs.frame
  held := hs.held
  buffer f hf := by
    have hlt := hs.buffer f hf
    rw [FrameStore.withBuffers, List.length_append]
    omega

/-- An allocated buffer is the buffer of no frame that a client holds. -/
theorem allocate_eq_some (hs : s.Inv) {size : ℕ} {answer : Allocation} {o : Option ℕ}
    (h : s.allocate size answer = some (o, t)) :
    ∃ l, t = s.withBuffers l ∧
      ∀ b, o = some b → b < t.buffers.length ∧
        ∀ k f, s.Held k → s.frames[k]? = some f → f.buffer ≠ b := by
  have hnew : ∀ buffer : StoredBuffer, s.buffers.length < (s.buffers ++ [buffer]).length ∧
      ∀ k f, s.Held k → s.frames[k]? = some f → f.buffer ≠ s.buffers.length := by
    intro buffer
    refine ⟨by rw [List.length_append, List.length_singleton]; omega, fun k f _ hf => ?_⟩
    exact (hs.buffer f (List.mem_of_getElem? hf)).ne
  rw [allocate.eq_def] at h
  split_ifs at h with hallocator
  · cases answer with
    | failed =>
      cases h
      exact ⟨[], by rw [withBuffers, List.append_nil], nofun⟩
    | fresh buffer =>
      dsimp only at h
      split_ifs at h
      cases h
      refine ⟨[buffer], rfl, ?_⟩
      rintro b ⟨rfl⟩
      exact hnew buffer
    | pooled b =>
      obtain ⟨buffer, hb, h⟩ := Option.bind_eq_some_iff.mp h
      split_ifs at h with hcond
      cases h
      refine ⟨[], by rw [withBuffers, List.append_nil], ?_⟩
      rintro b ⟨rfl⟩
      exact ⟨(List.getElem?_eq_some_iff.mp hb).1,
        fun k f hk hf => ne_of_uses_eq_zero hcond.1 hk hf⟩
  · cases h
    refine ⟨[⟨List.replicate size 0, 0⟩], rfl, ?_⟩
    rintro b ⟨rfl⟩
    exact hnew _

/-! ### Reading an image -/

theorem Inv.readImage {σ : Type} (hs : s.Inv) (i : StreamInterface σ) (stream : σ)
    (header : FrameHeader) (hb : b < s.buffers.length) :
    (s.readImage i stream header b).2.Inv := by
  rw [FrameStore.readImage]
  split_ifs
  · refine ⟨?_, fun h hh => ?_, fun f hf => ?_⟩
    · rintro i ⟨rfl⟩
      simp [overwrite]
    · have hlt := hs.held h hh
      simp only [overwrite, List.length_append, List.length_singleton]
      omega
    · simp only [overwrite, List.length_modify]
      rcases List.mem_append.mp hf with hf | hf
      · exact hs.buffer f hf
      · rw [List.mem_singleton.mp hf]
        exact hb
  · exact ⟨hs.frame, hs.held, fun f hf => by
      simpa only [overwrite, List.length_modify] using hs.buffer f hf⟩

/-- After the image has been read, the clients see what they have seen precisely if the bytes
of the buffer that they see have been kept. -/
theorem stable_readImage_iff {σ : Type} (hs : s.Inv) (hstable : s.Stable)
    (i : StreamInterface σ) (stream : σ) (header : FrameHeader) (b : ℕ) :
    (s.readImage i stream header b).2.Stable ↔
      ∀ k, s.Held k →
        (s.overwrite b (i.readBytes stream header.image.size.toNat).stored).view k = s.view k := by
  have hheld : (s.readImage i stream header b).2.heldFrames = s.heldFrames := by
    rw [readImage]
    split_ifs <;> rfl
  rw [Stable, hheld]
  constructor
  · rintro h k ⟨held, hmem, rfl⟩
    rw [← view_readImage i stream header b (hs.held held hmem), h held hmem, hstable held hmem]
  · intro h held hmem
    rw [view_readImage i stream header b (hs.held held hmem), h held.frame ⟨held, hmem, rfl⟩,
      hstable held hmem]

/-! ### Calls -/

/-- What `deserialize` can do: nothing, if the header cannot be read; read the image into the
recycled buffer; give up the frame and fail to allocate a buffer; read it into another one. -/
theorem deserialize_cases {σ : Type} {i : StreamInterface σ} {stream : σ} {answer : Allocation}
    {r : Bool} (h : s.deserialize i stream answer = some (r, t)) :
    ((readHeader i stream).1 = none ∧ t = s) ∨
    ∃ header stream', readHeader i stream = (some header, stream') ∧
      ((∃ b, s.recycled header.image.size.toNat = some b ∧
          t = (s.released.readImage i stream' header b).2) ∨
        s.recycled header.image.size.toNat = none ∧
          (s.released.allocate header.image.size.toNat answer = some (none, t) ∨
            ∃ b u, s.released.allocate header.image.size.toNat answer = some (some b, u) ∧
              t = (u.readImage i stream' header b).2)) := by
  rw [deserialize] at h
  rcases hread : readHeader i stream with ⟨_ | header, stream'⟩
  · rw [hread] at h
    cases h
    exact Or.inl ⟨rfl, rfl⟩
  · refine Or.inr ⟨header, stream', rfl, ?_⟩
    rw [hread] at h
    dsimp only at h
    cases hrec : s.recycled header.image.size.toNat with
    | some b =>
      rw [hrec, Option.some.injEq] at h
      exact Or.inl ⟨b, rfl, by rw [h]⟩
    | none =>
      rw [hrec] at h
      dsimp only at h
      refine Or.inr ⟨rfl, ?_⟩
      rcases halloc : s.released.allocate header.image.size.toNat answer with _ | ⟨_ | b, u⟩
      · rw [halloc] at h
        cases h
      · rw [halloc] at h
        cases h
        exact Or.inl rfl
      · rw [halloc] at h
        simp only [Option.some.injEq] at h
        exact Or.inr ⟨b, u, rfl, by rw [h]⟩

theorem Inv.released (hs : s.Inv) : s.released.Inv := ⟨nofun, hs.held, hs.buffer⟩

theorem Inv.deserialize {σ : Type} {i : StreamInterface σ} {stream : σ} {answer : Allocation}
    {r : Bool} (hs : s.Inv) (h : s.deserialize i stream answer = some (r, t)) : t.Inv := by
  rcases deserialize_cases h with ⟨-, rfl⟩ | ⟨header, stream', -, hcase⟩
  · exact hs
  · rcases hcase with ⟨b, hrec, rfl⟩ | ⟨-, halloc | ⟨b, u, halloc, rfl⟩⟩
    · obtain ⟨-, -, buffer, -, -, -, hb, -⟩ := recycled_eq_some hrec
      exact hs.released.readImage i stream' header (List.getElem?_eq_some_iff.mp hb).1
    · obtain ⟨l, rfl, -⟩ := allocate_eq_some hs.released halloc
      exact hs.released.withBuffers l
    · obtain ⟨l, rfl, hfree⟩ := allocate_eq_some hs.released halloc
      exact (hs.released.withBuffers l).readImage i stream' header (hfree b rfl).1

theorem inv_step {c : FrameCall} (hs : s.Inv) (h : s.step c = some t) : t.Inv := by
  cases c with
  | deserialize i stream answer =>
    obtain ⟨⟨r, u⟩, hr, rfl⟩ := Option.map_eq_some_iff.mp h
    exact hs.deserialize hr
  | queryFrame =>
    obtain ⟨i, hi, rfl⟩ := Option.map_eq_some_iff.mp h
    refine ⟨hs.frame, fun held hmem => ?_, hs.buffer⟩
    rcases List.mem_append.mp hmem with hmem | hmem
    · exact hs.held held hmem
    · rw [List.mem_singleton.mp hmem]
      exact hs.frame i hi
  | queryBuffer k =>
    obtain ⟨held, -, h⟩ := Option.bind_eq_some_iff.mp h
    obtain ⟨f, -, rfl⟩ := Option.map_eq_some_iff.mp h
    exact ⟨hs.frame, hs.held, hs.buffer⟩
  | releaseFrame k =>
    cases h
    exact ⟨hs.frame, fun held hmem => hs.held held (List.mem_of_mem_eraseIdx hmem), hs.buffer⟩
  | releaseBuffer k =>
    cases h
    exact ⟨hs.frame, hs.held, hs.buffer⟩

theorem stable_deserialize_iff {σ : Type} {i : StreamInterface σ} {stream : σ}
    {answer : Allocation} {r : Bool} (hs : s.Inv) (hstable : s.Stable)
    (h : s.deserialize i stream answer = some (r, t)) :
    t.Stable ↔ s.Careful (.deserialize i stream answer) := by
  rcases deserialize_cases h with ⟨hnone, rfl⟩ | ⟨header, stream', hread, hcase⟩
  · refine iff_of_true hstable fun header stream' hread => ?_
    rw [hread] at hnone
    cases hnone
  · -- a buffer that is not recycled is seen by nobody
    have hcareful : s.recycled header.image.size.toNat = none →
        s.Careful (.deserialize i stream answer) := by
      intro hrec header' stream'' hread' hsome
      rw [hread, Prod.mk.injEq, Option.some.injEq] at hread'
      rw [← hread'.1, hrec] at hsome
      cases hsome
    rcases hcase with ⟨b, hrec, rfl⟩ | ⟨hrec, halloc | ⟨b, u, halloc, rfl⟩⟩
    · obtain ⟨j, f, buffer, hj, hf, hfb, hb, hsize, huses⟩ := recycled_eq_some hrec
      have hlen : (i.readBytes stream' header.image.size.toNat).stored.length ≤
          buffer.data.length := (i.length_stored_le _ _).trans hsize
      subst hfb
      rw [stable_readImage_iff hs.released hstable]
      constructor
      · intro hkept header' stream'' hread' _ k hk hheld v hv
        rw [hread, Prod.mk.injEq, Option.some.injEq] at hread'
        obtain ⟨rfl, rfl⟩ := hread'
        rw [hj, Option.some.injEq] at hk
        subst hk
        rw [view_eq hf hb, Option.some.injEq] at hv
        rw [← hv]
        exact (view_overwrite_eq_iff (s := s.released) hf hb hlen).mp (hkept j hheld)
      · intro hc k hheld
        obtain ⟨g, hg⟩ : ∃ g, s.frames[k]? = some g := by
          obtain ⟨held, hmem, rfl⟩ := hheld
          exact ⟨_, List.getElem?_eq_getElem (hs.held held hmem)⟩
        by_cases hgb : g.buffer = f.buffer
        · have hkj := eq_of_uses_le_one huses hj hf rfl hheld hg hgb
          subst hkj
          refine (view_overwrite_eq_iff (s := s.released) hf hb hlen).mpr ?_
          exact hc header stream' hread (by rw [hrec]; rfl) k hj hheld _ (view_eq hf hb)
        · refine view_overwrite_of_ne fun g' hg' => ?_
          rw [show s.released.frames = s.frames from rfl, hg, Option.some.injEq] at hg'
          exact hg' ▸ hgb
    · obtain ⟨l, rfl, -⟩ := allocate_eq_some hs.released halloc
      refine iff_of_true (fun held hmem => ?_) (hcareful hrec)
      rw [view_withBuffers hs.released]
      exact hstable held hmem
    · obtain ⟨l, rfl, hfree⟩ := allocate_eq_some hs.released halloc
      have hstable' : (s.released.withBuffers l).Stable := fun held hmem => by
        rw [view_withBuffers hs.released]
        exact hstable held hmem
      refine iff_of_true ?_ (hcareful hrec)
      rw [stable_readImage_iff (hs.released.withBuffers l) hstable']
      exact fun k hheld => view_overwrite_of_ne fun g hg => (hfree b rfl).2 k g hheld hg

/-- A call keeps what clients see precisely if it is careful. -/
theorem stable_step_iff {c : FrameCall} (hs : s.Inv) (hstable : s.Stable)
    (h : s.step c = some t) : t.Stable ↔ s.Careful c := by
  cases c with
  | deserialize i stream answer =>
    obtain ⟨⟨r, u⟩, hr, rfl⟩ := Option.map_eq_some_iff.mp h
    exact stable_deserialize_iff hs hstable hr
  | queryFrame =>
    obtain ⟨i, hi, rfl⟩ := Option.map_eq_some_iff.mp h
    refine iff_of_true (fun held hmem => ?_) trivial
    rcases List.mem_append.mp hmem with hmem | hmem
    · exact hstable held hmem
    · rw [List.mem_singleton.mp hmem]
      rfl
  | queryBuffer k =>
    obtain ⟨held, -, h⟩ := Option.bind_eq_some_iff.mp h
    obtain ⟨f, -, rfl⟩ := Option.map_eq_some_iff.mp h
    exact iff_of_true hstable trivial
  | releaseFrame k =>
    cases h
    exact iff_of_true (fun held hmem => hstable held (List.mem_of_mem_eraseIdx hmem)) trivial
  | releaseBuffer k =>
    cases h
    exact iff_of_true hstable trivial

/-- **Held frames are stable** throughout a run precisely if no call of `deserialize` in it
reads an image over a different one in the frame that a client holds. -/
theorem always_stable_iff (calls : List FrameCall) :
    (∀ hasAllocator, Always step Stable (ofAllocator hasAllocator) calls ↔
      Guarded step Careful (ofAllocator hasAllocator) calls) ∧
    ∀ header others buffer, Always step Stable (ofFrame header others buffer) calls ↔
      Guarded step Careful (ofFrame header others buffer) calls := by
  constructor
  · intro hasAllocator
    exact always_iff_guarded calls (fun _ _ _ hs h => inv_step hs h)
      (fun _ _ _ hs hstable h => stable_step_iff hs hstable h) (inv_ofAllocator hasAllocator)
      nofun
  · intro header others buffer
    exact always_iff_guarded calls (fun _ _ _ hs h => inv_step hs h)
      (fun _ _ _ hs hstable h => stable_step_iff hs hstable h)
      (inv_ofFrame header others buffer) nofun

/-- A `memory_stream` over a serialized frame. -/
def streamOf (header : FrameHeader) (image : List UInt8) : MemoryStream :=
  let bytes := Codec.imageParams.encode header.image ++
    Codec.displayParams.encode header.display ++ Codec.videoParams.encode header.video ++
    Codec.uint32.encode 0 ++ image
  ⟨fun i => bytes.getD i 0, 0, bytes.length, 0⟩

/-- The header of a frame of one gray pixel. -/
def grayPixel : FrameHeader := ⟨⟨1, 1, 1, 8⟩, ⟨0, 0, 0, 0, 0⟩, ⟨0, ⟨25, 1⟩, 0⟩⟩

instance (s : FrameStore) : Decidable s.Stable := inferInstanceAs (Decidable (∀ h ∈ _, _))

/-- A client that holds a frame sees the image of the next one. -/
theorem not_always_stable :
    ¬ Always step Stable (ofAllocator false)
      [.deserialize MemoryStream.interface (streamOf grayPixel [1]) .failed, .queryFrame,
        .deserialize MemoryStream.interface (streamOf grayPixel [2]) .failed] := by
  intro h
  let seen : FrameView := ⟨grayPixel.image, grayPixel.display, grayPixel.video, [1]⟩
  -- both frames have the buffer 0, with the pixel of the second one
  let t : FrameStore := ⟨some 1, false, [⟨grayPixel, 0, 0⟩, ⟨grayPixel, 0, 0⟩], [⟨[2], 0⟩],
    [⟨0, some seen⟩], []⟩
  have hstable : t.Stable := h _ t List.prefix_rfl (by decide +kernel)
  exact absurd hstable (by decide +kernel)

end FrameStore

end UtilityFramework
