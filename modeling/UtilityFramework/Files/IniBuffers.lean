import UtilityFramework.Files.IniFile

/-!
# The buffers of INI reads

Both functions `read_string` copy texts to buffers of their caller and are told the sizes of
these. Outside of Windows they do not look at the sizes: a text is copied with a zero byte behind
it, however long it is. The function that reads by an index copies the line of every section it
comes by, so that its buffers have to have room for these as well.

`IniRead.respects_iff` says for which calls the buffers are large enough.
-/

namespace UtilityFramework

open IniFile Text

namespace IniFile

/-- The memory from a pointer on. -/
abbrev Buffer := ℕ → UInt8

/-- Bytes that are stored one after the other, at offsets in a buffer. -/
abbrev Stores := List (ℕ × UInt8)

/-- `std::memset`. -/
def memset (c : UInt8) (count : ℕ) : Stores := (List.range count).map fun i => (i, c)

/-- `std::strncpy`, which stores zeroes behind a shorter text. -/
def strncpy (source : List UInt8) (count : ℕ) : Stores :=
  (List.range count).map fun i => (i, (untilNul source).getD i 0)

/-- How both functions copy a text. -/
def copyText (text : List UInt8) : Stores :=
  memset 0 (text.length + 1) ++ strncpy text text.length

/-- The buffer with the bytes stored. -/
def store (buffer : Buffer) (stores : Stores) : Buffer :=
  stores.foldl (fun b w => Function.update b w.1 w.2) buffer

/-- `read_string` by a key: what it returns, and what it stores to `value`. The size is not
looked at. -/
def readString (entries : List IniEntry) (sec key : Option (List UInt8)) (value : Option Buffer)
    (_size : ℕ) (defVal : Option (List UInt8)) : Bool × Stores :=
  match sec, key, value, defVal with
  | some sec, some key, some _, some defVal =>
    let valStr := getKeyValue entries sec key
    if valStr = [] then (false, copyText defVal) else (true, copyText valStr)
  | _, _, _, _ => (false, [])

/-- What `read_string` by an index returns and stores. -/
structure IndexRead where
  returned : Bool
  sec : Stores
  key : Stores
  value : Stores

/-- The line of a section without its brackets. -/
def sectionName (entry : IniEntry) : List UInt8 :=
  (entry.entryText.filter fun c => c ≠ leftBracket).filter fun c => c ≠ rightBracket

/-- What stands before the first `=` of a line; all of it if there is none. -/
def beforeEquals (text : List UInt8) : List UInt8 := text.takeWhile fun c => c ≠ equals

/-- The loop over the entries, of which `i` with keys have been passed. -/
def readLoop (index : ℕ) : ℕ → List IniEntry → IndexRead
  | _, [] => ⟨false, [], [], []⟩
  | i, entry :: entries =>
    match entry.entryType with
    | .typeSection =>
      let r := readLoop index i entries
      { r with sec := copyText (sectionName entry) ++ r.sec }
    | .typeKeyValue =>
      if i = index then
        ⟨true, [], copyText (beforeEquals entry.entryText), copyText (afterEquals entry.entryText)⟩
      else readLoop index (i + 1) entries
    | _ => readLoop index i entries

/-- `read_string` by an index. The size is not looked at. The first bytes of the buffers are. -/
def readStringAt (entries : List IniEntry) (index : ℕ) (sec key value : Option Buffer)
    (_maxBufferSize : ℕ) : IndexRead :=
  match sec, key, value with
  | some sec, some key, some value =>
    let r := readLoop index 0 entries
    { r with
      returned := r.returned && store sec r.sec 0 != 0 && store key r.key 0 != 0 &&
        store value r.value 0 != 0 }
  | _, _, _ => ⟨false, [], [], []⟩

end IniFile

/-! ### The specification -/

/-- A call of one of the functions `read_string`. Pointers may be null. -/
inductive IniRead
  | byKey (sec key : Option (List UInt8)) (value : Option Buffer) (size : ℕ)
    (defVal : Option (List UInt8))
  | byIndex (index : ℕ) (sec key value : Option Buffer) (maxBufferSize : ℕ)

namespace IniRead

/-- What the call stores to each of its buffers. -/
def stores (entries : List IniEntry) : IniRead → List Stores
  | .byKey sec key value size defVal => [(readString entries sec key value size defVal).2]
  | .byIndex index sec key value maxBufferSize =>
    let r := readStringAt entries index sec key value maxBufferSize
    [r.sec, r.key, r.value]

/-- The size that the caller gives. -/
def size : IniRead → ℕ
  | .byKey _ _ _ size _ => size
  | .byIndex _ _ _ _ maxBufferSize => maxBufferSize

/-- No byte is stored behind the first ones of a buffer, as many as its size. -/
def Respects (entries : List IniEntry) (read : IniRead) : Prop :=
  ∀ stores ∈ read.stores entries, ∀ w ∈ stores, w.1 < read.size

/-- The entry has a key. -/
def isKeyValue (entry : IniEntry) : Bool := entry.entryType = .typeKeyValue

/-- There is room for a text and a zero byte: for the value, or for the default text if there is
none; for every section's line with no more than `index` keys before it, and for the key and the
value of the line with as many. -/
def Fits (entries : List IniEntry) : IniRead → Prop
  | .byKey sec key value size defVal => ∀ s ∈ sec, ∀ k ∈ key, ∀ _ ∈ value, ∀ d ∈ defVal,
    (if getKeyValue entries s k = [] then d else getKeyValue entries s k).length < size
  | .byIndex index sec key value maxBufferSize => ∀ _ ∈ sec, ∀ _ ∈ key, ∀ _ ∈ value,
    ∀ before entry behind, entries = before ++ entry :: behind →
      (entry.entryType = .typeSection → before.countP isKeyValue ≤ index →
        (sectionName entry).length < maxBufferSize) ∧
      (entry.entryType = .typeKeyValue → before.countP isKeyValue = index →
        (beforeEquals entry.entryText).length < maxBufferSize ∧
          (afterEquals entry.entryText).length < maxBufferSize)

/-! ### Texts -/

section Stores

variable {n : ℕ} {text : List UInt8}

/-- A text is stored to as many bytes as it has, and one more. -/
theorem forall_mem_copyText_iff :
    (∀ w ∈ copyText text, w.1 < n) ↔ text.length < n := by
  constructor
  · intro h
    have hmem : (text.length, 0) ∈ memset 0 (text.length + 1) :=
      List.mem_map.mpr ⟨text.length, List.mem_range.mpr (Nat.lt_succ_self _), rfl⟩
    exact h _ (List.mem_append_left _ hmem)
  · intro h w hw
    rcases List.mem_append.mp hw with hw | hw
    all_goals
      obtain ⟨i, hi, rfl⟩ := List.mem_map.mp hw
      have := List.mem_range.mp hi
      dsimp only
      omega

end Stores

/-! ### The loop -/

section Loop

variable {entries : List IniEntry} {index i n : ℕ}

/-- What holds of every entry and the ones before it, entry by entry. -/
theorem forall_split_cons {α : Type*} {a : α} {l : List α} {p : List α → α → Prop} :
    (∀ before x behind, a :: l = before ++ x :: behind → p before x) ↔
      p [] a ∧ ∀ before x behind, l = before ++ x :: behind → p (a :: before) x := by
  constructor
  · intro h
    exact ⟨h [] a l rfl, fun before x behind hl => h (a :: before) x behind (by rw [hl]; rfl)⟩
  · rintro ⟨hhead, htail⟩ before x behind hl
    cases before with
    | nil =>
      obtain ⟨rfl, -⟩ := List.cons.inj hl
      exact hhead
    | cons b before =>
      obtain ⟨rfl, hrest⟩ := List.cons.inj hl
      exact htail before x behind hrest

/-- There is room for what the loop stores of an entry, given the ones before it. -/
def RoomFor (index n i : ℕ) (before : List IniEntry) (entry : IniEntry) : Prop :=
  (entry.entryType = .typeSection → i + before.countP isKeyValue ≤ index →
    (sectionName entry).length < n) ∧
  (entry.entryType = .typeKeyValue → i + before.countP isKeyValue = index →
    (beforeEquals entry.entryText).length < n ∧ (afterEquals entry.entryText).length < n)

theorem roomFor_cons_of_not_isKeyValue {e entry : IniEntry} {before : List IniEntry}
    (h : isKeyValue e = false) :
    RoomFor index n i (e :: before) entry ↔ RoomFor index n i before entry := by
  rw [RoomFor, RoomFor, List.countP_cons_of_neg (Bool.eq_false_iff.mp h)]

theorem roomFor_cons_of_isKeyValue {e entry : IniEntry} {before : List IniEntry}
    (h : isKeyValue e = true) :
    RoomFor index n i (e :: before) entry ↔ RoomFor index n (i + 1) before entry := by
  rw [RoomFor, RoomFor, List.countP_cons_of_pos h, Nat.add_right_comm, Nat.add_assoc]

/-- All three buffers have room. -/
def Within (n : ℕ) (r : IndexRead) : Prop :=
  (∀ w ∈ r.sec, w.1 < n) ∧ (∀ w ∈ r.key, w.1 < n) ∧ ∀ w ∈ r.value, w.1 < n

/-- **The loop** stores the lines of the sections that it comes by, and the line that it stops
at. -/
theorem within_readLoop_iff (hi : i ≤ index) :
    Within n (readLoop index i entries) ↔
      ∀ before entry behind, entries = before ++ entry :: behind →
        RoomFor index n i before entry := by
  induction entries generalizing i with
  | nil =>
    refine iff_of_true ?_ fun before entry behind h => ?_
    · exact ⟨fun _ h => absurd h List.not_mem_nil, fun _ h => absurd h List.not_mem_nil,
        fun _ h => absurd h List.not_mem_nil⟩
    · exact absurd h.symm (List.append_ne_nil_of_right_ne_nil _ (List.cons_ne_nil _ _))
  | cons e entries ih =>
    rw [forall_split_cons, readLoop]
    cases htype : e.entryType with
    | typeSection =>
      have hkey : isKeyValue e = false := by rw [isKeyValue, htype]; rfl
      have hroom : RoomFor index n i [] e ↔ (sectionName e).length < n := by
        rw [RoomFor, htype, List.countP_nil]
        exact ⟨fun h => h.1 rfl hi, fun h => ⟨fun _ _ => h, fun h => (by cases h)⟩⟩
      simp only [roomFor_cons_of_not_isKeyValue hkey, ← ih hi, hroom, Within,
        List.forall_mem_append, forall_mem_copyText_iff, and_assoc]
    | typeKeyValue =>
      have hkey : isKeyValue e = true := by rw [isKeyValue, htype]; rfl
      simp only [roomFor_cons_of_isKeyValue hkey]
      rcases eq_or_ne i index with rfl | hne
      · -- the line of the index, behind which nothing is stored
        have hroom : RoomFor i n i [] e ↔
            (beforeEquals e.entryText).length < n ∧ (afterEquals e.entryText).length < n := by
          rw [RoomFor, htype, List.countP_nil]
          exact ⟨fun h => h.2 rfl rfl, fun h => ⟨fun h => (by cases h), fun _ _ => h⟩⟩
        have hbehind : ∀ before entry behind, entries = before ++ entry :: behind →
            RoomFor i n (i + 1) before entry := fun before entry _ _ =>
          ⟨fun _ hle => absurd hle (by omega), fun _ heq => absurd heq (by omega)⟩
        simp only [if_true, Within, forall_mem_copyText_iff, hroom]
        exact ⟨fun h => ⟨h.2, hbehind⟩,
          fun h => ⟨fun _ hw => absurd hw List.not_mem_nil, h.1⟩⟩
      · -- a line before the one of the index is only counted
        have hroom : RoomFor index n i [] e :=
          ⟨fun h => (by rw [htype] at h; cases h), fun _ heq => absurd heq hne⟩
        rw [if_neg hne, ih (by omega)]
        exact (and_iff_right hroom).symm
    | typeNone | typeComment =>
      have hkey : isKeyValue e = false := by rw [isKeyValue, htype]; rfl
      have hroom : RoomFor index n i [] e :=
        ⟨fun h => (by rw [htype] at h; cases h), fun h => (by rw [htype] at h; cases h)⟩
      simp only [roomFor_cons_of_not_isKeyValue hkey, ih hi]
      exact (and_iff_right hroom).symm

end Loop

theorem within_of_nil (n : ℕ) : Within n ⟨false, [], [], []⟩ :=
  ⟨fun _ h => absurd h List.not_mem_nil, fun _ h => absurd h List.not_mem_nil,
    fun _ h => absurd h List.not_mem_nil⟩

/-- A call by an index with its pointers stores what the loop does. -/
theorem within_readStringAt_iff (entries : List IniEntry) (index n : ℕ) (sec key value : Buffer) :
    Within n (readStringAt entries index sec key value n) ↔
      ∀ before entry behind, entries = before ++ entry :: behind →
        RoomFor index n 0 before entry :=
  within_readLoop_iff (Nat.zero_le index)

/-- **Buffers.** A call keeps to the sizes of its buffers if and only if there is room for all
that it copies. -/
theorem respects_iff (entries : List IniEntry) (read : IniRead) :
    read.Respects entries ↔ read.Fits entries := by
  cases read with
  | byKey sec key value size defVal =>
    have hstores : Respects entries (.byKey sec key value size defVal) ↔
        ∀ w ∈ (readString entries sec key value size defVal).2, w.1 < size :=
      List.forall_mem_singleton
    rw [hstores, Fits]
    match sec, key, value, defVal with
    | some s, some k, some v, some d =>
      simp only [readString, Option.mem_def, Option.some.injEq, forall_eq']
      split_ifs
      · exact forall_mem_copyText_iff
      · exact forall_mem_copyText_iff
    | none, _, _, _ | some _, none, _, _ | some _, some _, none, _ | some _, some _, some _, none =>
      simp [readString]
  | byIndex index sec key value maxBufferSize =>
    have hstores : Respects entries (.byIndex index sec key value maxBufferSize) ↔
        Within maxBufferSize (readStringAt entries index sec key value maxBufferSize) := by
      simp only [Respects, stores, size, List.forall_mem_cons, List.not_mem_nil, false_implies,
        implies_true, and_true]
      rfl
    rw [hstores, Fits]
    match sec, key, value with
    | some s, some k, some v =>
      simp only [within_readStringAt_iff, RoomFor, Nat.zero_add, Option.mem_def,
        Option.some.injEq, forall_eq']
    | none, _, _ | some _, none, _ | some _, some _, none =>
      exact iff_of_true (within_of_nil _) (by simp)

/-- A value of five bytes is copied to a buffer of one, with a zero byte behind it. -/
theorem not_respects : ¬ ∀ (entries : List IniEntry) (read : IniRead), read.Respects entries := by
  intro h
  let entries := [header [115], ⟨.typeKeyValue, keyValue [107] [104, 101, 108, 108, 111]⟩]
  have hmem : (5, 0) ∈ (readString entries (some [115]) (some [107]) (some fun _ => 0) 1
      (some [])).2 := by
    decide
  have hlt := h entries (.byKey (some [115]) (some [107]) (some fun _ => 0) 1 (some [])) _
    (List.mem_singleton_self _) (5, 0) hmem
  exact absurd hlt (by decide)

end IniRead

end UtilityFramework
