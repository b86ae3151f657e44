import UtilityFramework.Files.IniFile

/-!
# INI files as maps

A program uses an INI file as a map from sections and keys to values: a write changes the value
of its own key, a deletion takes its own key out. What a key is read from, though, is the first
line of its section that contains the key and `=`, which may be the line of a longer key, or one
with such a value. A call for another key of the section leaves a key's value alone precisely
when it stays out of that key's way (`Undisturbed`).
-/

namespace UtilityFramework

open IniFile Text Transition

namespace IniFile

/-- A call on another key of its section leaves the key's value alone: an earlier line of the
section already contains the key, or neither the line taken out nor the line put in contains it,
or the key happens to find the same value before and after. -/
def Undisturbed (key : List UInt8) (entries : List IniEntry) (call : Call) : Prop :=
  (∃ e ∈ (place entries call).1, Matches key e) ∨
  (∀ e, e ∈ (place entries call).2.1 ∨ e ∈ call.newLine → ¬Matches key e) ∨
  valueOf (firstMatch key ((place entries call).2.1.toList ++ (place entries call).2.2)) =
    valueOf (firstMatch key (call.newLine.toList ++ (place entries call).2.2))

/-- The entries of a file, and the value that a key of a section should have. -/
structure Observed where
  entries : List IniEntry
  expected : List UInt8

namespace Observed

section Step

variable (sec key : IniName)

/-- The state before any call: the key has the value that it is read with. -/
def init (entries : List IniEntry) : Observed :=
  ⟨entries, getKeyValue entries sec.text key.text⟩

/-- A call of `write_string` or `delete_key`. A write gives its key the value; what is read for
a key after its deletion is left open. -/
def step (s : Observed) (call : Call) : Option Observed :=
  some
    { entries := apply s.entries call
      expected :=
        if call.sec.text = sec.text ∧ call.key.text = key.text then
          match call with
          | .writeString _ _ value => value.text
          | .deleteKey _ _ => getKeyValue (apply s.entries call) sec.text key.text
        else s.expected }

/-- The key is read with the value it should have. -/
def Right (s : Observed) : Prop := getKeyValue s.entries sec.text key.text = s.expected

instance : DecidablePred (Right sec key) :=
  fun s => inferInstanceAs (Decidable (getKeyValue s.entries _ _ = s.expected))

/-- The condition on a call: one on another key of the section leaves the key alone. -/
def Spares (s : Observed) (call : Call) : Prop :=
  call.sec.text = sec.text → call.key.text ≠ key.text → Undisturbed key.text s.entries call

end Step

end Observed

section Values

variable {entries : List IniEntry} {call : Call} {key : List UInt8}

theorem firstMatch_isSome_of_matches {es : List IniEntry} {e : IniEntry}
    (hsec : ∀ e ∈ es, e.entryType ≠ .typeSection) (he : e ∈ es) (hm : Matches key e) :
    (firstMatch key es).isSome := by
  induction es with
  | nil => exact absurd he List.not_mem_nil
  | cons e' es ih =>
    by_cases hm' : Matches key e'
    · rw [firstMatch_cons_of_matches hm']
      rfl
    · rw [firstMatch_cons_of_not_matches (hsec e' List.mem_cons_self) hm']
      rcases List.mem_cons.mp he with rfl | he
      · exact absurd hm hm'
      · exact ih (fun e he => hsec e (List.mem_cons_of_mem _ he)) he

/-- The entries before the line that a call touches are no headers. -/
theorem place_skipped_ne_section (entries : List IniEntry) (call : Call) :
    ∀ e ∈ (place entries call).1, e.entryType ≠ .typeSection := by
  cases h : findSection call.sec.text entries with
  | none =>
    rw [(apply_of_not_found h).1]
    exact fun e he => absurd he List.not_mem_nil
  | some p =>
    obtain ⟨-, -, -, hskip, -⟩ := apply_of_found h
    exact fun e he => (hskip e he).1

/-- A line that does not match is passed over. -/
theorem firstMatch_option_append {o : Option IniEntry} {m : List IniEntry}
    (ho : ∀ e ∈ o, ¬Matches key e ∧ e.entryType ≠ .typeSection) :
    firstMatch key (o.toList ++ m) = firstMatch key m := by
  cases o with
  | none => rfl
  | some e =>
    obtain ⟨hm, hne⟩ := ho e rfl
    exact firstMatch_cons_of_not_matches hne hm

theorem entryType_ne_of_matches {key' : List UInt8} {e : IniEntry} (h : Matches key' e) :
    e.entryType ≠ .typeSection := by
  rw [h.1]
  rintro ⟨⟩

/-- The line that a call takes out. -/
theorem matches_of_mem_place {e : IniEntry} (he : e ∈ (place entries call).2.1) :
    e ∈ entries ∧ Matches call.key.text e := by
  cases h : findSection call.sec.text entries with
  | none =>
    rw [(apply_of_not_found h).1] at he
    cases he
  | some p =>
    obtain ⟨-, hsplit, -, -, hold⟩ := apply_of_found h
    refine ⟨?_, hold e he⟩
    rw [hsplit]
    simp only [List.mem_append, List.mem_cons, Option.mem_toList]
    exact .inr (.inr (.inr (.inl he)))

/-- A line that a call takes out or puts in is no header. -/
theorem place_line_ne_section (entries : List IniEntry) {call : Call} {e : IniEntry}
    (he : e ∈ (place entries call).2.1 ∨ e ∈ call.newLine) : e.entryType ≠ .typeSection := by
  rcases he with he | he
  · exact entryType_ne_of_matches (matches_of_mem_place he).2
  · exact entryType_ne_of_matches (Call.matches_newLine he)

/-- A call leaves the value of another key of its section alone precisely when it stays out of
the key's way. -/
theorem getKeyValue_apply_iff :
    getKeyValue (apply entries call) call.sec.text key = getKeyValue entries call.sec.text key ↔
      Undisturbed key entries call := by
  obtain ⟨hbefore, hafter⟩ := lineOf_eq_or entries call key
  rw [getKeyValue_eq, getKeyValue_eq, hbefore, hafter, Undisturbed]
  by_cases hskip : ∃ e ∈ (place entries call).1, Matches key e
  · obtain ⟨e, he, hm⟩ := hskip
    obtain ⟨line, hline⟩ := Option.isSome_iff_exists.mp
      (firstMatch_isSome_of_matches (place_skipped_ne_section entries call) he hm)
    rw [hline, Option.some_or, Option.some_or]
    -- The key is found before the line that the call touches.
    exact iff_of_true rfl (.inl ⟨e, he, hm⟩)
  · have hnone : firstMatch key (place entries call).1 = none :=
      firstMatch_eq_none fun e he hm => hskip ⟨e, he, hm⟩
    rw [hnone, Option.none_or, Option.none_or]
    constructor
    · exact fun h => .inr (.inr h.symm)
    · rintro (h | hfree | h)
      · exact absurd h hskip
      · have hnew := firstMatch_option_append (m := (place entries call).2.2) fun e he =>
          ⟨hfree e (.inr he), place_line_ne_section entries (.inr he)⟩
        have hold := firstMatch_option_append (m := (place entries call).2.2) fun e he =>
          ⟨hfree e (.inl he), place_line_ne_section entries (.inl he)⟩
        rw [hnew, hold]
      · exact h.symm

/-- A call leaves the keys of other sections alone. -/
theorem getKeyValue_apply_of_ne {sec : List UInt8} (hne : sec ≠ call.sec.text) :
    getKeyValue (apply entries call) sec key = getKeyValue entries sec key := by
  rw [getKeyValue_eq, getKeyValue_eq, lineOf_apply_of_ne hne]

end Values

section Names

/-- A line reads back the value that it was written with. -/
theorem lineValue_keyValue (key : IniName) (value : IniValue) :
    lineValue ⟨.typeKeyValue, keyValue key.text value.text⟩ = value.text := by
  have hmem : equals ∈ key.text ++ equals :: value.text :=
    List.mem_append_right _ List.mem_cons_self
  have hdrop : (key.text ++ equals :: value.text).dropWhile (fun c => c ≠ equals) =
      equals :: value.text := by
    rw [List.dropWhile_append_of_pos]
    · exact List.dropWhile_cons_of_neg (by simp)
    · intro c hc
      exact decide_eq_true fun h => key.not_mem (by decide) (h ▸ hc)
  rw [lineValue, keyValue, afterEquals, if_pos hmem, hdrop, List.tail_cons, untilNul,
    List.takeWhile_eq_self_iff]
  exact fun c hc => decide_eq_true fun h => value.nul (h ▸ hc)

/-- A write is read back. -/
theorem getKeyValue_writeString (entries : List IniEntry) (sec key : IniName)
    (value : IniValue) :
    getKeyValue (writeString entries sec.text key.text value.text) sec.text key.text =
      value.text := by
  have hline := lineOf_apply_self entries (.writeString sec key value) rfl
  rw [getKeyValue_eq]
  exact (congrArg valueOf hline).trans (lineValue_keyValue key value)

end Names

/-! ### Runs -/

section Runs

variable (sec key : IniName)

/-- Each call keeps a key's value right precisely when it spares the key. -/
theorem right_step {s t : Observed} {call : Call} (hs : s.Right sec key)
    (h : s.step sec key call = some t) : t.Right sec key ↔ s.Spares sec key call := by
  obtain rfl := Option.some.inj h
  rw [Observed.Right, Observed.Spares]
  by_cases hsec : call.sec.text = sec.text
  · by_cases hkey : call.key.text = key.text
    · refine iff_of_true ?_ fun _ hne => absurd hkey hne
      rw [if_pos ⟨hsec, hkey⟩, ← hsec, ← hkey]
      cases call with
      | writeString sec' key' value => exact getKeyValue_writeString s.entries sec' key' value
      | deleteKey sec' key' => rfl
    · rw [if_neg fun h => hkey h.2, ← hs, ← hsec, getKeyValue_apply_iff]
      exact ⟨fun h _ _ => h, fun h => h rfl hkey⟩
  · rw [if_neg fun h => hsec h.1, ← hs]
    exact iff_of_true (getKeyValue_apply_of_ne (Ne.symm hsec)) fun h => absurd h hsec

/-- The line contains at most one of the keys in use. -/
def OneKey (keys : Set (List UInt8)) (entry : IniEntry) : Prop :=
  ∀ k ∈ keys, ∀ k' ∈ keys, Matches k entry → Matches k' entry → k = k'

/-- A call spares every key in use if no line contains two of them. -/
theorem undisturbed_of_oneKey {keys : Set (List UInt8)} {entries : List IniEntry} {call : Call}
    {key : List UInt8} (hkey : key ∈ keys) (hcall : call.key.text ∈ keys)
    (hne : call.key.text ≠ key) (hentries : ∀ e ∈ entries, OneKey keys e)
    (hnew : ∀ e ∈ call.newLine, OneKey keys e) : Undisturbed key entries call := by
  refine .inr (.inl fun e he hm => hne ?_)
  rcases he with he | he
  · obtain ⟨hmem, hmatch⟩ := matches_of_mem_place he
    exact hentries e hmem _ hcall _ hkey hmatch hm
  · exact hnew e he _ hcall _ hkey (Call.matches_newLine he) hm

/-- **INI files as maps.** Through any sequence of calls a key of a section is read with the
value it should have precisely if each call spares it. So it is if no line of the file, and
none that is written, contains two of the keys in use. -/
theorem right_iff_spares (entries : List IniEntry) (l : List Call) :
    (Always (Observed.step sec key) (Observed.Right sec key) (.init sec key entries) l ↔
      Guarded (Observed.step sec key) (Observed.Spares sec key) (.init sec key entries) l) ∧
    ∀ keys : Set (List UInt8), key.text ∈ keys → (∀ e ∈ entries, OneKey keys e) →
      (∀ call ∈ l, call.key.text ∈ keys ∧ ∀ e ∈ call.newLine, OneKey keys e) →
      Always (Observed.step sec key) (Observed.Right sec key) (.init sec key entries) l := by
  have hiff : Always (Observed.step sec key) (Observed.Right sec key) (.init sec key entries) l ↔
      Guarded (Observed.step sec key) (Observed.Spares sec key) (.init sec key entries) l :=
    always_iff_guarded (J := fun _ => True) l (fun _ _ _ _ _ => trivial)
      (fun s a t _ hs h => right_step sec key hs h) trivial rfl
  refine ⟨hiff, fun keys hkey hentries hl => hiff.mpr ?_⟩
  have hg : Guarded (Observed.step sec key)
      (fun _ call => call.key.text ∈ keys ∧ ∀ e ∈ call.newLine, OneKey keys e)
      (.init sec key entries) l := .of_forall (fun call hcall _ => hl call hcall) _
  refine hg.imp (J := fun s => ∀ e ∈ s.entries, OneKey keys e) ?_ ?_ hentries
  · intro s call t hs hok h e he k hk k' hk' hm hm'
    obtain rfl := Option.some.inj h
    rcases mem_apply he with he | rfl | rfl | he
    · exact hs e he k hk k' hk' hm hm'
    · exact nomatch hm.1
    · exact nomatch hm.1
    · exact hok.2 e he k hk k' hk' hm hm'
  · exact fun s call hs hok _ hne => undisturbed_of_oneKey hkey hok.1 hne hs hok.2

end Runs

/-- The section `s` and the keys `ab`, `b` and `c`. -/
def sampleSection : IniName := ⟨toBytes "s", by decide⟩
def sampleKey : IniName := ⟨toBytes "ab", by decide⟩
def sampleSuffix : IniName := ⟨toBytes "b", by decide⟩
def sampleOther : IniName := ⟨toBytes "c", by decide⟩

/-- Writing the key `c` leaves the key `ab` alone. -/
theorem write_spares_other_key :
    Always (Observed.step sampleSection sampleKey) (Observed.Right sampleSection sampleKey)
      (.init sampleSection sampleKey
        [⟨.typeSection, toBytes "[s]"⟩, ⟨.typeKeyValue, toBytes "ab=1"⟩])
      [.writeString sampleSection sampleOther ⟨toBytes "2", by decide⟩] := by
  refine (right_iff_spares sampleSection sampleKey _ _).2 {sampleKey.text, sampleOther.text}
    (.inl rfl) (fun e he => ?_) (fun call hcall => ?_)
  · simp only [List.mem_cons, List.not_mem_nil, or_false] at he
    rcases he with rfl | rfl <;> rintro k (rfl | rfl) k' (rfl | rfl) <;> decide
  · rw [List.mem_singleton] at hcall
    subst hcall
    refine ⟨.inr rfl, fun e he => ?_⟩
    obtain rfl := Option.some.inj he
    rintro k (rfl | rfl) k' (rfl | rfl) <;> decide

/-- Writing the key `b` overwrites the line of the key `ab`. -/
theorem write_overwrites_longer_key :
    ¬Always (Observed.step sampleSection sampleKey) (Observed.Right sampleSection sampleKey)
      (.init sampleSection sampleKey
        [⟨.typeSection, toBytes "[s]"⟩, ⟨.typeKeyValue, toBytes "ab=1"⟩])
      [.writeString sampleSection sampleSuffix ⟨toBytes "2", by decide⟩] ∧
    writeString [⟨.typeSection, toBytes "[s]"⟩, ⟨.typeKeyValue, toBytes "ab=1"⟩]
        (toBytes "s") (toBytes "b") (toBytes "2") =
      [⟨.typeSection, toBytes "[s]"⟩, ⟨.typeKeyValue, toBytes "b=2"⟩] := by
  refine ⟨fun hall => ?_, by decide⟩
  have hright := hall _ _ List.prefix_rfl rfl
  exact absurd hright (by decide)

end IniFile

end UtilityFramework
