import UtilityFramework.Files.IniFile

/-!
# INI files on disk

The writer keeps what each line is in memory; the loader finds out from the line's text. A
line with both brackets before its first `;` is a section header to the loader, whatever it
was written as. A value with brackets thus ends its section when the file is loaded again, and
the keys that are read from there on are lost.
-/

namespace UtilityFramework

open IniFile Text

namespace IniFile

/-- What the loader takes a line for, by its text before the first `;`. -/
def classify (text : List UInt8) : IniEntryType :=
  let code := text.takeWhile fun c => c ≠ semicolon
  if leftBracket ∈ code ∧ rightBracket ∈ code then .typeSection
  else if equals ∈ code then .typeKeyValue
  else .typeComment

/-- A line with its end removed, which may be CR LF. -/
def loadLine (line : List UInt8) : IniEntry :=
  let text := line.takeWhile fun c => c ≠ carriageReturn
  ⟨classify text, text⟩

/-- `read_file_data`: `std::getline` until the end of the file, so that what follows the last
LF is a line as well. -/
def readFileData (content : List UInt8) : List IniEntry :=
  (content.splitOn lineFeed).map loadLine

/-- What `flush` writes. -/
def flushed (entries : List IniEntry) : List UInt8 :=
  entries.flatMap fun entry => entry.entryText ++ [lineFeed]

end IniFile

/-- `ini_file`, and the contents of the file. -/
structure IniStore where
  fileEntryList : List IniEntry
  needUpdate : Bool
  content : List UInt8

namespace IniStore

/-- The constructor. -/
def load (content : List UInt8) : IniStore := ⟨readFileData content, false, content⟩

/-- `flush`. -/
def flush (s : IniStore) : IniStore :=
  if s.needUpdate then { s with content := flushed s.fileEntryList, needUpdate := false } else s

/-- `write_string` and `delete_key`. -/
def call (s : IniStore) : Call → IniStore
  | .writeString sec key value =>
    { s with
      fileEntryList := writeString s.fileEntryList sec.text key.text value.text
      needUpdate := true }
  | .deleteKey sec key =>
    match deleteKey s.fileEntryList sec.text key.text with
    | some entries => { s with fileEntryList := entries, needUpdate := true }
    | none => s

/-- `get_key_value`. -/
def read (s : IniStore) (sec key : List UInt8) : List UInt8 :=
  getKeyValue s.fileEntryList sec key

/-- A call, or a flush. -/
inductive Action
  | call (call : Call)
  | flush

/-- One step. -/
def step (s : IniStore) : Action → IniStore
  | .call c => s.call c
  | .flush => s.flush

/-- The values written contain no line ends. -/
def Action.OneLine : Action → Prop
  | .call (.writeString _ _ value) => carriageReturn ∉ value.text ∧ lineFeed ∉ value.text
  | _ => True

/-- The values written do not contain both brackets before their first `;`. -/
def Action.NoBrackets : Action → Prop
  | .call (.writeString _ _ value) => classify value.text ≠ .typeSection
  | _ => True

end IniStore

namespace IniFile

/-- An entry as the loader takes it. -/
def reread (entry : IniEntry) : IniEntry := ⟨classify entry.entryText, entry.entryText⟩

/-- A line with a key that the loader takes for a header. -/
def Misread (entry : IniEntry) : Prop :=
  entry.entryType = .typeKeyValue ∧ classify entry.entryText = .typeSection

instance : DecidablePred Misread :=
  fun entry => inferInstanceAs (Decidable (entry.entryType = _ ∧ _ = _))

/-- What is kept of every entry: its line is one line, and is what the loader takes it for, or
a line with a key that it takes for a header. -/
structure Sound (entry : IniEntry) : Prop where
  lineFeed : lineFeed ∉ entry.entryText
  carriageReturn : carriageReturn ∉ entry.entryText
  kind : reread entry = entry ∨ (Misread entry ∧ entry.entryText.head? ≠ some leftBracket)

/-- The lookup of a key does not reach a line that the loader takes for a header, unless the key
has no value. -/
def Persists (entries : List IniEntry) (sec key : List UInt8) : Prop :=
  ∀ before behind skipped entry behind',
    findSection sec entries = some (before, behind) →
    findKey key behind = some (skipped, entry, behind') →
    (∃ e ∈ skipped ++ [entry], Misread e) → lineValue entry = []

/-! ### Loading what has been flushed -/

section Load

variable {entries : List IniEntry} {entry : IniEntry} {sec key : List UInt8}

theorem not_mem_of_mem_splitOn {a : UInt8} {xs l : List UInt8} (h : l ∈ xs.splitOn a) :
    a ∉ l := by
  induction xs generalizing l with
  | nil =>
    rw [List.splitOn_nil, List.mem_singleton] at h
    exact h ▸ List.not_mem_nil
  | cons c xs ih =>
    rw [List.splitOn_cons_eq_if_modifyHead] at h
    split_ifs at h with hc
    · rcases List.mem_cons.mp h with rfl | h
      · exact List.not_mem_nil
      · exact ih h
    · obtain ⟨m, ls, hls⟩ := List.exists_cons_of_ne_nil (List.splitOn_ne_nil a xs)
      rw [hls, List.modifyHead_cons] at h
      rcases List.mem_cons.mp h with rfl | h
      · rw [List.mem_cons, not_or]
        exact ⟨fun h => hc (beq_iff_eq.mpr h.symm), ih (hls ▸ List.mem_cons_self)⟩
      · exact ih (hls ▸ List.mem_cons_of_mem _ h)

theorem loadLine_of_not_mem {text : List UInt8} (h : carriageReturn ∉ text) :
    loadLine text = ⟨classify text, text⟩ := by
  have htext : text.takeWhile (fun c => c ≠ carriageReturn) = text :=
    List.takeWhile_eq_self_iff.mpr fun c hc => decide_eq_true fun heq => h (heq ▸ hc)
  rw [loadLine, htext]

/-- Loading a file gives entries that are sound. -/
theorem sound_of_mem_readFileData {content : List UInt8} (h : entry ∈ readFileData content) :
    Sound entry ∧ reread entry = entry := by
  obtain ⟨line, hline, rfl⟩ := List.mem_map.mp h
  have hlf := not_mem_of_mem_splitOn hline
  refine ⟨⟨fun hmem => hlf ((List.takeWhile_prefix _).mem hmem), fun hmem => ?_, .inl rfl⟩, rfl⟩
  have hne := List.mem_takeWhile_imp (p := fun c => decide (c ≠ carriageReturn)) hmem
  exact of_decide_eq_true hne rfl

/-- What has been flushed is loaded line by line. An empty line is added. -/
theorem readFileData_flushed (h : ∀ e ∈ entries, Sound e) :
    readFileData (flushed entries) = entries.map reread ++ [⟨.typeComment, []⟩] := by
  induction entries with
  | nil => rfl
  | cons e entries ih =>
    have he := h e List.mem_cons_self
    have ih := ih fun e' he' => h e' (List.mem_cons_of_mem e he')
    have hflushed : flushed (e :: entries) = e.entryText ++ lineFeed :: flushed entries := by
      rw [flushed, List.flatMap_cons, List.append_assoc, List.singleton_append]
      rfl
    rw [readFileData, hflushed, List.splitOn_append_cons_self_of_not_mem he.lineFeed,
      List.map_cons, loadLine_of_not_mem he.carriageReturn]
    exact congrArg (reread e :: ·) ih

theorem Sound.reread_eq_of_not_misread (h : Sound entry) (hm : ¬Misread entry) :
    reread entry = entry := h.kind.resolve_right fun h => hm h.1

/-- The loader finds the headers that there were. -/
theorem Sound.reread_eq_header_iff (h : Sound entry) (sec : List UInt8) :
    reread entry = header sec ↔ entry = header sec := by
  rcases h.kind with heq | ⟨hm, hhead⟩
  · rw [heq]
  · refine iff_of_false (fun heq => ?_) fun heq => ?_
    · rw [reread, header, IniEntry.mk.injEq] at heq
      rw [heq.2] at hhead
      exact hhead rfl
    · rw [heq] at hm
      exact absurd hm.1 (by rintro ⟨⟩)

theorem findSection_reread (h : ∀ e ∈ entries, Sound e) :
    findSection sec (entries.map reread) =
      (findSection sec entries).map fun p => (p.1.map reread, p.2.map reread) := by
  induction entries with
  | nil => rfl
  | cons e entries ih =>
    have ih := ih fun e' he' => h e' (List.mem_cons_of_mem e he')
    have hiff := (h e List.mem_cons_self).reread_eq_header_iff sec
    rw [List.map_cons, findSection, findSection]
    by_cases he : e = header sec
    · rw [if_pos he, if_pos (hiff.mpr he)]
      rfl
    · rw [if_neg he, if_neg (mt hiff.mp he), ih, Option.map_map, Option.map_map]
      rfl

/-- The search in what the loader makes of a section ends where a line is misread. -/
theorem firstMatch_reread (h : ∀ e ∈ entries, Sound e) :
    firstMatch key (entries.map reread) = (findKey key entries).bind fun r =>
      if ∃ e ∈ r.1 ++ [r.2.1], Misread e then none else some r.2.1 := by
  induction entries with
  | nil => rfl
  | cons e entries ih =>
    have ih := ih fun e' he' => h e' (List.mem_cons_of_mem e he')
    rw [List.map_cons, findKey]
    by_cases hm : Misread e
    · have hne : e.entryType ≠ .typeSection := by
        rw [hm.1]
        rintro ⟨⟩
      -- The loader's section ends here, and the writer's goes on.
      rw [firstMatch_cons_of_section hm.2, if_neg hne]
      split_ifs
      · exact (if_pos ⟨e, List.mem_cons_self, hm⟩).symm
      · cases findKey key entries with
        | none => rfl
        | some r => exact (if_pos ⟨e, List.mem_cons_self, hm⟩).symm
    · rw [(h e List.mem_cons_self).reread_eq_of_not_misread hm]
      by_cases hsec : e.entryType = .typeSection
      · rw [firstMatch_cons_of_section hsec, if_pos hsec]
        rfl
      · rw [if_neg hsec]
        by_cases hmatch : Matches key e
        · rw [firstMatch_cons_of_matches hmatch, if_pos hmatch]
          refine (if_neg ?_).symm
          rintro ⟨e', he', hm'⟩
          obtain rfl : e' = e := List.mem_singleton.mp he'
          exact hm hm'
        · rw [firstMatch_cons_of_not_matches hsec hmatch, ih, if_neg hmatch]
          cases findKey key entries with
          | none => rfl
          | some r =>
            refine if_congr ?_ rfl rfl
            simp [hm]

/-- A comment at the end changes no lookup. -/
theorem lineOf_append_comment (entries : List IniEntry) (sec key text : List UInt8) :
    lineOf (entries ++ [⟨.typeComment, text⟩]) sec key = lineOf entries sec key := by
  by_cases hmem : header sec ∈ entries
  · obtain ⟨before, behind, rfl, hbefore⟩ := List.eq_append_cons_of_mem hmem
    rw [List.append_assoc, List.cons_append, lineOf_append_cons hbefore,
      lineOf_append_cons hbefore]
    clear hmem
    induction behind with
    | nil =>
      refine firstMatch_eq_none fun e he hm => ?_
      obtain rfl : e = ⟨.typeComment, text⟩ := List.mem_singleton.mp he
      cases hm.1
    | cons e behind ih =>
      rw [List.cons_append]
      by_cases hsec : e.entryType = .typeSection
      · rw [firstMatch_cons_of_section hsec, firstMatch_cons_of_section hsec]
      · by_cases hmatch : Matches key e
        · rw [firstMatch_cons_of_matches hmatch, firstMatch_cons_of_matches hmatch]
        · rw [firstMatch_cons_of_not_matches hsec hmatch,
            firstMatch_cons_of_not_matches hsec hmatch, ih]
  · rw [lineOf_eq_none hmem, lineOf_eq_none]
    rw [List.mem_append, List.mem_singleton]
    exact fun h => h.elim hmem fun h => by cases h

/-- The value that a key has once its file has been flushed and loaded. -/
theorem getKeyValue_reread_iff (h : ∀ e ∈ entries, Sound e) :
    getKeyValue (entries.map reread) sec key = getKeyValue entries sec key ↔
      Persists entries sec key := by
  rw [getKeyValue_eq, getKeyValue_eq, lineOf, lineOf, findSection_reread h, Persists]
  cases hs : findSection sec entries with
  | none => exact iff_of_true rfl fun _ _ _ _ _ hfound => by cases hfound
  | some p =>
    obtain ⟨before, behind⟩ := p
    obtain ⟨hentries, -⟩ := findSection_eq_some hs
    have hbehind : ∀ e ∈ behind, Sound e := fun e he =>
      h e (hentries ▸ List.mem_append_right _ (List.mem_cons_of_mem _ he))
    rw [Option.map_some, Option.bind_some, Option.bind_some, firstMatch_reread hbehind, firstMatch]
    cases hk : findKey key behind with
    | none =>
      refine iff_of_true rfl fun _ behind' _ _ _ hfound hfound' => ?_
      obtain ⟨-, rfl⟩ := Prod.mk.inj (Option.some.inj hfound)
      rw [hk] at hfound'
      cases hfound'
    | some r =>
      obtain ⟨skipped, entry, behind'⟩ := r
      rw [Option.bind_some, Option.map_some]
      constructor
      · intro heq _ behind₁ skipped₁ entry₁ _ hfound hfound' hm
        obtain ⟨-, rfl⟩ := Prod.mk.inj (Option.some.inj hfound)
        rw [hk, Option.some.injEq, Prod.mk.injEq, Prod.mk.injEq] at hfound'
        obtain ⟨rfl, rfl, -⟩ := hfound'
        rw [if_pos hm] at heq
        exact heq.symm
      · intro hpersists
        by_cases hm : ∃ e ∈ skipped ++ [entry], Misread e
        · rw [if_pos hm]
          exact (hpersists _ _ _ _ _ rfl hk hm).symm
        · rw [if_neg hm]

end Load

/-! ### Calls -/

section Calls

theorem classify_eq_typeSection_iff (text : List UInt8) :
    classify text = .typeSection ↔
      leftBracket ∈ text.takeWhile (fun c => c ≠ semicolon) ∧
        rightBracket ∈ text.takeWhile (fun c => c ≠ semicolon) := by
  rw [classify]
  split_ifs with hb
  · exact iff_of_true rfl hb
  · exact iff_of_false (by rintro ⟨⟩) hb
  · exact iff_of_false (by rintro ⟨⟩) hb

/-- A header that is written is taken for one. -/
theorem sound_header (sec : IniName) : Sound (header sec.text) := by
  have hnot : ∀ c ∈ [semicolon, lineFeed, carriageReturn], c ∉ (header sec.text).entryText := by
    have hother : ∀ c ∈ [semicolon, lineFeed, carriageReturn],
        c ∈ [0, leftBracket, rightBracket, semicolon, equals, carriageReturn, lineFeed] ∧
          c ≠ leftBracket ∧ c ≠ rightBracket := by decide
    intro c hc
    obtain ⟨hname, hleft, hright⟩ := hother c hc
    rw [header, List.mem_cons, List.mem_append, List.mem_singleton]
    exact fun h => h.elim hleft fun h => h.elim (sec.not_mem hname) hright
  have hcode : (header sec.text).entryText.takeWhile (fun c => c ≠ semicolon) =
      (header sec.text).entryText :=
    List.takeWhile_eq_self_iff.mpr fun c hc =>
      decide_eq_true fun heq => hnot semicolon (by decide) (heq ▸ hc)
  refine ⟨hnot _ (by decide), hnot _ (by decide), .inl ?_⟩
  have hclass : classify (header sec.text).entryText = .typeSection := by
    rw [classify_eq_typeSection_iff, hcode]
    exact ⟨List.mem_cons_self,
      List.mem_cons_of_mem _ (List.mem_append_right _ (List.mem_singleton_self _))⟩
  rw [reread, hclass]
  rfl

/-- What the loader takes a line with a key for. -/
theorem classify_keyValue (key : IniName) (value : List UInt8) :
    classify (keyValue key.text value) =
      if classify value = .typeSection then .typeSection else .typeKeyValue := by
  have hcode : (keyValue key.text value).takeWhile (fun c => c ≠ semicolon) =
      key.text ++ equals :: value.takeWhile fun c => c ≠ semicolon := by
    rw [keyValue, List.takeWhile_append_of_pos, List.takeWhile_cons_of_pos (by decide)]
    exact fun c hc => decide_eq_true fun heq => key.not_mem (by decide) (heq ▸ hc)
  have hmem : ∀ c ∈ [leftBracket, rightBracket],
      (c ∈ key.text ++ equals :: value.takeWhile (fun c => c ≠ semicolon) ↔
        c ∈ value.takeWhile fun c => c ≠ semicolon) := by
    have hother : ∀ c ∈ [leftBracket, rightBracket],
        c ∈ [0, leftBracket, rightBracket, semicolon, equals, carriageReturn, lineFeed] ∧
          c ≠ equals := by decide
    intro c hc
    obtain ⟨hname, hequals⟩ := hother c hc
    rw [List.mem_append, List.mem_cons]
    exact ⟨fun h => (h.resolve_left (key.not_mem hname)).resolve_left hequals,
      fun h => .inr (.inr h)⟩
  have hb := classify_eq_typeSection_iff value
  have hequals : equals ∈ key.text ++ equals :: value.takeWhile (fun c => c ≠ semicolon) :=
    List.mem_append_right _ List.mem_cons_self
  rw [classify, hcode]
  simp only [hmem leftBracket (by decide), hmem rightBracket (by decide), ← hb, if_pos hequals]

theorem sound_keyValue (key : IniName) {value : List UInt8} (hcr : carriageReturn ∉ value)
    (hlf : lineFeed ∉ value) : Sound ⟨.typeKeyValue, keyValue key.text value⟩ := by
  have hnot : ∀ c ∈ [lineFeed, carriageReturn], c ∉ value → c ∉ keyValue key.text value := by
    have hother : ∀ c ∈ [lineFeed, carriageReturn],
        c ∈ [0, leftBracket, rightBracket, semicolon, equals, carriageReturn, lineFeed] ∧
          c ≠ equals := by decide
    intro c hc hvalue
    obtain ⟨hname, hequals⟩ := hother c hc
    rw [keyValue, List.mem_append, List.mem_cons]
    exact fun h => h.elim (key.not_mem hname) fun h => h.elim hequals hvalue
  refine ⟨hnot _ (by decide) hlf, hnot _ (by decide) hcr, ?_⟩
  by_cases hclass : classify value = .typeSection
  · refine .inr ⟨⟨rfl, by rw [classify_keyValue, if_pos hclass]⟩, ?_⟩
    change (key.text ++ equals :: value).head? ≠ some leftBracket
    -- The line does not begin with a bracket, since its key has none.
    have hkey := key.not_mem (c := leftBracket) (by decide)
    cases htext : key.text with
    | nil => exact fun h => absurd (Option.some.inj h) (by decide)
    | cons c text =>
      rw [htext] at hkey
      exact fun h => hkey (Option.some.inj h ▸ List.mem_cons_self)
  · left
    rw [reread, classify_keyValue, if_neg hclass]

end Calls

end IniFile

namespace IniStore

/-- What holds between two calls: every line is sound, and a file that needs no update is
loaded with the lines that there are. -/
structure Consistent (s : IniStore) : Prop where
  sound : ∀ e ∈ s.fileEntryList, Sound e
  content : s.needUpdate = false → ∃ tail, (tail = [] ∨ tail = [⟨.typeComment, []⟩]) ∧
    readFileData s.content = s.fileEntryList.map reread ++ tail

theorem consistent_load (content : List UInt8) : (load content).Consistent where
  sound e he := (sound_of_mem_readFileData he).1
  content _ := by
    refine ⟨[], .inl rfl, ?_⟩
    rw [List.append_nil]
    exact ((List.map_congr_left fun e he => (sound_of_mem_readFileData he).2).trans
      (List.map_id _)).symm

/-- The entries after a call are old ones, or written by it. -/
theorem mem_call {s : IniStore} {c : Call} {e : IniEntry}
    (he : e ∈ (s.call c).fileEntryList) :
    e ∈ s.fileEntryList ∨ e = ⟨.typeComment, []⟩ ∨ e = header c.sec.text ∨ e ∈ c.newLine := by
  have hentries : (s.call c).fileEntryList = apply s.fileEntryList c := by
    cases c with
    | writeString sec key value => rfl
    | deleteKey sec key =>
      rw [call, apply]
      cases deleteKey s.fileEntryList sec.text key.text <;> rfl
  rw [hentries] at he
  exact mem_apply he

theorem consistent_step {s : IniStore} {a : Action} (hs : s.Consistent) (ha : a.OneLine) :
    (s.step a).Consistent := by
  cases a with
  | call c =>
    refine ⟨fun e he => ?_, fun hupdate => ?_⟩
    · rcases mem_call he with he | rfl | rfl | he
      · exact hs.sound e he
      · exact ⟨List.not_mem_nil, List.not_mem_nil, .inl rfl⟩
      · exact sound_header c.sec
      · cases c with
        | writeString sec key value =>
          obtain rfl := Option.some.inj he
          exact sound_keyValue key ha.1 ha.2
        | deleteKey sec key => cases he
    · cases c with
      | writeString sec key value => cases hupdate
      | deleteKey sec key =>
        rw [step, IniStore.call] at hupdate ⊢
        split at hupdate
        · cases hupdate
        · exact hs.content hupdate
  | flush =>
    rw [step, flush]
    split_ifs with hupdate
    · exact ⟨hs.sound, fun _ => ⟨_, .inr rfl, readFileData_flushed hs.sound⟩⟩
    · exact hs

/-- What holds after any sequence of calls and flushes. -/
theorem consistent_foldl (content : List UInt8) {l : List Action}
    (hl : ∀ a ∈ l, a.OneLine) : (l.foldl step (load content)).Consistent := by
  have hinv : ∀ s : IniStore, s.Consistent → (l.foldl step s).Consistent := by
    induction l with
    | nil => exact fun s hs => hs
    | cons a l ih =>
      exact fun s hs => ih (fun b hb => hl b (List.mem_cons_of_mem a hb)) _
        (consistent_step hs (hl a List.mem_cons_self))
  exact hinv _ (consistent_load content)

/-- Flushing and loading again gives the lines as the loader takes them. -/
theorem Consistent.read_load_flush {s : IniStore} (hs : s.Consistent) (sec key : List UInt8) :
    (load s.flush.content).read sec key =
      getKeyValue (s.fileEntryList.map reread) sec key := by
  have htail : ∃ tail, (tail = [] ∨ tail = [⟨.typeComment, []⟩]) ∧
      readFileData s.flush.content = s.fileEntryList.map reread ++ tail := by
    rw [flush]
    split_ifs with hupdate
    · exact ⟨_, .inr rfl, readFileData_flushed hs.sound⟩
    · exact hs.content (Bool.eq_false_iff.mpr hupdate)
  obtain ⟨tail, htail, hread⟩ := htail
  rw [read, load, hread, getKeyValue_eq, getKeyValue_eq]
  -- A file that has been flushed ends with an empty line, which the loader takes for a comment.
  rcases htail with rfl | rfl
  · rw [List.append_nil]
  · rw [lineOf_append_comment]

/-- No line is misread if no value with both brackets is written. -/
theorem not_misread_foldl (content : List UInt8) {l : List Action}
    (hl : ∀ a ∈ l, a.NoBrackets) :
    ∀ e ∈ (l.foldl step (load content)).fileEntryList, ¬Misread e := by
  have hinv : ∀ s : IniStore, (∀ e ∈ s.fileEntryList, ¬Misread e) →
      ∀ e ∈ (l.foldl step s).fileEntryList, ¬Misread e := by
    induction l with
    | nil => exact fun s hs => hs
    | cons a l ih =>
      refine fun s hs => ih (fun b hb => hl b (List.mem_cons_of_mem a hb)) _ fun e he => ?_
      have ha := hl a List.mem_cons_self
      cases a with
      | call c =>
        rcases mem_call he with he | rfl | rfl | he
        · exact hs e he
        · exact fun hm => absurd hm.1 (by rintro ⟨⟩)
        · exact fun hm => absurd hm.1 (by rintro ⟨⟩)
        · cases c with
          | writeString sec key value =>
            obtain rfl := Option.some.inj he
            intro hm
            have hclass := hm.2
            rw [classify_keyValue, if_neg ha] at hclass
            cases hclass
          | deleteKey sec key => cases he
      | flush =>
        rw [step, flush] at he
        split_ifs at he
        · exact hs e he
        · exact hs e he
  refine hinv _ fun e he hm => ?_
  have hkind := congrArg IniEntry.entryType (sound_of_mem_readFileData he).2
  have hsec : IniEntryType.typeSection = .typeKeyValue := hm.2.symm.trans (hkind.trans hm.1)
  cases hsec

/-- **INI files on disk.** After any sequence of calls and flushes, flushing the file and loading
it gives a key the value that it had precisely if its lookup does not reach a line that the
loader takes for a header. So it is if no value that is written has both brackets before its
first `;`. -/
theorem read_load_flush_iff (content : List UInt8) {l : List Action}
    (hl : ∀ a ∈ l, a.OneLine) (sec key : List UInt8) :
    ((load (l.foldl step (load content)).flush.content).read sec key =
        (l.foldl step (load content)).read sec key ↔
      Persists (l.foldl step (load content)).fileEntryList sec key) ∧
    ((∀ a ∈ l, a.NoBrackets) →
      (load (l.foldl step (load content)).flush.content).read sec key =
        (l.foldl step (load content)).read sec key) := by
  have hs := consistent_foldl content hl
  have hiff : (load (l.foldl step (load content)).flush.content).read sec key =
        (l.foldl step (load content)).read sec key ↔
      Persists (l.foldl step (load content)).fileEntryList sec key := by
    rw [hs.read_load_flush, read]
    exact getKeyValue_reread_iff hs.sound
  refine ⟨hiff, fun hbrackets => hiff.mpr ?_⟩
  intro before behind skipped entry behind' hfound hfound' hm
  obtain ⟨e, he, hm⟩ := hm
  refine absurd hm (not_misread_foldl content hbrackets e ?_)
  obtain ⟨hsplit, -⟩ := findSection_eq_some hfound
  obtain ⟨rfl, -, -⟩ := findKey_eq_some hfound'
  rw [hsplit]
  simp only [List.mem_append, List.mem_cons, List.not_mem_nil, or_false] at he ⊢
  tauto

/-- A value in brackets is lost when the file is loaded. -/
theorem bracketed_value_lost :
    let l := [Action.call (.writeString ⟨toBytes "s", by decide⟩ ⟨toBytes "k", by decide⟩
      ⟨toBytes "[x]", by decide⟩)]
    (l.foldl step (load [])).read (toBytes "s") (toBytes "k") = toBytes "[x]" ∧
      (load (l.foldl step (load [])).flush.content).read (toBytes "s") (toBytes "k") = [] := by
  decide

/-- A value without brackets survives. -/
theorem plain_value_kept :
    (load ([Action.call (.writeString ⟨toBytes "s", by decide⟩ ⟨toBytes "k", by decide⟩
        ⟨toBytes "x", by decide⟩)].foldl step (load [])).flush.content).read
          (toBytes "s") (toBytes "k") =
      ([Action.call (.writeString ⟨toBytes "s", by decide⟩ ⟨toBytes "k", by decide⟩
        ⟨toBytes "x", by decide⟩)].foldl step (load [])).read (toBytes "s") (toBytes "k") := by
  refine (read_load_flush_iff [] ?_ _ _).2 ?_
  · intro a ha
    rw [List.mem_singleton] at ha
    subst ha
    exact ⟨by decide, by decide⟩
  · intro a ha
    rw [List.mem_singleton] at ha
    subst ha
    exact fun h => absurd h (by decide)

end IniStore

end UtilityFramework
