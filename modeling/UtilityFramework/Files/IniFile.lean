import UtilityFramework.Lib.Transition
import UtilityFramework.Parsers.Json

/-!
# INI files

`ini_file` keeps a file as the list of its lines, each with what it was taken for when the
file was loaded: a section header, a key with its value, or a comment. A key is looked up from
the header of its section to the next header, and a line is taken for the key's line if it
*contains* the key followed by `=`.

An iterator is given by the entries before it and the entries from it on.
-/

namespace UtilityFramework

/-- `ini_entry_type`. -/
inductive IniEntryType
  | typeNone
  | typeSection
  | typeKeyValue
  | typeComment
  deriving DecidableEq

/-- `ini_entry`. -/
structure IniEntry where
  entryType : IniEntryType
  entryText : List UInt8
  deriving DecidableEq

namespace IniFile

def lineFeed : UInt8 := 10
def carriageReturn : UInt8 := 13
def semicolon : UInt8 := 59
def equals : UInt8 := 61
def leftBracket : UInt8 := 91
def rightBracket : UInt8 := 93

/-- What holds of all bytes of a text is decided byte by byte of the text. -/
scoped instance (priority := high) decidableForallMem (p : UInt8 → Prop) [DecidablePred p]
    (text : List UInt8) : Decidable (∀ c ∈ text, p c) := List.decidableBAll p text

end IniFile

open IniFile Text

/-- A section name or a key: a C string without the characters that structure the file. -/
structure IniName where
  text : List UInt8
  valid : ∀ c ∈ text,
    c ∉ [0, leftBracket, rightBracket, semicolon, equals, carriageReturn, lineFeed]

theorem IniName.not_mem (name : IniName) {c : UInt8}
    (hc : c ∈ [0, leftBracket, rightBracket, semicolon, equals, carriageReturn, lineFeed]) :
    c ∉ name.text := fun h => name.valid c h hc

/-- A value: a C string. -/
structure IniValue where
  text : List UInt8
  nul : 0 ∉ text

namespace IniFile

/-- The entry of a section's header. -/
def header (sec : List UInt8) : IniEntry :=
  ⟨.typeSection, leftBracket :: (sec ++ [rightBracket])⟩

/-- `key_value`: the line of a key with its value. -/
def keyValue (key value : List UInt8) : List UInt8 := key ++ equals :: value

/-- The test of `find_entry`: a line with a key that contains the key looked for and `=`. -/
def Matches (key : List UInt8) (entry : IniEntry) : Prop :=
  entry.entryType = .typeKeyValue ∧ key ++ [equals] <:+: entry.entryText

instance (key : List UInt8) : DecidablePred (Matches key) :=
  fun entry => inferInstanceAs (Decidable (entry.entryType = _ ∧ _ <:+: entry.entryText))

/-- `find_section`: the entries before the section's header, and those behind it. -/
def findSection (sec : List UInt8) : List IniEntry → Option (List IniEntry × List IniEntry)
  | [] => none
  | entry :: entries =>
    if entry = header sec then some ([], entries)
    else (findSection sec entries).map fun p => (entry :: p.1, p.2)

/-- The loop of `find_entry`: the entries skipped, the key's line, and the entries behind
it. -/
def findKey (key : List UInt8) :
    List IniEntry → Option (List IniEntry × IniEntry × List IniEntry)
  | [] => none
  | entry :: entries =>
    if entry.entryType = .typeSection then none
    else if Matches key entry then some ([], entry, entries)
    else (findKey key entries).map fun p => (entry :: p.1, p.2)

/-- `find_entry`: the entries before the line, the line, and the entries behind it. -/
def findEntry (sec key : List UInt8) (entries : List IniEntry) :
    Option (List IniEntry × IniEntry × List IniEntry) :=
  (findSection sec entries).bind fun p =>
    (findKey key p.2).map fun r => (p.1 ++ header sec :: r.1, r.2)

/-- What stands behind the first `=` of a line; all of it if there is none. -/
def afterEquals (text : List UInt8) : List UInt8 :=
  if equals ∈ text then (text.dropWhile fun c => c ≠ equals).tail else text

/-- The value on a line, as a C string. -/
def lineValue (entry : IniEntry) : List UInt8 := untilNul (afterEquals entry.entryText)

/-- `get_key_value`: empty if the key is not found. -/
def getKeyValue (entries : List IniEntry) (sec key : List UInt8) : List UInt8 :=
  match findEntry sec key entries with
  | some r => lineValue r.2.1
  | none => []

/-- `write_string`. A new key goes right behind its section's header, a new section to the
end. -/
def writeString (entries : List IniEntry) (sec key value : List UInt8) : List IniEntry :=
  match findSection sec entries with
  | none =>
    entries ++ [⟨.typeComment, []⟩, header sec, ⟨.typeKeyValue, keyValue key value⟩]
  | some (before, behind) =>
    match findEntry sec key entries with
    | none => before ++ header sec :: ⟨.typeKeyValue, keyValue key value⟩ :: behind
    | some (before, entry, behind) =>
      before ++ { entry with entryText := keyValue key value } :: behind

/-- `delete_key`: `none` if the key is not found. -/
def deleteKey (entries : List IniEntry) (sec key : List UInt8) : Option (List IniEntry) :=
  (findEntry sec key entries).map fun r => r.1 ++ r.2.2

/-! ### What a key reads -/

section Lookup

variable {sec key : List UInt8} {entries before behind : List IniEntry} {entry : IniEntry}

theorem Matches.ne_header (h : Matches key entry) (sec : List UInt8) : entry ≠ header sec := by
  rintro rfl
  exact absurd h.1 (by rintro ⟨⟩)

theorem header_injective {sec sec' : List UInt8} (h : header sec = header sec') : sec = sec' := by
  rw [header, header, IniEntry.mk.injEq, List.cons.injEq] at h
  exact List.append_cancel_right h.2.2

/-- `find_section` stops at the first header of the section. -/
theorem findSection_eq_some (h : findSection sec entries = some (before, behind)) :
    entries = before ++ header sec :: behind ∧ header sec ∉ before := by
  induction entries generalizing before with
  | nil => cases h
  | cons e entries ih =>
    rw [findSection] at h
    split_ifs at h with he
    · obtain ⟨rfl, rfl⟩ := Prod.mk.inj (Option.some.inj h)
      exact ⟨by rw [he, List.nil_append], List.not_mem_nil⟩
    · obtain ⟨p, hp, heq⟩ := Option.map_eq_some_iff.mp h
      obtain ⟨rfl, rfl⟩ := Prod.mk.inj heq
      obtain ⟨heq, hmem⟩ := ih hp
      refine ⟨by rw [heq, List.cons_append], ?_⟩
      rw [List.mem_cons, not_or]
      exact ⟨Ne.symm he, hmem⟩

theorem findSection_append_cons (hmem : header sec ∉ before) :
    findSection sec (before ++ header sec :: behind) = some (before, behind) := by
  induction before with
  | nil => rw [List.nil_append, findSection, if_pos rfl]
  | cons e before ih =>
    rw [List.mem_cons, not_or] at hmem
    rw [List.cons_append, findSection, if_neg (Ne.symm hmem.1), ih hmem.2]
    rfl

theorem findSection_eq_none_iff : findSection sec entries = none ↔ header sec ∉ entries := by
  induction entries with
  | nil => exact iff_of_true rfl List.not_mem_nil
  | cons e entries ih =>
    rw [findSection, List.mem_cons, not_or]
    split_ifs with he
    · exact iff_of_false (fun h => by cases h) fun h => h.1 he.symm
    · rw [Option.map_eq_none_iff, ih]
      exact ⟨fun h => ⟨Ne.symm he, h⟩, fun h => h.2⟩

/-- The line that a key is read from, in the entries behind the section's header. -/
def firstMatch (key : List UInt8) (entries : List IniEntry) : Option IniEntry :=
  (findKey key entries).map fun r => r.2.1

/-- `find_entry` skips entries that are no headers and do not match, and stops at one that
matches. -/
theorem findKey_eq_some (h : findKey key entries = some (before, entry, behind)) :
    entries = before ++ entry :: behind ∧ Matches key entry ∧
      ∀ e ∈ before, e.entryType ≠ .typeSection ∧ ¬Matches key e := by
  induction entries generalizing before with
  | nil => cases h
  | cons e entries ih =>
    rw [findKey] at h
    split_ifs at h with hsec hmatch
    · obtain ⟨rfl, heq⟩ := Prod.mk.inj (Option.some.inj h)
      obtain ⟨rfl, rfl⟩ := Prod.mk.inj heq
      exact ⟨rfl, hmatch, fun _ h => absurd h List.not_mem_nil⟩
    · obtain ⟨⟨b, r⟩, hr, heq⟩ := Option.map_eq_some_iff.mp h
      obtain ⟨rfl, rfl⟩ := Prod.mk.inj heq
      obtain ⟨heq, hmatch', hskip⟩ := ih hr
      refine ⟨by rw [heq, List.cons_append], hmatch', fun e' he' => ?_⟩
      rcases List.mem_cons.mp he' with rfl | he'
      · exact ⟨hsec, hmatch⟩
      · exact hskip e' he'

@[simp] theorem firstMatch_nil : firstMatch key [] = none := rfl

theorem firstMatch_cons_of_matches (h : Matches key entry) :
    firstMatch key (entry :: entries) = some entry := by
  have hne : entry.entryType ≠ .typeSection := by
    rw [h.1]
    rintro ⟨⟩
  rw [firstMatch, findKey, if_neg hne, if_pos h]
  rfl

theorem firstMatch_cons_of_section (h : entry.entryType = .typeSection) :
    firstMatch key (entry :: entries) = none := by
  rw [firstMatch, findKey, if_pos h]
  rfl

theorem firstMatch_cons_of_not_matches (hne : entry.entryType ≠ .typeSection)
    (h : ¬Matches key entry) : firstMatch key (entry :: entries) = firstMatch key entries := by
  rw [firstMatch, findKey, if_neg hne, if_neg h, Option.map_map, firstMatch]
  rfl

/-- Entries that are no headers are searched before those behind them. -/
theorem firstMatch_append (key : List UInt8)
    (hbefore : ∀ e ∈ before, e.entryType ≠ .typeSection) (behind : List IniEntry) :
    firstMatch key (before ++ behind) = (firstMatch key before).or (firstMatch key behind) := by
  induction before with
  | nil => rfl
  | cons e before ih =>
    have hne := hbefore e List.mem_cons_self
    have ih := ih fun e he => hbefore e (List.mem_cons_of_mem _ he)
    rw [List.cons_append]
    by_cases hm : Matches key e
    · rw [firstMatch_cons_of_matches hm, firstMatch_cons_of_matches hm, Option.some_or]
    · rw [firstMatch_cons_of_not_matches hne hm, firstMatch_cons_of_not_matches hne hm, ih]

/-- The search does not go past a header. -/
theorem firstMatch_append_section (h : entry.entryType = .typeSection)
    (behind' : List IniEntry) :
    firstMatch key (before ++ entry :: behind) = firstMatch key (before ++ entry :: behind') := by
  induction before with
  | nil => rw [List.nil_append, List.nil_append, firstMatch_cons_of_section h,
      firstMatch_cons_of_section h]
  | cons e before ih =>
    rw [List.cons_append, List.cons_append]
    by_cases hs : e.entryType = .typeSection
    · rw [firstMatch_cons_of_section hs, firstMatch_cons_of_section hs]
    · by_cases hm : Matches key e
      · rw [firstMatch_cons_of_matches hm, firstMatch_cons_of_matches hm]
      · rw [firstMatch_cons_of_not_matches hs hm, firstMatch_cons_of_not_matches hs hm, ih]

/-- A header behind the entries, with a comment before it, ends the search. -/
theorem firstMatch_append_comment {comment : IniEntry} (hc : comment.entryType = .typeComment)
    (h : entry.entryType = .typeSection) :
    firstMatch key (before ++ comment :: entry :: behind) = firstMatch key before := by
  induction before with
  | nil =>
    have hne : comment.entryType ≠ .typeSection := by
      rw [hc]
      rintro ⟨⟩
    have hm : ¬Matches key comment := by
      rintro ⟨hkv, -⟩
      rw [hc] at hkv
      cases hkv
    rw [List.nil_append, firstMatch_cons_of_not_matches hne hm, firstMatch_cons_of_section h,
      firstMatch_nil]
  | cons e before ih =>
    rw [List.cons_append]
    by_cases hs : e.entryType = .typeSection
    · rw [firstMatch_cons_of_section hs, firstMatch_cons_of_section hs]
    · by_cases hm : Matches key e
      · rw [firstMatch_cons_of_matches hm, firstMatch_cons_of_matches hm]
      · rw [firstMatch_cons_of_not_matches hs hm, firstMatch_cons_of_not_matches hs hm, ih]

theorem firstMatch_eq_none (h : ∀ e ∈ entries, ¬Matches key e) : firstMatch key entries = none := by
  induction entries with
  | nil => rfl
  | cons e entries ih =>
    by_cases hs : e.entryType = .typeSection
    · exact firstMatch_cons_of_section hs
    · rw [firstMatch_cons_of_not_matches hs (h e List.mem_cons_self)]
      exact ih fun e he => h e (List.mem_cons_of_mem _ he)

/-- The value read from a line, empty if there is none. -/
def valueOf (line : Option IniEntry) : List UInt8 := (line.map lineValue).getD []

/-- The line that a key of a section is read from. -/
def lineOf (entries : List IniEntry) (sec key : List UInt8) : Option IniEntry :=
  (findSection sec entries).bind fun p => firstMatch key p.2

theorem getKeyValue_eq (entries : List IniEntry) (sec key : List UInt8) :
    getKeyValue entries sec key = valueOf (lineOf entries sec key) := by
  rw [getKeyValue, findEntry, lineOf]
  cases hs : findSection sec entries with
  | none => rfl
  | some p =>
    rw [Option.bind_some, Option.bind_some, firstMatch]
    cases findKey key p.2 <;> rfl

theorem lineOf_append_cons (hmem : header sec ∉ before) :
    lineOf (before ++ header sec :: behind) sec key = firstMatch key behind := by
  rw [lineOf, findSection_append_cons hmem]
  rfl

theorem lineOf_eq_none (hmem : header sec ∉ entries) : lineOf entries sec key = none := by
  rw [lineOf, findSection_eq_none_iff.mpr hmem]
  rfl

/-- What stands behind the header of another section does not matter, as far as it is no
header. -/
theorem lineOf_of_ne {sec' : List UInt8} (hne : sec' ≠ sec) {mid mid' : List IniEntry}
    (hmid : header sec' ∉ mid) (hmid' : header sec' ∉ mid') :
    lineOf (before ++ header sec :: (mid ++ behind)) sec' key =
      lineOf (before ++ header sec :: (mid' ++ behind)) sec' key := by
  have hhead : header sec' ≠ header sec := fun h => hne (header_injective h)
  by_cases hbefore : header sec' ∈ before
  · obtain ⟨b₁, b₂, rfl, hb₁⟩ := List.eq_append_cons_of_mem hbefore
    rw [List.append_assoc, List.append_assoc, List.cons_append, List.cons_append,
      lineOf_append_cons hb₁, lineOf_append_cons hb₁]
    exact firstMatch_append_section rfl _
  · have hskip : ∀ m : List IniEntry, header sec' ∉ m →
        lineOf (before ++ header sec :: (m ++ behind)) sec' key = lineOf behind sec' key := by
      intro m hm
      have hpre : header sec' ∉ before ++ header sec :: m := by
        rw [List.mem_append, List.mem_cons]
        exact fun h => h.elim hbefore fun h => h.elim hhead hm
      rw [← List.cons_append, ← List.append_assoc]
      by_cases hbehind : header sec' ∈ behind
      · obtain ⟨b₁, b₂, rfl, hb₁⟩ := List.eq_append_cons_of_mem hbehind
        rw [← List.append_assoc, lineOf_append_cons hb₁, lineOf_append_cons]
        rw [List.mem_append]
        exact fun h => h.elim hpre hb₁
      · rw [lineOf_eq_none hbehind, lineOf_eq_none]
        rw [List.mem_append]
        exact fun h => h.elim hpre hbehind
    rw [hskip mid hmid, hskip mid' hmid']

end Lookup

/-! ### What a call changes -/

section Functions

variable {sec key : List UInt8} {entries before behind : List IniEntry}

theorem writeString_of_findSection_eq_none (h : findSection sec entries = none)
    (value : List UInt8) : writeString entries sec key value =
      entries ++ [⟨.typeComment, []⟩, header sec, ⟨.typeKeyValue, keyValue key value⟩] := by
  rw [writeString, h]

theorem findEntry_of_findSection_eq_some (h : findSection sec entries = some (before, behind)) :
    findEntry sec key entries =
      (findKey key behind).map fun r => (before ++ header sec :: r.1, r.2) := by
  rw [findEntry, h, Option.bind_some]

theorem writeString_of_findKey_eq_none (h : findSection sec entries = some (before, behind))
    (hk : findKey key behind = none) (value : List UInt8) :
    writeString entries sec key value =
      before ++ header sec :: ⟨.typeKeyValue, keyValue key value⟩ :: behind := by
  rw [writeString, findEntry_of_findSection_eq_some h, hk, h]
  rfl

theorem writeString_of_findKey_eq_some {skipped behind' : List IniEntry} {entry : IniEntry}
    (h : findSection sec entries = some (before, behind))
    (hk : findKey key behind = some (skipped, entry, behind')) (value : List UInt8) :
    writeString entries sec key value = before ++ header sec ::
      (skipped ++ ⟨.typeKeyValue, keyValue key value⟩ :: behind') := by
  obtain ⟨-, hmatch, -⟩ := findKey_eq_some hk
  rw [writeString, findEntry_of_findSection_eq_some h, hk, h, Option.map_some]
  simp only [hmatch.1, List.append_assoc, List.cons_append]

theorem deleteKey_of_findSection_eq_none (h : findSection sec entries = none) :
    deleteKey entries sec key = none := by
  rw [deleteKey, findEntry, h]
  rfl

theorem deleteKey_of_findKey_eq_none (h : findSection sec entries = some (before, behind))
    (hk : findKey key behind = none) : deleteKey entries sec key = none := by
  rw [deleteKey, findEntry_of_findSection_eq_some h, hk]
  rfl

theorem deleteKey_of_findKey_eq_some {skipped behind' : List IniEntry} {entry : IniEntry}
    (h : findSection sec entries = some (before, behind))
    (hk : findKey key behind = some (skipped, entry, behind')) :
    deleteKey entries sec key = some (before ++ header sec :: (skipped ++ behind')) := by
  rw [deleteKey, findEntry_of_findSection_eq_some h, hk, Option.map_some, Option.map_some,
    List.append_assoc, List.cons_append]

end Functions

/-- A call of `write_string` or `delete_key`. -/
inductive Call
  | writeString (sec key : IniName) (value : IniValue)
  | deleteKey (sec key : IniName)

namespace Call

/-- The section of the call. -/
def sec : Call → IniName
  | .writeString sec _ _ => sec
  | .deleteKey sec _ => sec

/-- The key of the call. -/
def key : Call → IniName
  | .writeString _ key _ => key
  | .deleteKey _ key => key

/-- The line that the call writes. -/
def newLine : Call → Option IniEntry
  | .writeString _ key value => some ⟨.typeKeyValue, IniFile.keyValue key.text value.text⟩
  | .deleteKey _ _ => none

end Call

/-- The entries after a call. -/
def apply (entries : List IniEntry) : Call → List IniEntry
  | .writeString sec key value => writeString entries sec.text key.text value.text
  | .deleteKey sec key => (deleteKey entries sec.text key.text).getD entries

/-- The lines of the section before the one that a call touches, the line that it replaces or
deletes, if there is one, and the lines behind it. -/
def place (entries : List IniEntry) (call : Call) :
    List IniEntry × Option IniEntry × List IniEntry :=
  match findSection call.sec.text entries with
  | none => ([], none, [])
  | some (_, behind) =>
    match findKey call.key.text behind with
    | none => ([], none, behind)
    | some (skipped, entry, behind) => (skipped, some entry, behind)

section Calls

variable {entries : List IniEntry} {call : Call} {key : List UInt8}

theorem Call.matches_newLine {line : IniEntry} (h : line ∈ call.newLine) :
    Matches call.key.text line := by
  cases call with
  | writeString sec key value =>
    obtain rfl := Option.some.inj h
    refine ⟨rfl, List.IsPrefix.isInfix ⟨value.text, ?_⟩⟩
    rw [keyValue, List.append_assoc, List.singleton_append]
    rfl
  | deleteKey sec key => cases h

/-- A call on a section that is there changes one line of it: it replaces the line of the key,
or puts one in, or takes it out. -/
theorem apply_of_found {before behind : List IniEntry}
    (h : findSection call.sec.text entries = some (before, behind)) :
    header call.sec.text ∉ before ∧
    entries = before ++ header call.sec.text ::
      ((place entries call).1 ++ ((place entries call).2.1.toList ++ (place entries call).2.2)) ∧
    apply entries call = before ++ header call.sec.text ::
      ((place entries call).1 ++ (call.newLine.toList ++ (place entries call).2.2)) ∧
    (∀ e ∈ (place entries call).1,
      e.entryType ≠ .typeSection ∧ ¬Matches call.key.text e) ∧
    ∀ e ∈ (place entries call).2.1, Matches call.key.text e := by
  obtain ⟨hentries, hmem⟩ := findSection_eq_some h
  refine ⟨hmem, ?_⟩
  cases hk : findKey call.key.text behind with
  | none =>
    have hplace : place entries call = ([], none, behind) := by
      rw [place, h]
      simp only [hk]
    rw [hplace]
    refine ⟨hentries, ?_, fun e he => absurd he List.not_mem_nil, fun e he => by cases he⟩
    cases call with
    | writeString sec key value => exact writeString_of_findKey_eq_none h hk value.text
    | deleteKey sec key =>
      have hdel : deleteKey entries sec.text key.text = none := deleteKey_of_findKey_eq_none h hk
      rw [apply, hdel]
      exact hentries
  | some r =>
    obtain ⟨skipped, entry, behind'⟩ := r
    obtain ⟨rfl, hmatch, hskip⟩ := findKey_eq_some hk
    have hplace : place entries call = (skipped, some entry, behind') := by
      rw [place, h]
      simp only [hk]
    rw [hplace]
    refine ⟨hentries, ?_, hskip, fun e he => Option.some.inj he ▸ hmatch⟩
    cases call with
    | writeString sec key value => exact writeString_of_findKey_eq_some h hk value.text
    | deleteKey sec key =>
      have hdel : deleteKey entries sec.text key.text =
          some (before ++ header sec.text :: (skipped ++ behind')) :=
        deleteKey_of_findKey_eq_some h hk
      rw [apply, hdel]
      rfl

/-- A call on a section that is not there appends it, or changes nothing. -/
theorem apply_of_not_found (h : findSection call.sec.text entries = none) :
    place entries call = ([], none, []) ∧
    (call.newLine = none ∧ apply entries call = entries ∨
      ∃ line ∈ call.newLine, apply entries call =
        (entries ++ [⟨.typeComment, []⟩]) ++ header call.sec.text :: [line]) := by
  refine ⟨by rw [place, h], ?_⟩
  cases call with
  | writeString sec key value =>
    refine .inr ⟨_, rfl, (writeString_of_findSection_eq_none h _).trans ?_⟩
    rw [List.append_assoc, List.singleton_append]
  | deleteKey sec key =>
    have hdel : deleteKey entries sec.text key.text = none := deleteKey_of_findSection_eq_none h
    refine .inl ⟨rfl, ?_⟩
    rw [apply, hdel]
    rfl

/-- The entries after a call are old ones, or written by it. -/
theorem mem_apply {e : IniEntry} (he : e ∈ apply entries call) :
    e ∈ entries ∨ e = ⟨.typeComment, []⟩ ∨ e = header call.sec.text ∨ e ∈ call.newLine := by
  cases h : findSection call.sec.text entries with
  | none =>
    obtain ⟨-, ⟨-, happly⟩ | ⟨line, hline, happly⟩⟩ := apply_of_not_found h
    · rw [happly] at he
      exact .inl he
    · rw [happly] at he
      simp only [List.mem_append, List.mem_cons, List.not_mem_nil, or_false] at he
      rcases he with (he | he) | he | rfl
      · exact .inl he
      · exact .inr (.inl he)
      · exact .inr (.inr (.inl he))
      · exact .inr (.inr (.inr hline))
  | some p =>
    obtain ⟨-, hsplit, happly, -, -⟩ := apply_of_found h
    rw [happly] at he
    rw [hsplit]
    simp only [List.mem_append, List.mem_cons, Option.mem_toList] at he ⊢
    tauto

variable (entries call) in
/-- The line that a call writes is the one its key is read from afterwards. -/
theorem lineOf_apply_self {line : IniEntry} (hline : line ∈ call.newLine) :
    lineOf (apply entries call) call.sec.text call.key.text = some line := by
  have hmatch := Call.matches_newLine hline
  cases h : findSection call.sec.text entries with
  | none =>
    obtain ⟨-, ⟨hnone, -⟩ | ⟨line', hline', happly⟩⟩ := apply_of_not_found h
    · rw [hnone] at hline
      cases hline
    · obtain rfl : line' = line := Option.some.inj (hline'.symm.trans hline)
      have hmem := findSection_eq_none_iff.mp h
      rw [happly, lineOf_append_cons, firstMatch_cons_of_matches hmatch]
      rw [List.mem_append, List.mem_singleton]
      exact fun h => h.elim hmem fun h => by cases h
  | some p =>
    obtain ⟨hmem, -, happly, hskip, -⟩ := apply_of_found h
    have hnone : firstMatch call.key.text (place entries call).1 = none :=
      firstMatch_eq_none fun e he => (hskip e he).2
    rw [happly, lineOf_append_cons hmem, firstMatch_append _ fun e he => (hskip e he).1, hnone,
      Option.none_or, Option.mem_def.mp hline]
    exact firstMatch_cons_of_matches hmatch

/-- Other sections are not touched. -/
theorem lineOf_apply_of_ne {sec : List UInt8} (hne : sec ≠ call.sec.text) :
    lineOf (apply entries call) sec key = lineOf entries sec key := by
  have hnot : ∀ {k : List UInt8} {o : Option IniEntry}, (∀ e ∈ o, Matches k e) →
      header sec ∉ o.toList := by
    intro k o ho hmem
    exact (ho _ (Option.mem_toList.mp hmem)).ne_header sec rfl
  cases h : findSection call.sec.text entries with
  | none =>
    obtain ⟨-, ⟨-, happly⟩ | ⟨line, hline, happly⟩⟩ := apply_of_not_found h
    · rw [happly]
    · by_cases hmem : header sec ∈ entries
      · obtain ⟨b₁, b₂, rfl, hb₁⟩ := List.eq_append_cons_of_mem hmem
        rw [happly, List.append_assoc, List.append_assoc, List.cons_append,
          lineOf_append_cons hb₁, lineOf_append_cons hb₁, List.singleton_append]
        exact firstMatch_append_comment rfl rfl
      -- The appended entries are no header of the other section either.
      · have hmatch := (Call.matches_newLine hline).ne_header sec
        rw [happly, lineOf_eq_none hmem, lineOf_eq_none]
        simp only [List.mem_append, List.mem_cons, List.not_mem_nil, or_false, not_or]
        exact ⟨⟨hmem, fun h => by cases h⟩, fun h => hne (header_injective h), hmatch.symm⟩
  | some p =>
    obtain ⟨-, hentries, happly, hskip, hold⟩ := apply_of_found h
    have hmid : ∀ o : Option IniEntry, (∀ e ∈ o, Matches call.key.text e) →
        header sec ∉ (place entries call).1 ++ o.toList := by
      intro o ho hmem
      rcases List.mem_append.mp hmem with hmem | hmem
      · exact (hskip _ hmem).1 rfl
      · exact hnot ho hmem
    conv_rhs => rw [hentries]
    rw [happly, ← List.append_assoc, ← List.append_assoc]
    exact lineOf_of_ne hne (hmid _ fun e he => Call.matches_newLine he) (hmid _ hold)

/-- What a key of the section is read from, before and after a call. -/
theorem lineOf_eq_or (entries : List IniEntry) (call : Call) (key : List UInt8) :
    lineOf entries call.sec.text key =
      (firstMatch key (place entries call).1).or
        (firstMatch key ((place entries call).2.1.toList ++ (place entries call).2.2)) ∧
    lineOf (apply entries call) call.sec.text key =
      (firstMatch key (place entries call).1).or
        (firstMatch key (call.newLine.toList ++ (place entries call).2.2)) := by
  cases h : findSection call.sec.text entries with
  | none =>
    have hmem := findSection_eq_none_iff.mp h
    obtain ⟨hplace, ⟨hnone, happly⟩ | ⟨line, hline, happly⟩⟩ := apply_of_not_found h
    · rw [happly, hplace, hnone, lineOf_eq_none hmem]
      exact ⟨rfl, rfl⟩
    · rw [happly, hplace, Option.mem_def.mp hline, lineOf_eq_none hmem, lineOf_append_cons]
      · exact ⟨rfl, rfl⟩
      · rw [List.mem_append, List.mem_singleton]
        exact fun h => h.elim hmem fun h => by cases h
  | some p =>
    obtain ⟨hmem, hentries, happly, hskip, -⟩ := apply_of_found h
    have happend := firstMatch_append key fun e he => (hskip e he).1
    constructor
    · conv_lhs => rw [hentries]
      rw [lineOf_append_cons hmem, happend]
    · rw [happly, lineOf_append_cons hmem, happend]

end Calls

end IniFile

end UtilityFramework
