import UtilityFramework.Parsers.ReadSources

/-!
# The two ways to parse

`parse(data, size)` writes the data into the buffer of a parser, which its nested parsers share;
`parse(buffer)` gives the parser itself another buffer, and its nested parsers keep the old one.
After it, what is read from a field of the parser, or from an element of an array of records,
comes from the new buffer, but what is read through a nested parser still comes from the old one,
and so does what `read_at` reads.

`ParserTree.readsAlike_iff` says for each read, at the end of any chain of `read_complex` and
`read_complex_at`, when the two ways to parse the same bytes lead to the same data.
-/

namespace UtilityFramework

open Bytes BinaryMetadata

/-! ### Parsing -/

namespace ParserTree

/-- `parse(data, size)`: its result, and the buffers then. -/
def parseData (heap : List (List UInt8)) (t : ParserTree) (data : List UInt8) :
    Option (Bool × List (List UInt8)) := do
  let buf ← heap[t.buffer]?
  return (decide (t.metadata.size = data.length ∧ data.length = buf.length),
    heap.set t.buffer (PoolState.parsed t data buf))

/-- `parse(buffer)`: its result, and the parser then. -/
def parseBuffer (heap : List (List UInt8)) (t : ParserTree) (buffer : ℕ) :
    Option (Bool × ParserTree) := do
  let content ← heap[buffer]?
  if t.metadata.size ≠ content.length then return (false, t)
  else return (true, t.setBuffer buffer [])

/-- A parser made by `create_parser`: its record is its whole buffer. -/
structure TopLevel (heap : List (List UInt8)) (t : ParserTree) : Prop where
  offset : t.offset = 0
  buffer : ∃ buf, heap[t.buffer]? = some buf ∧ buf.length = t.metadata.size

end ParserTree

/-! ### Chains of reads -/

/-- The parser that a read gives. -/
def ReadResult.parser? : ReadResult → Option ParserTree
  | parser t => some t
  | _ => none

namespace ParserTree

/-- The parser at the end of a chain of reads that give parsers. -/
def follow (p : Platform) (heap : List (List UInt8)) :
    List (FieldRef × FieldRead) → ParserTree → Option ParserTree
  | [], t => some t
  | (ref, call) :: chain, t =>
    ((call.run p heap t ref).bind ReadResult.parser?).bind (follow p heap chain)

/-- The data of a read from the parser at the end of a chain. -/
def dataAt (p : Platform) (heap : List (List UInt8)) (t : ParserTree)
    (chain : List (FieldRef × FieldRead)) (ref : FieldRef) (call : FieldRead) :
    Option (Option ReadResult) :=
  (t.follow p heap chain).map fun sub => (call.run p heap sub ref).map ReadResult.data

end ParserTree

/-! ### The specification -/

/-- The read goes through a nested parser that was there before: its chain begins with
`read_complex`, or it is `read_at` from the parser itself. -/
def FieldRead.goesThrough : List (FieldRef × FieldRead) → FieldRead → Prop
  | (_, .complex) :: _, _ => True
  | [], .element _ _ => True
  | _, _ => False

namespace ParserTree

/-- The same data is read after `parse(buffer)`, which gave the parser `t'`, and after
`parse(data, size)`, which left the buffers `heap'`. -/
def ReadsAlike (p : Platform) (heap heap' : List (List UInt8)) (t t' : ParserTree)
    (chain : List (FieldRef × FieldRead)) (ref : FieldRef) (call : FieldRead) : Prop :=
  t'.dataAt p heap chain ref call = t.dataAt p heap' chain ref call

/-- If the read goes through a nested parser, and takes bytes from the buffer that the parser had
before, it makes the same of the bytes there and of those that are parsed. -/
def Unaffected (p : Platform) (heap : List (List UInt8)) (t : ParserTree) (parsed : List UInt8)
    (chain : List (FieldRef × FieldRead)) (ref : FieldRef) (call : FieldRead) : Prop :=
  FieldRead.goesThrough chain call → ∀ sub, t.follow p heap chain = some sub →
    ∀ w, call.takes p sub ref = some w → w.buffer = t.buffer →
      w.size + w.position ≤ parsed.length →
      w.decode (slice (heap.getD t.buffer []) w.position w.size) =
        w.decode (slice parsed w.position w.size)

/-! ### Chains -/

variable {p : Platform} {heap heap' : List (List UInt8)} {t t' : ParserTree} {ref : FieldRef}
  {call : FieldRead}

theorem parser_ofBytes (x : Option (List UInt8)) : (ReadResult.ofBytes x).parser? = none := by
  cases x <;> rfl

theorem parser_ofItem (x : Option EnumItem) : (ReadResult.ofItem x).parser? = none := by
  cases x <;> rfl

theorem parser_element (x : Option (Option (List UInt8))) :
    (x.map ReadResult.ofBytes).bind ReadResult.parser? = none := by
  cases x with
  | none => rfl
  | some x => exact parser_ofBytes x

theorem parser_ofElement (x : Option (Option (BinaryMetadata × ℕ))) (b : ℕ) :
    (x.map (ReadResult.ofElement b)).bind ReadResult.parser? = (x.bind id).map (newParser b) := by
  cases x with
  | none => rfl
  | some e => cases e <;> rfl

theorem parser_attributes (node : Node) (m : BinaryMetadata) :
    (ReadResult.ofElements node m).parser? = none := by
  rw [ReadResult.ofElements]
  split <;> rfl

theorem parser_arrayAttributes (p : Platform) (heap : List (List UInt8)) (t : ParserTree)
    (ref : FieldRef) :
    (FieldRead.arrayAttributes.run p heap t ref).bind ReadResult.parser? = none := by
  cases ref with
  | named name =>
    rw [FieldRead.run, FieldRead.named, arrayAttributesNamed]
    cases t.metadata.queryNode name with
    | none => rfl
    | some node =>
      simp only
      split_ifs
      · rfl
      · cases node.nested with
        | none => rfl
        | some m => exact parser_attributes node m
  | indexed index =>
    rw [FieldRead.run, FieldRead.indexed, arrayAttributesIndexed]
    cases t.metadata.queryNodeByIndex index with
    | none => rfl
    | some node =>
      simp only
      split_ifs
      · rfl
      · cases t.entry node.name with
        | none => rfl
        | some e =>
          cases e with
          | none => rfl
          | some sub => exact parser_attributes node sub.metadata

/-- Only `read_complex` and `read_complex_at` give parsers. -/
theorem parser_eq_none (p : Platform) (heap : List (List UInt8)) (t : ParserTree) (ref : FieldRef)
    (hcomplex : call ≠ .complex) (hat : ∀ arrayIndex, call ≠ .complexAt arrayIndex) :
    (call.run p heap t ref).bind ReadResult.parser? = none := by
  cases call with
  | simple | string => cases ref <;> exact parser_ofBytes _
  | enum => cases ref <;> exact parser_ofItem _
  | element => cases ref <;> exact parser_element _
  | complex => exact absurd rfl hcomplex
  | complexAt arrayIndex => exact absurd rfl (hat arrayIndex)
  | arrayAttributes => exact parser_arrayAttributes p heap t ref

/-- Parsers do not depend on the buffers. -/
theorem parser_run (heap heap' : List (List UInt8)) (t : ParserTree) (ref : FieldRef)
    (call : FieldRead) : (call.run p heap t ref).bind ReadResult.parser? =
      (call.run p heap' t ref).bind ReadResult.parser? := by
  cases call with
  | complex | complexAt => cases ref <;> rfl
  | _ => rw [parser_eq_none p heap t ref (by simp) (by simp),
      parser_eq_none p heap' t ref (by simp) (by simp)]

theorem follow_eq (heap heap' : List (List UInt8)) (chain : List (FieldRef × FieldRead))
    (t : ParserTree) : t.follow p heap chain = t.follow p heap' chain := by
  induction chain generalizing t with
  | nil => rfl
  | cons step chain ih =>
    obtain ⟨ref, call⟩ := step
    rw [follow, follow, parser_run heap heap']
    exact Option.bind_congr fun sub _ => ih sub

/-- A new parser has the same shape over every buffer. -/
theorem sameShape_over (place : BinaryMetadata × ℕ) (b c : ℕ) :
    (newParser b place).SameShape (newParser c place) where
  metadata := (metadata_create ..).trans (metadata_create ..).symm
  offset := (offset_create ..).trans (offset_create ..).symm
  entries name := by
    obtain ⟨e, he⟩ := exists_entry_create place.1 place.2 name
    rw [newParser, newParser, he, he, Option.map_map, Option.map_map]
    refine congrFun (congrArg Option.map (funext fun e' => ?_)) e
    cases e' with
    | none => rfl
    | some q =>
      exact congrArg some (Prod.ext ((metadata_create ..).trans (metadata_create ..).symm)
        ((offset_create ..).trans (offset_create ..).symm))

/-- `read_complex` of a new parser. -/
theorem exists_readComplex_over (place : BinaryMetadata × ℕ) (name : String) :
    ∃ next : Option (BinaryMetadata × ℕ), ∀ b,
      ((newParser b place).readComplexNamed name).bind ReadResult.parser? =
        next.map (newParser b) := by
  obtain ⟨e, he⟩ := exists_entry_create place.1 place.2 name
  refine ⟨e.bind id, fun b => ?_⟩
  rw [readComplexNamed.eq_def, newParser, he]
  cases e with
  | none => rfl
  | some e' => cases e' <;> rfl

/-- A read that gives a parser, from a new parser. -/
theorem exists_parser_over (p : Platform) (place : BinaryMetadata × ℕ) (ref : FieldRef)
    (call : FieldRead) :
    ∃ next : Option (BinaryMetadata × ℕ), ∀ heap b,
      (call.run p heap (newParser b place) ref).bind ReadResult.parser? =
        next.map (newParser b) := by
  have hmeta (b : ℕ) : (newParser b place).metadata = place.1 := metadata_create ..
  have hoff (b : ℕ) : (newParser b place).offset = place.2 := offset_create ..
  have hbuf (b : ℕ) : (newParser b place).buffer = b := buffer_create ..
  cases call with
  | complex =>
    cases ref with
    | named name =>
      obtain ⟨next, h⟩ := exists_readComplex_over place name
      exact ⟨next, fun _ b => h b⟩
    | indexed index =>
      cases hnode : place.1.queryNodeByIndex index with
      | none =>
        refine ⟨none, fun heap b => ?_⟩
        simp only [FieldRead.run, FieldRead.indexed, readComplexIndexed, hmeta, hnode]
        split_ifs <;> rfl
      | some node =>
        obtain ⟨next, h⟩ := exists_readComplex_over place node.name
        refine ⟨next, fun heap b => ?_⟩
        have hlt := (List.getElem?_eq_some_iff.mp hnode).1
        simp only [FieldRead.run, FieldRead.indexed, readComplexIndexed, hmeta, hnode,
          if_neg (not_le.mpr hlt)]
        exact h b
  | complexAt arrayIndex =>
    cases ref with
    | named name =>
      refine ⟨((newParser 0 place).elementAtNamed name arrayIndex).bind id, fun heap b => ?_⟩
      rw [← parser_ofElement, FieldRead.run, FieldRead.named, hbuf, elementAtNamed, elementAtNamed,
        hmeta, hmeta]
    | indexed index =>
      refine ⟨(PoolState.elementAt (newParser 0 place) index arrayIndex).bind id, fun heap b => ?_⟩
      rw [← parser_ofElement, FieldRead.run, FieldRead.indexed, hbuf, PoolState.elementAt,
        PoolState.elementAt, hmeta, hmeta, hoff, hoff]
  | _ => exact ⟨none, fun heap b => parser_eq_none p heap _ ref (by simp) (by simp)⟩

/-- A chain from a new parser ends in a new parser over the same buffer, at a place that does not
depend on it. -/
theorem exists_follow_over (p : Platform) (chain : List (FieldRef × FieldRead))
    (place : BinaryMetadata × ℕ) :
    ∃ place' : Option (BinaryMetadata × ℕ), ∀ heap b,
      (newParser b place).follow p heap chain = place'.map (newParser b) := by
  induction chain generalizing place with
  | nil => exact ⟨some place, fun _ _ => rfl⟩
  | cons step chain ih =>
    obtain ⟨ref, call⟩ := step
    obtain ⟨next, hnext⟩ := exists_parser_over p place ref call
    cases next with
    | none => exact ⟨none, fun heap b => by rw [follow, hnext]; rfl⟩
    | some place' =>
      obtain ⟨place'', h⟩ := ih place'
      refine ⟨place'', fun heap b => ?_⟩
      rw [follow, hnext]
      exact h heap b

/-! ### The two parses -/

/-- The nested parsers of a new parser have its buffer. -/
theorem exists_nestedParser_over (place : BinaryMetadata × ℕ) (ref : FieldRef) :
    ∃ next : Option (BinaryMetadata × ℕ), ∀ b,
      (newParser b place).nestedParser ref = next.map (newParser b) := by
  have hentry (name : String) : ∃ next : Option (BinaryMetadata × ℕ), ∀ b,
      ((newParser b place).entry name).bind id = next.map (newParser b) := by
    obtain ⟨e, he⟩ := exists_entry_create place.1 place.2 name
    refine ⟨e.bind id, fun b => ?_⟩
    rw [newParser, he]
    cases e with
    | none => rfl
    | some e' => rfl
  cases ref with
  | named name => exact hentry name
  | indexed index =>
    have hmeta (b : ℕ) : (newParser b place).metadata = place.1 := metadata_create ..
    cases hnode : place.1.queryNodeByIndex index with
    | none => exact ⟨none, fun b => by rw [nestedParser, hmeta, hnode]; rfl⟩
    | some node =>
      obtain ⟨next, h⟩ := hentry node.name
      exact ⟨next, fun b => by rw [nestedParser, hmeta, hnode, Option.bind_some, h]⟩

/-- New parsers whose buffers have the same content lead to the same data. -/
theorem dataAt_over {b c : ℕ} (place : BinaryMetadata × ℕ) (chain : List (FieldRef × FieldRead))
    (hcontent : heap[c]? = heap'[b]?) :
    (newParser c place).dataAt p heap chain ref call =
      (newParser b place).dataAt p heap' chain ref call := by
  obtain ⟨place', hfollow⟩ := exists_follow_over p chain place
  rw [dataAt, dataAt, hfollow, hfollow]
  cases place' with
  | none => rfl
  | some place' =>
    refine congrArg some ((sameShape_over place' b c).run_eq ?_)
    cases call with
    | element n arrayIndex =>
      obtain ⟨next, hnext⟩ := exists_nestedParser_over place' ref
      rw [source, source, hnext, hnext]
      cases next with
      | none => rfl
      | some place'' =>
        have hbuf (b : ℕ) : (newParser b place'').buffer = b := buffer_create ..
        simp only [Option.map_some, Option.bind_some, hbuf, hcontent]
    | _ =>
      have hbuf (b : ℕ) : (newParser b place').buffer = b := buffer_create ..
      simp only [source, Option.bind_some, hbuf, hcontent]

/-- `parse(buffer)` gives the parser another buffer. -/
theorem sameShape_setBuffer (b : ℕ) (t : ParserTree) : t.SameShape (t.setBuffer b []) := by
  cases t
  exact ⟨rfl, rfl, fun _ => rfl⟩

/-- `read_complex_at` makes a parser over the buffer that `parse(buffer)` has given. -/
theorem parser_complexAt (p : Platform) (t : ParserTree) (ref : FieldRef) (arrayIndex : ℕ) :
    ∃ place : Option (BinaryMetadata × ℕ), ∀ heap b,
      ((FieldRead.complexAt arrayIndex).run p heap (t.setBuffer b []) ref).bind
        ReadResult.parser? = place.map (newParser b) := by
  obtain ⟨m, _, off, l⟩ := t
  cases ref with
  | named name =>
    exact ⟨((mk m 0 off l).elementAtNamed name arrayIndex).bind id, fun _ b =>
      parser_ofElement _ b⟩
  | indexed index =>
    exact ⟨(PoolState.elementAt (mk m 0 off l) index arrayIndex).bind id, fun _ b =>
      parser_ofElement _ b⟩

theorem setBuffer_self (t : ParserTree) : t.setBuffer t.buffer [] = t := by
  cases t
  rfl

/-- `parse(data, size)` of a record fills the buffer of the parser. -/
theorem TopLevel.parseData_eq {old data : List UInt8} (htop : t.TopLevel heap)
    (hold : heap[t.buffer]? = some old) (hsize : data.length = t.metadata.size) :
    t.parseData heap data = some (true, heap.set t.buffer data) := by
  obtain ⟨buf, hbuf, hlen⟩ := htop.buffer
  obtain rfl : buf = old := Option.some.inj (hbuf.symm.trans hold)
  have hall : PoolState.parsed t data buf = data := by
    rw [PoolState.parsed, if_neg (by omega), htop.offset, safeWrite, if_pos (by omega),
      Option.getD_some, blit_zero, List.drop_eq_nil_of_le (by omega), List.append_nil]
  rw [parseData, hold, Option.bind_eq_bind, Option.bind_some, hall,
    decide_eq_true ⟨hsize.symm, hsize.trans hlen.symm⟩]
  rfl

/-- What was there before the parse is read in the old buffer on one side, and in the new one on
the other. -/
theorem readsAlike_iff_of_goesThrough {old parsed : List UInt8}
    {chain : List (FieldRef × FieldRead)} (hthrough : FieldRead.goesThrough chain call)
    (hold : heap[t.buffer]? = some old) (hlen : parsed.length = old.length)
    (hsame : t'.dataAt p heap chain ref call = t.dataAt p heap chain ref call) :
    ReadsAlike p heap (heap.set t.buffer parsed) t t' chain ref call ↔
      Unaffected p heap t parsed chain ref call := by
  rw [ReadsAlike, Unaffected, hsame, dataAt, dataAt, follow_eq (heap.set t.buffer parsed) heap]
  cases t.follow p heap chain with
  | none => exact iff_of_true rfl fun _ sub hsub => by cases hsub
  | some sub =>
    rw [Option.map_some, Option.map_some, Option.some_inj, run_set_iff p sub ref call hold hlen]
    exact ⟨fun h _ sub' hsub' => Option.some.inj hsub' ▸ h, fun h => h hthrough sub rfl⟩

/-- **When the two ways to parse agree**, for one read. -/
theorem readsAlike_iff (p : Platform) {b : ℕ} {parsed : List UInt8} (htop : t.TopLevel heap)
    (hb : heap[b]? = some parsed) (hparse : t.parseBuffer heap b = some (true, t')) :
    ∃ heap', t.parseData heap parsed = some (true, heap') ∧
      ∀ chain ref call, ReadsAlike p heap heap' t t' chain ref call ↔
        Unaffected p heap t parsed chain ref call := by
  obtain ⟨old, hold, hlen⟩ := htop.buffer
  obtain ⟨hsize, rfl⟩ : t.metadata.size = parsed.length ∧ t.setBuffer b [] = t' := by
    rw [parseBuffer, hb, Option.bind_eq_bind, Option.bind_some] at hparse
    split_ifs at hparse with hne
    · cases hparse
    · exact ⟨not_not.mp hne, (Prod.mk.inj (Option.some.inj hparse)).2⟩
  have hdata := htop.parseData_eq hold hsize.symm
  have hcontent : heap[b]? = (heap.set t.buffer parsed)[t.buffer]? := by
    rw [hb, List.getElem?_set_self (List.getElem?_eq_some_iff.mp hold).1]
  refine ⟨_, hdata, fun chain ref call => ?_⟩
  have hlen' : parsed.length = old.length := hsize.symm.trans hlen.symm
  cases chain with
  | nil =>
    cases call with
    | element n arrayIndex =>
      refine readsAlike_iff_of_goesThrough trivial hold hlen' (congrArg some ?_)
      refine (sameShape_setBuffer b t).run_eq ?_
      cases t
      cases ref <;> rfl
    | _ =>
      refine iff_of_true (congrArg some ((sameShape_setBuffer b t).run_eq ?_)) False.elim
      cases t
      exact hcontent
  | cons step chain =>
    obtain ⟨ref', call'⟩ := step
    cases call' with
    | complex =>
      refine readsAlike_iff_of_goesThrough trivial hold hlen' ?_
      cases t
      cases ref' <;> rfl
    | complexAt arrayIndex =>
      obtain ⟨place, hplace⟩ := parser_complexAt p t ref' arrayIndex
      have hself := hplace (heap.set t.buffer parsed) t.buffer
      rw [setBuffer_self] at hself
      refine iff_of_true ?_ False.elim
      rw [ReadsAlike, dataAt, dataAt, follow, follow, hplace, hself]
      cases place with
      | none => rfl
      | some place => exact dataAt_over place chain hcontent
    | _ =>
      refine iff_of_true ?_ False.elim
      rw [ReadsAlike, dataAt, dataAt, follow, follow,
        parser_eq_none p heap _ ref' (by simp) (by simp),
        parser_eq_none p (heap.set t.buffer parsed) t ref' (by simp) (by simp)]
      rfl

/-! ### A byte in a record -/

/-- A byte, and a byte in a record behind it. -/
def byteBeforeRecord : BinaryMetadata :=
  ((empty false).put "a" 1 .uint8 .reset).nestMetadata "c" ((empty false).put "x" 1 .uint8 .reset)

/-- The byte of the record itself. -/
theorem readsAlike_iff_byte :
    ∃ t', (create 0 byteBeforeRecord 0).parseBuffer [[1, 2], [3, 4]] 1 = some (true, t') ∧
      ∃ heap', (create 0 byteBeforeRecord 0).parseData [[1, 2], [3, 4]] [3, 4] =
          some (true, heap') ∧
        ∀ chain ref call,
          ReadsAlike ⟨fun _ _ => 0⟩ [[1, 2], [3, 4]] heap' (create 0 byteBeforeRecord 0) t' chain
              ref call ↔
            Unaffected ⟨fun _ _ => 0⟩ [[1, 2], [3, 4]] (create 0 byteBeforeRecord 0) [3, 4] chain
              ref call :=
  ⟨_, rfl, readsAlike_iff ⟨fun _ _ => 0⟩ (b := 1) ⟨rfl, _, rfl, rfl⟩ rfl rfl⟩

/-- The byte of the nested record still comes from the old buffer. -/
theorem not_readsAlike :
    ∃ t' heap', (create 0 byteBeforeRecord 0).TopLevel [[1, 2], [3, 4]] ∧
      (create 0 byteBeforeRecord 0).parseBuffer [[1, 2], [3, 4]] 1 = some (true, t') ∧
      (create 0 byteBeforeRecord 0).parseData [[1, 2], [3, 4]] [3, 4] = some (true, heap') ∧
      ¬ ReadsAlike ⟨fun _ _ => 0⟩ [[1, 2], [3, 4]] heap' (create 0 byteBeforeRecord 0) t'
        [(.named "c", .complex)] (.named "x") (.simple 1) := by
  refine ⟨_, _, ⟨rfl, _, rfl, rfl⟩, rfl, rfl, fun h => ?_⟩
  have hdata : some (some (ReadResult.bytes [2])) = some (some (ReadResult.bytes [4])) := h
  have hbytes : [(2 : UInt8)] = [4] :=
    ReadResult.bytes.inj (Option.some.inj (Option.some.inj hdata))
  cases hbytes

end ParserTree

end UtilityFramework
