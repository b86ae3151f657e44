import UtilityFramework.Lib.Decimal
import UtilityFramework.Lib.Splitting

/-!
# Splitting strings

`split_string` and `split_string_with_quote`. A string is a list of characters; no sum of two
positions in it exceeds `size_t`. The loops are given an amount of fuel, and are `none` if it
does not suffice, or where `substr` throws.

`split_string` returns the pieces of the string that are not empty (`splitString_spec`).

`split_string_with_quote` also returns empty pieces, and takes what is between quotes as one
token. A delimiter at the very end ends the loop, however: the empty token behind it is lost, and
a list of tokens is read back precisely if it is not the last of several that is empty
(`splitStringWithQuote_join_iff`).
-/

namespace UtilityFramework

open Splitting

namespace SplitString

/-- `std::string::substr`; `none` if it throws. -/
def substr (s : List Char) (pos n : ℕ) : Option (List Char) :=
  if s.length < pos then none else some ((s.drop pos).take n)

/-! ### `split_string` -/

/-- The loop of `split_string`. -/
def splitLoop (str delim : List Char) : ℕ → ℕ → List (List Char) → Option (List (List Char))
  | 0, _, _ => none
  | fuel + 1, prev, tokens =>
    let pos := (find delim str prev).getD str.length
    (substr str prev (pos - prev)).bind fun token =>
      let tokens := if token.isEmpty = false then tokens ++ [token] else tokens
      let prev := pos + delim.length
      if pos < str.length ∧ prev < str.length then splitLoop str delim fuel prev tokens
      else some tokens

def splitString (fuel : ℕ) (str delim : List Char) : Option (List (List Char)) :=
  splitLoop str delim fuel 0 []

/-- The pieces that are not empty. -/
def nonEmpty (pieces : List (List Char)) : List (List Char) :=
  pieces.filter fun piece => !piece.isEmpty

variable {delim s : List Char} {pieces tokens : List (List Char)} {fuel : ℕ}

theorem nonEmpty_cons (p : List Char) (ps : List (List Char)) :
    tokens ++ nonEmpty (p :: ps) =
      (if p.isEmpty = false then tokens ++ [p] else tokens) ++ nonEmpty ps := by
  rw [nonEmpty, List.filter_cons, nonEmpty]
  cases p.isEmpty <;> simp

theorem substr_append (pre s : List Char) (n : ℕ) :
    substr (pre ++ s) pre.length n = some (s.take n) := by
  rw [substr, List.length_append, if_neg (by omega), List.drop_left]

/-- The loop behind what has been read, by induction on the pieces of the rest. -/
theorem splitLoop_append (hdelim : delim ≠ []) (h : Pieces delim s pieces) (pre : List Char)
    (hfuel : s.length < fuel) :
    splitLoop (pre ++ s) delim fuel pre.length tokens = some (tokens ++ nonEmpty pieces) := by
  have hpos : 0 < delim.length := List.length_pos_iff.mpr hdelim
  induction h generalizing pre tokens fuel with
  | @last s hword =>
    obtain ⟨fuel, rfl⟩ := Nat.exists_eq_succ_of_ne_zero (Nat.ne_of_gt (Nat.zero_lt_of_lt hfuel))
    have hfind := find_append pre delim s 0
    rw [Nat.add_zero, find_eq_none_of_not_infix hword, Option.map_none] at hfind
    rw [splitLoop, hfind, Option.getD_none]
    dsimp only
    rw [substr_append, List.length_append, Nat.add_sub_cancel_left, List.take_length,
      Option.bind_some, if_neg (fun h => Nat.lt_irrefl _ h.1), nonEmpty_cons]
    rw [nonEmpty, List.filter_nil, List.append_nil]
  | @cons p rest ps hfirst hrest ih =>
    obtain ⟨fuel, rfl⟩ := Nat.exists_eq_succ_of_ne_zero (Nat.ne_of_gt (Nat.zero_lt_of_lt hfuel))
    have hfind := find_append pre delim (p ++ delim ++ rest) 0
    rw [Nat.add_zero, find_pieces hfirst, Option.map_some] at hfind
    have htake : (p ++ delim ++ rest).take p.length = p := by
      rw [List.append_assoc, List.take_left]
    have hlen : (pre ++ (p ++ delim ++ rest)).length =
        pre.length + p.length + delim.length + rest.length := by
      rw [List.length_append, List.length_append, List.length_append]
      omega
    rw [splitLoop, hfind, Option.getD_some]
    dsimp only
    rw [substr_append, Nat.add_sub_cancel_left, htake, Option.bind_some, nonEmpty_cons, hlen]
    by_cases hnil : rest = []
    · -- nothing comes behind a delimiter at the end, and the loop ends there
      subst hnil
      obtain rfl := hrest.of_nil hdelim
      rw [if_neg (fun h => Nat.lt_irrefl _ h.2)]
      exact congrArg some (List.append_nil _).symm
    · have hrestpos : 0 < rest.length := List.length_pos_iff.mpr hnil
      have hprev : pre.length + p.length + delim.length = (pre ++ p ++ delim).length := by
        simp only [List.length_append]
      have hstr : pre ++ (p ++ delim ++ rest) = pre ++ p ++ delim ++ rest := by
        simp only [List.append_assoc]
      rw [if_pos ⟨by omega, by omega⟩, hprev, hstr]
      refine ih _ ?_
      simp only [List.length_append] at hfuel
      omega

/-- **What `split_string` returns.** The loop ends, with the pieces of the leftmost
decomposition that are not empty; in particular it undoes a join. -/
theorem splitString_spec (str : List Char) {delim : List Char} (hdelim : delim ≠ []) :
    (∃ pieces, Pieces delim str pieces ∧
      (∀ pieces', Pieces delim str pieces' → pieces' = pieces) ∧
      ∀ fuel, str.length < fuel → splitString fuel str delim = some (nonEmpty pieces)) ∧
    ∀ (d : Char) (tokens : List (List Char)), (∀ t ∈ tokens, t ≠ [] ∧ d ∉ t) →
      ∀ fuel, (List.intercalate [d] tokens).length < fuel →
        splitString fuel (List.intercalate [d] tokens) [d] = some tokens := by
  constructor
  · obtain ⟨pieces, hpieces⟩ := exists_pieces hdelim str
    exact ⟨pieces, hpieces, fun _ h => h.unique hpieces,
      fun fuel hfuel => splitLoop_append hdelim hpieces [] hfuel⟩
  · intro d tokens htokens fuel hfuel
    cases tokens with
    | nil =>
      have hpieces : Pieces [d] [] [[]] :=
        .last fun h => List.cons_ne_nil d [] (List.infix_nil.mp h)
      exact splitLoop_append (List.cons_ne_nil d []) hpieces [] hfuel
    | cons t tokens =>
      have hpieces := pieces_intercalate (List.cons_ne_nil t tokens) fun u hu => (htokens u hu).2
      have hkept : nonEmpty (t :: tokens) = t :: tokens := by
        refine List.filter_eq_self.mpr fun u hu => ?_
        rw [Bool.not_eq_true', List.isEmpty_eq_false_iff]
        exact (htokens u hu).1
      rw [splitString, ← List.nil_append (List.intercalate _ _), ← List.length_nil (α := Char),
        splitLoop_append (List.cons_ne_nil d []) hpieces [] hfuel, List.nil_append, hkept]

theorem splitString_spec_overlapping :
    splitString 6 "aaaba".toList "aa".toList = some ["aba".toList] := by
  obtain ⟨pieces, hpieces, -, hsplit⟩ :=
    (splitString_spec "aaaba".toList (show "aa".toList ≠ [] by decide)).1
  rw [hsplit 6 (by decide)]
  have hexpected : Pieces "aa".toList "aaaba".toList [[], "aba".toList] :=
    .cons (p := []) (by decide) (.last (by decide))
  rw [hpieces.unique hexpected]
  decide

theorem map_toList_map_ofList (l : List (List Char)) :
    (l.map String.ofList).map String.toList = l := by
  rw [List.map_map]
  exact List.map_id'' (fun _ => String.toList_ofList) l

/-- At a single character, the loop is `Decimal.split`. -/
theorem splitString_eq_split (c : Char) (text : String) (hfuel : text.toList.length < fuel) :
    splitString fuel text.toList [c] = some ((Decimal.split c text).map String.toList) := by
  obtain ⟨pieces, hpieces⟩ := exists_pieces (List.cons_ne_nil c []) text.toList
  rw [Decimal.split, hpieces.splitOn_eq, map_toList_map_ofList]
  exact splitLoop_append (List.cons_ne_nil c []) hpieces [] hfuel

/-! ### `split_string_with_quote` -/

/-- Where the token at `prev` starts and ends, and how many quotes come behind it (`factor`);
`none` if it has no closing quote. -/
def quotedToken (str delim : List Char) (prev : ℕ) : Option (ℕ × ℕ × ℕ) :=
  -- behind the last character, `str[prev]` is the terminating zero
  if str[prev]? = some '"' then
    (find ['"'] str (prev + 1)).map fun pos => (prev + 1, pos, 1)
  else some (prev, (find delim str prev).getD str.length, 0)

/-- The loop of `split_string_with_quote`. -/
def splitQuoteLoop (str delim : List Char) :
    ℕ → ℕ → List (List Char) → Option (List (List Char))
  | 0, _, _ => none
  | fuel + 1, prev, tokens =>
    match quotedToken str delim prev with
    | none => some tokens
    | some (prev, pos, factor) =>
      (substr str prev (pos - prev)).bind fun token =>
        let prev := pos + delim.length + factor
        if pos < str.length ∧ prev < str.length then
          splitQuoteLoop str delim fuel prev (tokens ++ [token])
        else some (tokens ++ [token])

def splitStringWithQuote (fuel : ℕ) (str delim : List Char) : Option (List (List Char)) :=
  splitQuoteLoop str delim fuel 0 []

/-- A token as it is written: in quotes if it contains the delimiter. -/
def quoted (d : Char) (t : List Char) : List Char := if d ∈ t then '"' :: (t ++ ['"']) else t

/-- The tokens, joined by the delimiter. -/
def joinQuoted (d : Char) (tokens : List (List Char)) : List Char :=
  List.intercalate [d] (tokens.map (quoted d))

/-- The tokens that are read back: an empty one behind the last delimiter is not. -/
def readBack : List (List Char) → List (List Char)
  | [] => []
  | t :: tokens => if tokens = [[]] then [t] else t :: readBack tokens

section Quoted

variable {d : Char} {t pre : List Char}

theorem quoted_eq_nil_iff : quoted d t = [] ↔ t = [] := by
  rw [quoted]
  by_cases hd : d ∈ t
  · rw [if_pos hd]
    exact iff_of_false (List.cons_ne_nil _ _) (List.ne_nil_of_mem hd)
  · rw [if_neg hd]

theorem joinQuoted_cons_cons (d : Char) (t u : List Char) (tokens : List (List Char)) :
    joinQuoted d (t :: u :: tokens) = quoted d t ++ d :: joinQuoted d (u :: tokens) := by
  rw [joinQuoted, List.map_cons, List.map_cons, List.intercalate_cons_cons, List.append_assoc]
  rfl

theorem joinQuoted_eq_nil_iff {u : List Char} {tokens : List (List Char)} :
    joinQuoted d (u :: tokens) = [] ↔ u :: tokens = [[]] := by
  cases tokens with
  | nil =>
    rw [joinQuoted, List.map_singleton, List.intercalate_singleton, quoted_eq_nil_iff,
      List.cons.injEq, and_iff_left rfl]
  | cons v tokens =>
    refine iff_of_false ?_ (by simp)
    rw [joinQuoted_cons_cons]
    exact List.append_ne_nil_of_right_ne_nil _ (List.cons_ne_nil _ _)

/-- A token without quotes is read as it is written, if the string ends behind it or a
delimiter comes next. -/
theorem quotedToken_quoted (hquote : d ≠ '"') (ht : '"' ∉ t) (pre tail : List Char)
    (htail : tail = [] ∨ ∃ rest, tail = d :: rest) :
    ∃ prev pos factor,
      quotedToken (pre ++ (quoted d t ++ tail)) [d] pre.length = some (prev, pos, factor) ∧
      substr (pre ++ (quoted d t ++ tail)) prev (pos - prev) = some t ∧
      pos + factor = pre.length + (quoted d t).length ∧
      (factor = 0 ∨ factor = 1) := by
  by_cases hd : d ∈ t
  · -- from the opening quote to the closing one
    have hstr : pre ++ (quoted d t ++ tail) = pre ++ ['"'] ++ (t ++ '"' :: tail) := by
      rw [quoted, if_pos hd]
      simp only [List.append_assoc, List.cons_append, List.nil_append]
    have hlen : (pre ++ ['"']).length = pre.length + 1 := List.length_append
    have hfind := find_append (pre ++ ['"']) ['"'] (t ++ '"' :: tail) 0
    rw [find_singleton_of_not_mem ht, Option.map_some, Nat.add_zero, hlen] at hfind
    have hhead : (pre ++ ['"'] ++ (t ++ '"' :: tail))[pre.length]? = some '"' := by
      rw [List.append_assoc, List.getElem?_append_right (Nat.le_refl _), Nat.sub_self]
      rfl
    refine ⟨pre.length + 1, pre.length + 1 + t.length, 1, ?_, ?_, ?_, .inr rfl⟩
    · rw [hstr, quotedToken, if_pos hhead, hfind, Option.map_some]
    · rw [hstr, ← hlen, substr_append, Nat.add_sub_cancel_left, List.take_left]
    · rw [quoted, if_pos hd, List.length_cons, List.length_append, List.length_singleton]
      omega
  · have hstr : pre ++ (quoted d t ++ tail) = pre ++ (t ++ tail) := by rw [quoted, if_neg hd]
    have hhead : (pre ++ (t ++ tail))[pre.length]? ≠ some '"' := by
      rw [List.getElem?_append_right (Nat.le_refl _), Nat.sub_self]
      intro h
      have hmem := List.mem_of_getElem? h
      cases t with
      | nil =>
        obtain rfl | ⟨rest, rfl⟩ := htail
        · cases h
        · exact hquote (Option.some.inj h)
      | cons c t => exact ht (List.mem_cons.mpr (.inl (Option.some.inj h).symm))
    have hfind : (find [d] (pre ++ (t ++ tail)) pre.length).getD (pre ++ (t ++ tail)).length =
        pre.length + t.length := by
      have happend := find_append pre [d] (t ++ tail) 0
      rw [Nat.add_zero] at happend
      obtain rfl | ⟨rest, rfl⟩ := htail
      · rw [List.append_nil] at happend ⊢
        rw [happend, find_singleton_eq_none hd, Option.map_none, Option.getD_none,
          List.length_append]
      · rw [happend, find_singleton_of_not_mem hd, Option.map_some, Option.getD_some]
    refine ⟨pre.length, pre.length + t.length, 0, ?_, ?_, ?_, .inl rfl⟩
    · rw [hstr, quotedToken, if_neg hhead, hfind]
    · rw [hstr, substr_append, Nat.add_sub_cancel_left, List.take_left]
    · rw [quoted, if_neg hd, Nat.add_zero]

/-- The loop behind what has been read, by induction on the tokens still to come. -/
theorem splitQuoteLoop_append (hquote : d ≠ '"') {tokens : List (List Char)}
    (hne : tokens ≠ []) (htokens : ∀ t ∈ tokens, '"' ∉ t) (pre : List Char)
    {acc : List (List Char)} (hfuel : (joinQuoted d tokens).length < fuel) :
    splitQuoteLoop (pre ++ joinQuoted d tokens) [d] fuel pre.length acc =
      some (acc ++ readBack tokens) := by
  induction tokens generalizing pre acc fuel with
  | nil => exact absurd rfl hne
  | cons t tokens ih =>
    obtain ⟨fuel, rfl⟩ := Nat.exists_eq_succ_of_ne_zero (Nat.ne_of_gt (Nat.zero_lt_of_lt hfuel))
    have ht := htokens t List.mem_cons_self
    cases tokens with
    | nil =>
      have hjoin : joinQuoted d [t] = quoted d t ++ [] := by
        rw [joinQuoted, List.map_singleton, List.intercalate_singleton, List.append_nil]
      obtain ⟨prev, pos, factor, htoken, hsub, hpos, hfactor⟩ :=
        quotedToken_quoted hquote ht pre [] (.inl rfl)
      rw [hjoin, splitQuoteLoop, htoken]
      dsimp only
      rw [hsub, Option.bind_some, List.append_nil, List.length_append, List.length_singleton,
        if_neg (by omega)]
      rfl
    | cons u tokens =>
      obtain ⟨prev, pos, factor, htoken, hsub, hpos, hfactor⟩ :=
        quotedToken_quoted hquote ht pre (d :: joinQuoted d (u :: tokens)) (.inr ⟨_, rfl⟩)
      have hlen : (pre ++ (quoted d t ++ d :: joinQuoted d (u :: tokens))).length =
          pre.length + (quoted d t).length + 1 + (joinQuoted d (u :: tokens)).length := by
        rw [List.length_append, List.length_append, List.length_cons]
        omega
      rw [joinQuoted_cons_cons] at hfuel ⊢
      rw [splitQuoteLoop, htoken]
      dsimp only
      rw [hsub, Option.bind_some, hlen, List.length_singleton, readBack]
      by_cases hnil : u :: tokens = [[]]
      · -- the last token is empty, and the delimiter before it ends the string
        have hempty : (joinQuoted d (u :: tokens)).length = 0 := by
          rw [joinQuoted_eq_nil_iff.mpr hnil, List.length_nil]
        rw [if_pos hnil, if_neg (by omega)]
      · have hrest : 0 < (joinQuoted d (u :: tokens)).length :=
          List.length_pos_iff.mpr (mt joinQuoted_eq_nil_iff.mp hnil)
        have hprev : pos + 1 + factor = (pre ++ quoted d t ++ [d]).length := by
          simp only [List.length_append, List.length_singleton]
          omega
        have hstr : pre ++ (quoted d t ++ d :: joinQuoted d (u :: tokens)) =
            pre ++ quoted d t ++ [d] ++ joinQuoted d (u :: tokens) := by
          simp only [List.append_assoc, List.cons_append, List.nil_append]
        rw [if_neg hnil, if_pos ⟨by omega, by omega⟩, hprev, hstr]
        have hfuel' : (joinQuoted d (u :: tokens)).length < fuel := by
          rw [List.length_append, List.length_cons] at hfuel
          omega
        rw [ih (List.cons_ne_nil u tokens) (fun v hv => htokens v (List.mem_cons_of_mem t hv)) _
          hfuel', List.append_assoc]
        rfl

/-- All tokens are read back, unless the last of several is empty. -/
theorem readBack_eq_self_iff {tokens : List (List Char)} (hne : tokens ≠ []) :
    readBack tokens = tokens ↔ tokens.length = 1 ∨ tokens.getLast hne ≠ [] := by
  induction tokens with
  | nil => exact absurd rfl hne
  | cons t tokens ih =>
    cases tokens with
    | nil => exact iff_of_true rfl (.inl rfl)
    | cons u tokens =>
      have hlen : (t :: u :: tokens).length ≠ 1 := by
        rw [List.length_cons, List.length_cons]
        omega
      rw [readBack, or_iff_right hlen, List.getLast_cons (List.cons_ne_nil u tokens)]
      by_cases hnil : u :: tokens = [[]]
      · obtain ⟨rfl, rfl⟩ := List.cons.inj hnil
        rw [if_pos hnil]
        exact iff_of_false (by simp) (by simp)
      · rw [if_neg hnil, List.cons.injEq, and_iff_right rfl, ih (List.cons_ne_nil u tokens)]
        refine or_iff_right_of_imp fun hone => ?_
        obtain rfl : tokens = [] := List.length_eq_zero_iff.mp (Nat.succ.inj hone)
        rw [List.getLast_singleton]
        rintro rfl
        exact hnil rfl

end Quoted

/-- **When quoted splitting undoes a join.** -/
theorem splitStringWithQuote_join_iff {d : Char} (hquote : d ≠ '"') {tokens : List (List Char)}
    (hne : tokens ≠ []) (htokens : ∀ t ∈ tokens, '"' ∉ t) :
    (∀ fuel, (joinQuoted d tokens).length < fuel →
        splitStringWithQuote fuel (joinQuoted d tokens) [d] = some tokens) ↔
      tokens.length = 1 ∨ tokens.getLast hne ≠ [] := by
  rw [← readBack_eq_self_iff hne]
  have hloop : ∀ fuel, (joinQuoted d tokens).length < fuel →
      splitStringWithQuote fuel (joinQuoted d tokens) [d] = some (readBack tokens) :=
    fun fuel hfuel => splitQuoteLoop_append hquote hne htokens [] hfuel
  constructor
  · intro h
    have hlt := Nat.lt_succ_self (joinQuoted d tokens).length
    exact Option.some.inj ((hloop _ hlt).symm.trans (h _ hlt))
  · intro h fuel hfuel
    rw [hloop fuel hfuel, h]

theorem splitStringWithQuote_join_sample :
    splitStringWithQuote 9 (joinQuoted ',' [[], "a,b".toList, "c".toList]) [','] =
      some [[], "a,b".toList, "c".toList] := by
  have hne : [[], "a,b".toList, "c".toList] ≠ [] := List.cons_ne_nil _ _
  have hquote : ',' ≠ '"' := by decide
  refine (splitStringWithQuote_join_iff hquote hne (by decide)).mpr (.inr ?_) 9 (by decide)
  exact List.cons_ne_nil 'c' []

/-- The empty token behind the delimiter of `a,` is lost. -/
theorem splitStringWithQuote_join_trailing :
    ¬∀ (d : Char) (tokens : List (List Char)), d ≠ '"' → tokens ≠ [] →
      (∀ t ∈ tokens, '"' ∉ t) → ∃ fuel,
        splitStringWithQuote fuel (joinQuoted d tokens) [d] = some tokens := by
  intro h
  obtain ⟨fuel, hfuel⟩ := h ',' [['a'], []] (by decide) (by decide) (by decide)
  cases fuel with
  | zero => cases hfuel
  | succ fuel =>
    have hloop : splitStringWithQuote (fuel + 1) (joinQuoted ',' [['a'], []]) [','] =
        some [['a']] := rfl
    rw [hloop] at hfuel
    cases hfuel

end SplitString

end UtilityFramework
