import Mathlib.Data.List.TakeWhile
import UtilityFramework.Lib.NestedReading
import UtilityFramework.Utils.SplitString

/-!
# Expanding environment variables

`auto_expand_environment_variables`. As long as the text has a reference `${name}`, the leftmost
one is replaced by the value of the variable, or by nothing if it has none. What comes in is
searched again, together with what stands around it, so that a value can refer to variables, and
complete a reference that has been begun in front of it. Then a `~` is replaced by the home
directory.

A text without references may be read from left to right, and a reference by reading the value in
its place (`next`). The loop does nothing else: an iteration replaces what is read next
(`expandLoop_of_reads`, `reads_of_expandLoop`). A variable is referred to by a text, or by the
value of a variable where that is read, if reading it comes to the end of such a reference. The
loop ends precisely if no chain of references goes on forever, and then no reference is left
(`expands_iff`).
-/

namespace UtilityFramework

open NestedReading Splitting

namespace EnvironmentVariables

/-- The variables that `getenv` knows. -/
abbrev Environment := List Char → Option (List Char)

/-- The text of a reference. -/
def reference (name : List Char) : List Char := '$' :: '{' :: (name ++ ['}'])

/-- A name in a reference: `[^}]+`. -/
def IsName (name : List Char) : Prop := name ≠ [] ∧ '}' ∉ name

/-- The text has a reference to a variable. -/
def HasReference (text : List Char) : Prop :=
  ∃ pre name post, IsName name ∧ text = pre ++ (reference name ++ post)

/-- The name of the reference at the front of a text. -/
def referenceAt : List Char → Option (List Char)
  | '$' :: '{' :: rest =>
    let name := rest.takeWhile (· ≠ '}')
    if name ≠ [] ∧ name.length < rest.length then some name else none
  | _ => none

/-- `regex_search`: the name of the leftmost reference. -/
def regexSearch : List Char → Option (List Char)
  | [] => none
  | c :: text => (referenceAt (c :: text)).or (regexSearch text)

/-- The value of a variable, whose name `getenv` takes to end at a zero. -/
def value (env : Environment) (name : List Char) : List Char :=
  (env (name.takeWhile (· ≠ '\x00'))).getD []

/-- The text with the first occurrence of `found` replaced. -/
def replaceFirst (text found var : List Char) : Option (List Char) :=
  (find found text 0).map fun pos => text.take pos ++ (var ++ text.drop (pos + found.length))

/-- The loop; `none` if the fuel does not suffice. -/
def expandLoop (env : Environment) : ℕ → List Char → Option (List Char)
  | 0, _ => none
  | fuel + 1, text =>
    match regexSearch text with
    | none => some text
    | some name =>
      (replaceFirst text (reference name) (value env name)).bind (expandLoop env fuel)

/-- What comes after the loop; `none` if there is no home directory, whose null pointer is then
read. -/
def expandTilde (env : Environment) (text : List Char) : Option (List Char) :=
  match find ['~'] text 0 with
  | none => some text
  | some pos => (env "HOME".toList).map fun home =>
      text.take pos ++ (home ++ '/' :: text.drop (pos + 1))

def autoExpand (env : Environment) (fuel : ℕ) (text : List Char) : Option (List Char) :=
  (expandLoop env fuel text).bind (expandTilde env)

/-! ### Reading a text with the values in place -/

/-- What has been read last: a number of `$`, the beginning `${` of a reference, or also some of
its name, in both cases behind a number of `$`. -/
inductive ReferenceState
  | text (dollars : ℕ)
  | opened (dollars : ℕ)
  | name (dollars : ℕ) (chars : List Char)

/-- The `}` that ends a reference has the value read in its place, behind what stood in front
of the reference. -/
def next (env : Environment) : ReferenceState → Char → ReferenceState ⊕ (ReferenceState × List Char)
  | .text 0, c => if c = '$' then .inl (.text 1) else .inl (.text 0)
  | .text (k + 1), c =>
    if c = '$' then .inl (.text (k + 2)) else if c = '{' then .inl (.opened k) else .inl (.text 0)
  | .opened k, c => if c = '}' then .inl (.text 0) else .inl (.name k [c])
  | .name k chars, c =>
    if c = '}' then .inr (.text k, value env chars) else .inl (.name k (chars ++ [c]))

/-- The chain of references that starts with a text goes on forever: the text refers to a
variable, the value of this to another, and so on. -/
def EndlessReferences (env : Environment) (text : List Char) : Prop :=
  ∃ f : ℕ → ReferenceState × List Char, f 0 = (.text 0, text) ∧
    ∀ n, Calls (next env) (f (n + 1)) (f n)

variable {env : Environment} {text u rest w : List Char} {c : Char} {k : ℕ}
  {q m r : ReferenceState} {a : ReferenceState × List Char}

theorem next_eq_inr_iff :
    next env q c = .inr a ↔
      ∃ k chars, q = .name k chars ∧ c = '}' ∧ a = (.text k, value env chars) := by
  constructor
  · intro h
    rw [next.eq_def] at h
    split at h <;> split_ifs at h with hc
    exact ⟨_, _, rfl, hc, (Sum.inr.inj h).symm⟩
  · rintro ⟨k, chars, rfl, rfl, rfl⟩
    rw [next, if_pos rfl]

/-- What led to a state behind some `$`. -/
theorem next_eq_text_succ (h : next env q c = .inl (.text (k + 1))) :
    c = '$' ∧ q = .text k := by
  rw [next.eq_def] at h
  split at h <;> split_ifs at h with hc <;> cases h
  · exact ⟨hc, rfl⟩
  · exact ⟨hc, rfl⟩

theorem next_eq_opened (h : next env q c = .inl (.opened k)) : c = '{' ∧ q = .text (k + 1) := by
  rw [next.eq_def] at h
  split at h <;> split_ifs at h <;> cases h
  exact ⟨‹c = '{'›, rfl⟩

theorem next_eq_name (h : next env q c = .inl (.name k w)) :
    c ≠ '}' ∧ ((q = .opened k ∧ w = [c]) ∨ ∃ chars, q = .name k chars ∧ w = chars ++ [c]) := by
  rw [next.eq_def] at h
  split at h <;> split_ifs at h with hc <;> cases h
  · exact ⟨hc, .inl ⟨rfl, rfl⟩⟩
  · exact ⟨hc, .inr ⟨_, rfl, rfl⟩⟩

/-- Where the reading has come to, its letters tell. -/
theorem plain_eq_text_succ (h : plain (next env) (.text 0) u = some (.text (k + 1))) :
    ∃ p, u = p ++ ['$'] ∧ plain (next env) (.text 0) p = some (.text k) := by
  induction u using List.reverseRecOn with
  | nil => cases h
  | append_singleton p c _ =>
    obtain ⟨m, hp, hc⟩ := plain_concat_eq_some h
    obtain ⟨rfl, rfl⟩ := next_eq_text_succ hc
    exact ⟨p, rfl, hp⟩

theorem plain_eq_opened (h : plain (next env) (.text 0) u = some (.opened k)) :
    ∃ p, u = p ++ ['$', '{'] ∧ plain (next env) (.text 0) p = some (.text k) := by
  induction u using List.reverseRecOn with
  | nil => cases h
  | append_singleton p c _ =>
    obtain ⟨m, hp, hc⟩ := plain_concat_eq_some h
    obtain ⟨rfl, rfl⟩ := next_eq_opened hc
    obtain ⟨p', rfl, hp'⟩ := plain_eq_text_succ hp
    exact ⟨p', List.append_assoc _ _ _, hp'⟩

/-- Behind the beginning of a reference. -/
theorem plain_eq_name (h : plain (next env) (.text 0) u = some (.name k w)) :
    IsName w ∧ ∃ p, u = p ++ '$' :: '{' :: w ∧
      plain (next env) (.text 0) p = some (.text k) := by
  induction u using List.reverseRecOn generalizing w with
  | nil => cases h
  | append_singleton p c ih =>
    obtain ⟨m, hp, hnext⟩ := plain_concat_eq_some h
    obtain ⟨hc, ⟨rfl, rfl⟩ | ⟨chars, rfl, rfl⟩⟩ := next_eq_name hnext
    · obtain ⟨p', rfl, hp'⟩ := plain_eq_opened hp
      refine ⟨⟨List.cons_ne_nil c [], ?_⟩, p', ?_, hp'⟩
      · rw [List.mem_singleton]
        exact hc.symm
      · rw [List.append_assoc]
        rfl
    · obtain ⟨⟨-, hchars⟩, p', rfl, hp'⟩ := ih hp
      refine ⟨⟨List.append_ne_nil_of_right_ne_nil chars (List.cons_ne_nil c []), ?_⟩, p', ?_, hp'⟩
      · rw [List.mem_append, List.mem_singleton, not_or]
        exact ⟨hchars, hc.symm⟩
      · rw [List.append_assoc]
        rfl

/-- A name goes on until a `}`. -/
theorem plain_name (env : Environment) (k : ℕ) (chars : List Char) (hw : '}' ∉ w) :
    plain (next env) (.name k chars) w = some (.name k (chars ++ w)) := by
  induction w generalizing chars with
  | nil => rw [plain, List.append_nil]
  | cons c w ih =>
    have hc : '}' ≠ c := List.ne_of_not_mem_cons hw
    rw [plain, next, if_neg hc.symm]
    dsimp only
    rw [ih _ (List.not_mem_of_not_mem_cons hw), List.append_assoc]
    rfl

/-- Wherever a reference begins, its name is read as a name, perhaps as part of a longer one. -/
theorem plain_reference (env : Environment) (q : ReferenceState) {name : List Char}
    (hname : IsName name) :
    ∃ k chars, plain (next env) q ('$' :: '{' :: name) = some (.name k chars) ∧
      name.length ≤ chars.length := by
  obtain ⟨hne, hclose⟩ := hname
  obtain ⟨c, name, rfl⟩ := List.exists_cons_of_ne_nil hne
  have hc : '}' ≠ c := List.ne_of_not_mem_cons hclose
  have hname : '}' ∉ name := List.not_mem_of_not_mem_cons hclose
  cases q with
  | text k =>
    have hopened : plain (next env) (.text k) ['$', '{'] = some (.opened k) := by
      cases k <;> rfl
    refine ⟨k, [c] ++ name, ?_, Nat.le_refl _⟩
    change plain (next env) (.text k) (['$', '{'] ++ c :: name) = _
    rw [plain_append, hopened, Option.bind_some, plain, next, if_neg hc.symm]
    exact plain_name env k [c] hname
  | opened k =>
    refine ⟨k, ['$'] ++ '{' :: c :: name, ?_, ?_⟩
    · rw [plain, next, if_neg (by decide)]
      refine plain_name env k ['$'] ?_
      rw [List.mem_cons, not_or]
      exact ⟨by decide, hclose⟩
    · simp
  | name k chars =>
    refine ⟨k, chars ++ '$' :: '{' :: c :: name, ?_, ?_⟩
    · refine plain_name env k chars ?_
      simp only [List.mem_cons, not_or]
      exact ⟨by decide, by decide, hc, hname⟩
    · simp only [List.length_append, List.length_cons]
      omega

/-- No reading passes a whole reference without a value in place. -/
theorem plain_whole_reference (env : Environment) (q : ReferenceState) {name : List Char}
    (hname : IsName name) (rest : List Char) :
    plain (next env) q (reference name ++ rest) = none := by
  obtain ⟨k, chars, hplain, -⟩ := plain_reference env q hname
  have hsplit : reference name ++ rest = ('$' :: '{' :: name) ++ ('}' :: rest) := by
    simp only [reference, List.cons_append, List.append_assoc, List.nil_append]
  rw [hsplit, plain_append, hplain, Option.bind_some, plain, next, if_pos rfl]

/-! ### The search -/

theorem referenceAt_reference {name : List Char} (hname : IsName name) (post : List Char) :
    referenceAt (reference name ++ post) = some name := by
  have htake : (name ++ '}' :: post).takeWhile (· ≠ '}') = name := by
    rw [List.takeWhile_append_of_pos, List.takeWhile_cons_of_neg (by simp), List.append_nil]
    intro c hc
    have hne : c ≠ '}' := by
      rintro rfl
      exact hname.2 hc
    simpa using hne
  have hlen : name.length < (name ++ '}' :: post).length := by
    rw [List.length_append, List.length_cons]
    omega
  have htext : reference name ++ post = '$' :: '{' :: (name ++ '}' :: post) := by
    simp only [reference, List.cons_append, List.append_assoc, List.nil_append]
  rw [htext, referenceAt, htake]
  exact if_pos ⟨hname.1, hlen⟩

theorem exists_of_referenceAt {name : List Char} (h : referenceAt text = some name) :
    IsName name ∧ ∃ post, text = reference name ++ post := by
  rw [referenceAt.eq_def] at h
  split at h
  · next rest =>
    dsimp only at h
    rw [Option.ite_none_right_eq_some] at h
    obtain ⟨⟨hne, hlen⟩, hname⟩ := h
    obtain rfl := Option.some.inj hname
    refine ⟨⟨hne, fun hmem => by simpa using List.mem_takeWhile_imp hmem⟩, ?_⟩
    have hsplit := List.takeWhile_append_dropWhile (p := (· ≠ '}')) (l := rest)
    -- the name ends at a `}`
    cases hdrop : rest.dropWhile (· ≠ '}') with
    | nil =>
      rw [hdrop, List.append_nil] at hsplit
      rw [hsplit] at hlen
      exact absurd hlen (Nat.lt_irrefl _)
    | cons c post =>
      have hc : c = '}' := by
        have hhead := List.head?_dropWhile_not (p := (· ≠ '}')) (l := rest)
        rw [hdrop] at hhead
        simpa using hhead
      subst hc
      rw [hdrop] at hsplit
      refine ⟨post, ?_⟩
      conv_lhs => rw [← hsplit]
      simp only [reference, List.cons_append, List.append_assoc, List.nil_append]
  · cases h

theorem regexSearch_append {pre : List Char}
    (h : ∀ i < pre.length, referenceAt ((pre ++ text).drop i) = none) :
    regexSearch (pre ++ text) = regexSearch text := by
  induction pre with
  | nil => rfl
  | cons c pre ih =>
    have hhead : referenceAt (c :: (pre ++ text)) = none := h 0 (Nat.zero_lt_succ _)
    rw [List.cons_append, regexSearch, hhead, Option.none_or]
    exact ih fun i hi => h (i + 1) (Nat.succ_lt_succ hi)

theorem hasReference_of_regexSearch {name : List Char} (h : regexSearch text = some name) :
    HasReference text := by
  induction text with
  | nil => cases h
  | cons c text ih =>
    rw [regexSearch] at h
    cases hat : referenceAt (c :: text) with
    | some name' =>
      obtain ⟨hname, post, hpost⟩ := exists_of_referenceAt hat
      exact ⟨[], name', post, hname, hpost⟩
    | none =>
      rw [hat, Option.none_or] at h
      obtain ⟨pre, name', post, hname, rfl⟩ := ih h
      exact ⟨c :: pre, name', post, hname, rfl⟩

theorem regexSearch_ne_none {name : List Char} (hname : IsName name) (pre post : List Char) :
    regexSearch (pre ++ (reference name ++ post)) ≠ none := by
  induction pre with
  | nil =>
    change (referenceAt (reference name ++ post)).or _ ≠ none
    rw [referenceAt_reference hname post, Option.some_or]
    exact Option.some_ne_none name
  | cons c pre ih =>
    rw [List.cons_append, regexSearch]
    exact fun h => ih (Option.or_eq_none_iff.mp h).2

theorem regexSearch_eq_none_iff : regexSearch text = none ↔ ¬HasReference text := by
  constructor
  · rintro h ⟨pre, name, post, hname, rfl⟩
    exact regexSearch_ne_none hname pre post h
  · intro h
    by_contra hne
    obtain ⟨name, hname⟩ := Option.ne_none_iff_exists'.mp hne
    exact h (hasReference_of_regexSearch hname)

/-- Where the reading has come to the name of a reference, no reference begins further in
front. -/
theorem referenceAt_eq_none_of_plain {p : List Char}
    (hu : plain (next env) (.text 0) (p ++ '$' :: '{' :: w) = some (.name k w)) {i : ℕ}
    (hi : i < p.length) (rest : List Char) :
    referenceAt ((p ++ (reference w ++ rest)).drop i) = none := by
  by_contra hne
  obtain ⟨name, hat⟩ := Option.ne_none_iff_exists'.mp hne
  obtain ⟨hname, post, hpost⟩ := exists_of_referenceAt hat
  have htake : (p ++ (reference w ++ rest)).take i = p.take i :=
    List.take_append_of_le_length hi.le
  have htext := List.take_append_drop i (p ++ (reference w ++ rest))
  rw [hpost, htake] at htext
  -- the text from its start to the `}` of this reference, and to that of the other
  have hboth : (p.take i ++ '$' :: '{' :: name) ++ '}' :: post =
      (p ++ '$' :: '{' :: w) ++ '}' :: rest := by
    simpa only [reference, List.cons_append, List.append_assoc, List.nil_append] using htext
  have hequal : p.take i ++ '$' :: '{' :: name ≠ p ++ '$' :: '{' :: w := by
    intro heq
    rw [← heq, plain_append] at hu
    obtain ⟨q, -, hq⟩ := Option.bind_eq_some_iff.mp hu
    obtain ⟨k', chars, hq', hlen⟩ := plain_reference env q hname
    obtain ⟨-, rfl⟩ := ReferenceState.name.inj (Option.some.inj (hq'.symm.trans hq))
    have hlength := congrArg List.length heq
    simp only [List.length_append, List.length_cons, List.length_take] at hlength
    omega
  rcases List.append_eq_append_iff.mp hboth with ⟨x, hx, hx'⟩ | ⟨x, hx, hx'⟩
  · cases x with
    | nil => exact hequal (hx.trans (List.append_nil _)).symm
    | cons c x =>
      -- the reading would have passed the whole reference
      obtain rfl := (List.cons.inj hx').1
      have hwhole : p ++ '$' :: '{' :: w = p.take i ++ (reference name ++ x) := by
        simpa only [reference, List.cons_append, List.append_assoc, List.nil_append] using hx
      rw [hwhole, plain_append] at hu
      obtain ⟨q, -, hq⟩ := Option.bind_eq_some_iff.mp hu
      rw [plain_whole_reference env q hname x] at hq
      cases hq
  · cases x with
    | nil => exact hequal (hx.trans (List.append_nil _))
    | cons c x =>
      -- the name would go on behind a `}`
      obtain rfl := (List.cons.inj hx').1
      have hp := List.take_append_drop i p
      have hsplit : p.take i ++ '$' :: '{' :: name =
          p.take i ++ (p.drop i ++ '$' :: '{' :: (w ++ '}' :: x)) := by
        rw [hx]
        conv_lhs => rw [← hp]
        simp only [List.cons_append, List.append_assoc]
      have hmem : '}' ∈ '$' :: '{' :: name := by
        rw [List.append_cancel_left hsplit]
        simp
      refine hname.2 ?_
      simpa using hmem

/-- **One iteration.** Where the reading has come to the end of a reference, this is the
leftmost one, and its value is put in its place. -/
theorem replace_of_plain (hu : plain (next env) (.text 0) u = some (.name k w)) :
    ∃ p, plain (next env) (.text 0) p = some (.text k) ∧ ∀ rest,
      HasReference (u ++ '}' :: rest) ∧ regexSearch (u ++ '}' :: rest) = some w ∧
      replaceFirst (u ++ '}' :: rest) (reference w) (value env w) =
        some (p ++ (value env w ++ rest)) := by
  obtain ⟨hw, p, rfl, hp⟩ := plain_eq_name hu
  refine ⟨p, hp, fun rest => ?_⟩
  have htext : p ++ '$' :: '{' :: w ++ '}' :: rest = p ++ (reference w ++ rest) := by
    simp only [reference, List.cons_append, List.append_assoc, List.nil_append]
  have hfirst : ∀ i < p.length, referenceAt ((p ++ (reference w ++ rest)).drop i) = none :=
    fun i hi => referenceAt_eq_none_of_plain hu hi rest
  have hsearch : regexSearch (p ++ (reference w ++ rest)) = some w := by
    rw [regexSearch_append hfirst]
    change (referenceAt (reference w ++ rest)).or _ = some w
    rw [referenceAt_reference hw, Option.some_or]
  have hfind : find (reference w) (p ++ (reference w ++ rest)) 0 = some p.length := by
    rw [find_eq_some_iff, List.drop_left, List.length_append]
    refine ⟨⟨Nat.zero_le _, Nat.le_add_right _ _, List.prefix_append _ _⟩, ?_⟩
    rintro j - hj ⟨post, hpost⟩
    have hnone := hfirst j hj
    rw [← hpost, referenceAt_reference hw] at hnone
    cases hnone
  refine ⟨⟨p, w, rest, hw, htext⟩, htext ▸ hsearch, ?_⟩
  rw [htext, replaceFirst, hfind, Option.map_some, List.take_left, ← List.drop_drop,
    List.drop_left, List.drop_left]

theorem not_hasReference_iff (env : Environment) :
    ¬HasReference text ↔ ∃ r, plain (next env) (.text 0) text = some r := by
  constructor
  · intro h
    obtain hplain | ⟨u, c, rest, m, a, rfl, hu, hnext⟩ := plain_or_exists (next env) (.text 0) text
    · exact hplain
    · obtain ⟨k, w, rfl, rfl, -⟩ := next_eq_inr_iff.mp hnext
      obtain ⟨p, -, hreplace⟩ := replace_of_plain hu
      exact absurd (hreplace rest).1 h
  · rintro ⟨r, hr⟩ ⟨pre, name, post, hname, rfl⟩
    rw [plain_append] at hr
    obtain ⟨q, -, hq⟩ := Option.bind_eq_some_iff.mp hr
    rw [plain_whole_reference env q hname post] at hq
    cases hq

/-! ### The loop -/

theorem not_hasReference_of_expandLoop {fuel : ℕ} {out : List Char}
    (h : expandLoop env fuel text = some out) : ¬HasReference out := by
  induction fuel generalizing text with
  | zero => cases h
  | succ fuel ih =>
    rw [expandLoop] at h
    cases hsearch : regexSearch text with
    | none =>
      rw [hsearch] at h
      obtain rfl := Option.some.inj h
      exact regexSearch_eq_none_iff.mp hsearch
    | some name =>
      rw [hsearch] at h
      obtain ⟨text', -, h⟩ := Option.bind_eq_some_iff.mp h
      exact ih h

/-- An iteration of the loop. -/
theorem expandLoop_succ (hu : plain (next env) (.text 0) u = some (.name k w)) :
    ∃ p, plain (next env) (.text 0) p = some (.text k) ∧ ∀ rest fuel,
      expandLoop env (fuel + 1) (u ++ '}' :: rest) =
        expandLoop env fuel (p ++ (value env w ++ rest)) := by
  obtain ⟨p, hp, hreplace⟩ := replace_of_plain hu
  refine ⟨p, hp, fun rest fuel => ?_⟩
  obtain ⟨-, hsearch, hvalue⟩ := hreplace rest
  rw [expandLoop, hsearch]
  dsimp only
  rw [hvalue, Option.bind_some]

/-- What can be read to its end is expanded in as many iterations as there are references to
read, by induction on the reading. -/
theorem expandLoop_of_reads {v : List Char} (h : Reads (next env) q v r) {pre : List Char}
    (hpre : plain (next env) (.text 0) pre = some q) :
    ∃ pre' n, plain (next env) (.text 0) pre' = some r ∧ ∀ rest fuel,
      expandLoop env (fuel + n) (pre ++ (v ++ rest)) = expandLoop env fuel (pre' ++ rest) := by
  induction h generalizing pre with
  | nil q => exact ⟨pre, 0, hpre, fun _ _ => rfl⟩
  | @letter q q' r c v hnext _ ih =>
    obtain ⟨pre', n, hpre', hloop⟩ := ih (plain_concat hpre hnext)
    refine ⟨pre', n, hpre', fun rest fuel => ?_⟩
    rw [← hloop rest fuel, List.append_assoc]
    rfl
  | nested hnext _ _ ihw ihv =>
    obtain ⟨k, w, rfl, rfl, ha⟩ := next_eq_inr_iff.mp hnext
    obtain ⟨rfl, rfl⟩ := Prod.mk.inj ha
    obtain ⟨p, hp, hstep⟩ := expandLoop_succ hpre
    obtain ⟨pre₁, n₁, hpre₁, hloop₁⟩ := ihw hp
    obtain ⟨pre₂, n₂, hpre₂, hloop₂⟩ := ihv hpre₁
    refine ⟨pre₂, n₂ + n₁ + 1, hpre₂, fun rest fuel => ?_⟩
    rw [← hloop₂ rest fuel, ← hloop₁, ← hstep, List.cons_append, Nat.add_assoc fuel,
      Nat.add_assoc fuel]

/-- A text that the loop comes to an end of can be read, by induction on the iterations. -/
theorem reads_of_expandLoop {fuel : ℕ} {out pre v : List Char}
    (hpre : plain (next env) (.text 0) pre = some q)
    (h : expandLoop env fuel (pre ++ v) = some out) : ∃ r, Reads (next env) q v r := by
  induction fuel generalizing pre v q with
  | zero => cases h
  | succ fuel ih =>
    obtain ⟨r, hr⟩ | ⟨u, c, rest, m, a, rfl, hu, hnext⟩ := plain_or_exists (next env) q v
    · exact ⟨r, .of_plain hr⟩
    · obtain ⟨k, w, rfl, rfl, rfl⟩ := next_eq_inr_iff.mp hnext
      have hname : plain (next env) (.text 0) (pre ++ u) = some (.name k w) := by
        rw [plain_append, hpre, Option.bind_some, hu]
      obtain ⟨p, hp, hstep⟩ := expandLoop_succ hname
      rw [← List.append_assoc, hstep] at h
      obtain ⟨r, hr⟩ := ih hp h
      obtain ⟨q', hvalue, hrest⟩ := hr.split
      exact ⟨r, (Reads.of_plain hu).append (.nested hnext hvalue hrest)⟩

/-- The loop ends precisely if no chain of references goes on forever. -/
theorem exists_expandLoop_iff :
    (∃ fuel out, expandLoop env fuel text = some out) ↔ ¬EndlessReferences env text := by
  rw [EndlessReferences, ← exists_reads_iff]
  have hstart : plain (next env) (.text 0) [] = some (.text 0) := rfl
  constructor
  · rintro ⟨fuel, out, h⟩
    exact reads_of_expandLoop hstart h
  · rintro ⟨r, h⟩
    obtain ⟨out, n, hout, hloop⟩ := expandLoop_of_reads h hstart
    have hnone : regexSearch out = none :=
      regexSearch_eq_none_iff.mpr ((not_hasReference_iff env).mpr ⟨r, hout⟩)
    refine ⟨1 + n, out, ?_⟩
    have hend := hloop [] 1
    rw [List.nil_append, List.append_nil, List.append_nil] at hend
    rw [hend, expandLoop, hnone]

/-! ### The home directory -/

/-- There is a home directory, and its name has none of the characters of references. -/
def HomePlain (env : Environment) : Prop :=
  ∃ home, env "HOME".toList = some home ∧ ∀ c ∈ home, c ≠ '$' ∧ c ≠ '{' ∧ c ≠ '}'

/-- A plain text that ends with a slash leads where a tilde does, or also to a name. -/
theorem plain_home {home : List Char} (hhome : ∀ c ∈ home, c ≠ '$' ∧ c ≠ '{' ∧ c ≠ '}')
    (hm : next env q '~' = .inl m) :
    ∃ m', plain (next env) q (home ++ ['/']) = some m' ∧
      (m' = m ∨ ∃ k chars chars', m = .name k chars ∧ m' = .name k chars') := by
  have hclose : '}' ∉ home ++ ['/'] := by
    intro hmem
    rcases List.mem_append.mp hmem with h | h
    · exact (hhome _ h).2.2 rfl
    · exact absurd h (by decide)
  cases q with
  | text k =>
    have htext : ∀ k, plain (next env) (.text k) (home ++ ['/']) = some (.text 0) := by
      clear hclose
      induction home with
      | nil =>
        intro k
        cases k <;> rfl
      | cons c home ih =>
        intro k
        obtain ⟨hdollar, hopen, -⟩ := hhome c List.mem_cons_self
        have hc : next env (.text k) c = .inl (.text 0) := by
          cases k with
          | zero => rw [next, if_neg hdollar]
          | succ k => rw [next, if_neg hdollar, if_neg hopen]
        rw [List.cons_append, plain, hc]
        exact ih (fun d hd => hhome d (List.mem_cons_of_mem c hd)) 0
    refine ⟨.text 0, htext k, .inl ?_⟩
    cases k <;> exact Sum.inl.inj hm
  | opened k =>
    obtain rfl : .name k ['~'] = m := Sum.inl.inj hm
    obtain ⟨c, rest, hcons⟩ : ∃ c rest, home ++ ['/'] = c :: rest :=
      List.exists_cons_of_ne_nil (List.append_ne_nil_of_right_ne_nil _ (List.cons_ne_nil _ _))
    rw [hcons] at hclose
    have hc : '}' ≠ c := List.ne_of_not_mem_cons hclose
    refine ⟨.name k ([c] ++ rest), ?_, .inr ⟨k, _, _, rfl, rfl⟩⟩
    rw [hcons, plain, next, if_neg hc.symm]
    exact plain_name env k [c] (List.not_mem_of_not_mem_cons hclose)
  | name k chars =>
    obtain rfl : .name k (chars ++ ['~']) = m := Sum.inl.inj hm
    exact ⟨_, plain_name env k chars hclose, .inr ⟨k, _, _, rfl, rfl⟩⟩

/-- A name that is read to the end of the text has no `}`. -/
theorem not_mem_of_plain_name {chars : List Char}
    (h : plain (next env) (.name k chars) rest = some r) : '}' ∉ rest := by
  induction rest generalizing chars with
  | nil => exact List.not_mem_nil
  | cons c rest ih =>
    rw [plain, next] at h
    by_cases hc : c = '}'
    · rw [if_pos hc] at h
      cases h
    · rw [if_neg hc] at h
      rw [List.mem_cons, not_or]
      exact ⟨Ne.symm hc, ih h⟩

/-- A plain home directory makes no reference. -/
theorem exists_expandTilde (hhome : HomePlain env) (h : ¬HasReference text) :
    ∃ out, expandTilde env text = some out ∧ ¬HasReference out := by
  obtain ⟨home, henv, hplain⟩ := hhome
  rw [expandTilde]
  cases hfind : find ['~'] text 0 with
  | none => exact ⟨text, rfl, h⟩
  | some pos =>
    refine ⟨_, congrArg (Option.map _) henv, ?_⟩
    obtain ⟨⟨-, -, post, hpost⟩, -⟩ := find_eq_some_iff.mp hfind
    have htext : text = text.take pos ++ '~' :: post := by
      conv_lhs => rw [← List.take_append_drop pos text, ← hpost]
      rfl
    have hdrop : text.drop (pos + 1) = post := by
      rw [← List.drop_drop, ← hpost]
      rfl
    obtain ⟨r, hr⟩ := (not_hasReference_iff env).mp h
    rw [htext, plain_append] at hr
    obtain ⟨q, hpre, hq⟩ := Option.bind_eq_some_iff.mp hr
    rw [plain] at hq
    cases hnext : next env q '~' with
    | inr a =>
      obtain ⟨k, chars, -, htilde, -⟩ := next_eq_inr_iff.mp hnext
      exact absurd htilde (by decide)
    | inl m =>
      rw [hnext] at hq
      obtain ⟨m', hhome, hm'⟩ := plain_home hplain hnext
      refine (not_hasReference_iff env).mpr ?_
      have hsplit : home ++ '/' :: post = home ++ ['/'] ++ post := by
        rw [List.append_assoc]
        rfl
      rw [hdrop]
      change ∃ r, plain (next env) (.text 0) (text.take pos ++ (home ++ '/' :: post)) = some r
      rw [hsplit, plain_append, hpre, Option.bind_some, plain_append, hhome, Option.bind_some]
      -- behind the slash the reading goes on as it did behind the tilde
      obtain rfl | ⟨k, chars, chars', rfl, rfl⟩ := hm'
      · exact ⟨r, hq⟩
      · exact ⟨_, plain_name env k chars' (not_mem_of_plain_name hq)⟩

/-- **When the expansion ends.** The loop ends, with no reference left, precisely if no chain of
references goes on forever; and so does the whole function if the home directory is plain. -/
theorem expands_iff (env : Environment) (text : List Char) :
    ((∃ fuel out, expandLoop env fuel text = some out ∧ ¬HasReference out) ↔
      ¬EndlessReferences env text) ∧
    (HomePlain env →
      ((∃ fuel out, autoExpand env fuel text = some out ∧ ¬HasReference out) ↔
        ¬EndlessReferences env text)) := by
  rw [← exists_expandLoop_iff]
  refine ⟨⟨?_, ?_⟩, fun hhome => ⟨?_, ?_⟩⟩
  · rintro ⟨fuel, out, h, -⟩
    exact ⟨fuel, out, h⟩
  · rintro ⟨fuel, out, h⟩
    exact ⟨fuel, out, h, not_hasReference_of_expandLoop h⟩
  · rintro ⟨fuel, out, h, -⟩
    obtain ⟨out', h', -⟩ := Option.bind_eq_some_iff.mp h
    exact ⟨fuel, out', h'⟩
  · rintro ⟨fuel, out, h⟩
    obtain ⟨out', h', hout'⟩ := exists_expandTilde hhome (not_hasReference_of_expandLoop h)
    refine ⟨fuel, out', ?_, hout'⟩
    rw [autoExpand, h, Option.bind_some, h']

theorem expands_iff_sample :
    ∃ fuel out, autoExpand (fun name => if name = "HOME".toList then some "/h".toList else none)
      fuel "~${A}".toList = some out ∧ ¬HasReference out := by
  have hhome : HomePlain fun name =>
      if name = "HOME".toList then some "/h".toList else none := by
    refine ⟨['/', 'h'], by decide, ?_⟩
    rw [List.forall_mem_cons, List.forall_mem_singleton]
    decide
  refine ((expands_iff _ _).2 hhome).mpr ?_
  refine (expands_iff _ _).1.mp ⟨2, "~".toList, by decide, ?_⟩
  exact regexSearch_eq_none_iff.mp (by decide)

/-- A variable whose value is a reference to itself. -/
theorem not_expands_self_reference :
    ¬∀ (env : Environment) (text : List Char),
      ∃ fuel out, expandLoop env fuel text = some out ∧ ¬HasReference out := by
  intro h
  obtain ⟨fuel, out, hout, -⟩ := h (fun _ => some "${X}".toList) "${X}".toList
  have hloop : ∀ fuel, expandLoop (fun _ => some "${X}".toList) fuel "${X}".toList = none := by
    intro fuel
    induction fuel with
    | zero => rfl
    | succ fuel ih => exact ih
  rw [hloop fuel] at hout
  cases hout

/-! ### Texts in which every `$` begins a reference -/

/-- The text consists of letters other than `$` and of references to the variables `names`. -/
inductive Closed : List Char → List (List Char) → Prop
  | nil : Closed [] []
  | letter {c : Char} {v : List Char} {names : List (List Char)} (hc : c ≠ '$')
      (hv : Closed v names) : Closed (c :: v) names
  | reference {name v : List Char} {names : List (List Char)} (hname : IsName name)
      (hv : Closed v names) : Closed (reference name ++ v) (name :: names)

/-- The value of `b` refers to `a`. -/
def Mentions (env : Environment) (a b : List Char) : Prop :=
  ∃ names, Closed (value env b) names ∧ a ∈ names

/-- A reference is read to the state in which its value is. -/
theorem reads_name (env : Environment) {name : List Char} (hname : IsName name) :
    Reads (next env) (.text 0) ('$' :: '{' :: name) (.name 0 name) := by
  obtain ⟨hne, hclose⟩ := hname
  obtain ⟨c, name, rfl⟩ := List.exists_cons_of_ne_nil hne
  have hc : '}' ≠ c := List.ne_of_not_mem_cons hclose
  refine Reads.of_plain ?_
  change plain (next env) (.opened 0) (c :: name) = _
  rw [plain, next, if_neg hc.symm]
  exact plain_name env 0 [c] (List.not_mem_of_not_mem_cons hclose)

theorem reads_reference {name : List Char} (hname : IsName name)
    (hvalue : Reads (next env) (.text 0) (value env name) (.text 0)) :
    Reads (next env) (.text 0) (reference name) (.text 0) :=
  (reads_name env hname).append (.nested (next_eq_inr_iff.mpr ⟨0, name, rfl, rfl, rfl⟩) hvalue
    (.nil _))

theorem next_letter (hc : c ≠ '$') : next env (.text 0) c = .inl (.text 0) := by
  rw [next, if_neg hc]

/-- A closed text is read if the values that it refers to are. -/
theorem Closed.reads {v : List Char} {names : List (List Char)} (hv : Closed v names)
    (h : ∀ name ∈ names, Reads (next env) (.text 0) (value env name) (.text 0)) :
    Reads (next env) (.text 0) v (.text 0) := by
  induction hv with
  | nil => exact .nil _
  | letter hc _ ih => exact .letter (next_letter hc) (ih h)
  | reference hname _ ih =>
    exact (reads_reference hname (h _ List.mem_cons_self)).append
      (ih fun name hmem => h name (List.mem_cons_of_mem _ hmem))

/-- Where a text has been read up to a reference, it calls the value. -/
theorem calls_reference {name : List Char} (hname : IsName name)
    (hu : Reads (next env) (.text 0) u (.text 0)) (post : List Char) :
    Calls (next env) (.text 0, value env name) (.text 0, u ++ (reference name ++ post)) := by
  refine ⟨u ++ '$' :: '{' :: name, '}', post, .name 0 name, ?_,
    hu.append (reads_name env hname), next_eq_inr_iff.mpr ⟨0, name, rfl, rfl, rfl⟩⟩
  simp only [reference, List.cons_append, List.append_assoc, List.nil_append]

/-- What holds of each variable that is referred to where a text has been read so far, by
induction on the text behind: it has to have the value read, so that the reading goes on. -/
theorem forall_mem_of_closed {P : List Char → Prop}
    (hP : ∀ name, P name → Reads (next env) (.text 0) (value env name) (.text 0))
    {v : List Char} {names : List (List Char)} (hv : Closed v names)
    (hu : Reads (next env) (.text 0) u (.text 0))
    (h : ∀ name u' post, IsName name → u ++ v = u' ++ (reference name ++ post) →
      Reads (next env) (.text 0) u' (.text 0) → P name) :
    ∀ name ∈ names, P name := by
  induction hv generalizing u with
  | nil => exact fun name hmem => absurd hmem List.not_mem_nil
  | @letter c v names hc _ ih =>
    refine ih (u := u ++ [c]) (hu.append (.letter (next_letter hc) (.nil _))) ?_
    rw [List.append_assoc]
    exact h
  | @reference name v names hname _ ih =>
    have hhead : P name := h name u v hname rfl hu
    rw [List.forall_mem_cons]
    refine ⟨hhead, ih (u := u ++ reference name) ?_ ?_⟩
    · exact hu.append (reads_reference hname (hP name hhead))
    · rw [List.append_assoc]
      exact h

/-- If no chain of references that starts with a closed text goes on forever, neither does one
that starts with a variable it refers to. -/
theorem Closed.acc_mentions (henv : ∀ name, ∃ names, Closed (value env name) names)
    {v : List Char} {names : List (List Char)} (hv : Closed v names)
    (hacc : Acc (Calls (next env)) (.text 0, v)) :
    Reads (next env) (.text 0) v (.text 0) ∧ ∀ name ∈ names, Acc (Mentions env) name := by
  generalize hb : ((.text 0, v) : ReferenceState × List Char) = b at hacc
  induction hacc generalizing v names with
  | intro b _ ih =>
    subst hb
    have hall : ∀ name ∈ names, Reads (next env) (.text 0) (value env name) (.text 0) ∧
        Acc (Mentions env) name := by
      refine forall_mem_of_closed (u := []) (fun _ h => h.1) hv (.nil _) ?_
      intro name u post hname hsplit hu
      have hcall := calls_reference hname hu post
      rw [← hsplit] at hcall
      obtain ⟨names', hnames'⟩ := henv name
      refine ⟨(ih _ hcall hnames' rfl).1, ⟨name, ?_⟩⟩
      rintro a ⟨names'', hnames'', ha⟩
      exact (ih _ hcall hnames'' rfl).2 a ha
    exact ⟨hv.reads fun name hmem => (hall name hmem).1, fun name hmem => (hall name hmem).2⟩

theorem reads_value_of_acc (henv : ∀ name, ∃ names, Closed (value env name) names)
    {name : List Char} (hacc : Acc (Mentions env) name) :
    Reads (next env) (.text 0) (value env name) (.text 0) := by
  induction hacc with
  | intro name _ ih =>
    obtain ⟨names, hnames⟩ := henv name
    exact hnames.reads fun a ha => ih a ⟨names, hnames, ha⟩

/-- **References as a graph.** If the text and all values are closed, a chain of references that
goes on forever is an infinite path in the graph of which variable refers to which. -/
theorem not_endlessReferences_iff {names : List (List Char)} (htext : Closed text names)
    (henv : ∀ name, ∃ names, Closed (value env name) names) :
    ¬EndlessReferences env text ↔ ∀ name ∈ names, Acc (Mentions env) name := by
  rw [EndlessReferences, ← exists_reads_iff, exists_reads_iff_acc]
  constructor
  · exact fun h => (htext.acc_mentions henv h).2
  · intro h
    exact (htext.reads fun name hmem => reads_value_of_acc henv (h name hmem)).acc

end EnvironmentVariables

end UtilityFramework
