import Mathlib.Data.List.Basic
import Mathlib.Data.List.Induction
import Mathlib.Order.Defs.Unbundled

/-!
# Ordered and hashed containers

Containers of entries under keys, as a standard library has them. `OrderedContainer` keeps its
entries in the order of a comparison and finds an entry with it alone. `HashedContainer` keeps
them in buckets by a hash and finds an entry in its bucket with an equality.

Both behave as a map whose keys are taken up to the equality (`OrderedContainer.find_run`,
`HashedContainer.find_run`): the first if the comparison is a strict weak order whose equivalence
is the equality, the second if the equality is an equivalence that the hash respects.
-/

namespace UtilityFramework

universe u v

variable {κ : Type u} {ν : Type v}

/-! ### Maps -/

/-- `emplace`, which leaves an entry as it is, assignment through `operator[]`, and `erase`. -/
inductive ContainerCall (κ : Type u) (ν : Type v)
  | emplace (key : κ) (value : ν)
  | assign (key : κ) (value : ν)
  | erase (key : κ)

namespace ContainerCall

variable (equal : κ → κ → Bool)

/-- What a call does to a map with keys up to the equality. -/
def apply (m : κ → Option ν) : ContainerCall κ ν → κ → Option ν
  | .emplace key value, k => if equal key k then some ((m key).getD value) else m k
  | .assign key value, k => if equal key k then some value else m k
  | .erase key, k => if equal key k then none else m k

/-- The map after the calls. -/
def applyAll (calls : List (ContainerCall κ ν)) : κ → Option ν :=
  calls.foldl (apply equal) fun _ => none

end ContainerCall

/-! ### Ordered containers -/

namespace OrderedContainer

section Operations

variable (lt : κ → κ → Bool)

/-- `find`: the first entry that is not before the key, if the key is not before it. -/
def find (k : κ) : List (κ × ν) → Option ν
  | [] => none
  | (key, value) :: m => if lt key k then find k m else if lt k key then none else some value

/-- Assignment through `operator[]`. -/
def assign (k : κ) (v : ν) : List (κ × ν) → List (κ × ν)
  | [] => [(k, v)]
  | (key, value) :: m =>
    if lt key k then (key, value) :: assign k v m
    else if lt k key then (k, v) :: (key, value) :: m
    else (key, v) :: m

def erase (k : κ) : List (κ × ν) → List (κ × ν)
  | [] => []
  | (key, value) :: m =>
    if lt key k then (key, value) :: erase k m else if lt k key then (key, value) :: m else m

/-- One call. -/
def step (m : List (κ × ν)) : ContainerCall κ ν → List (κ × ν)
  | .emplace k v => if (find lt k m).isSome then m else assign lt k v m
  | .assign k v => assign lt k v m
  | .erase k => erase lt k m

/-- The container after the calls. -/
def run (calls : List (ContainerCall κ ν)) : List (κ × ν) := calls.foldl (step lt) []

/-- The entries are in order, no key twice. -/
def Sorted (m : List (κ × ν)) : Prop := m.Pairwise fun e e' => lt e.1 e'.1 = true

end Operations

/-- The comparison is a strict weak order, and what it does not distinguish is equal. -/
structure Orders (lt equal : κ → κ → Bool) : Prop where
  order : IsStrictWeakOrder κ fun a b => lt a b = true
  equal_iff : ∀ a b, equal a b = true ↔ ¬lt a b = true ∧ ¬lt b a = true

section Laws

variable {lt equal : κ → κ → Bool} {m : List (κ × ν)} {a b c : κ}

theorem Orders.irrefl (h : Orders lt equal) (a : κ) : ¬lt a a = true :=
  h.order.toIsStrictOrder.irrefl a

theorem Orders.trans (h : Orders lt equal) (hab : lt a b = true) (hbc : lt b c = true) :
    lt a c = true :=
  h.order.toIsStrictOrder.trans a b c hab hbc

theorem Orders.asymm (h : Orders lt equal) (hab : lt a b = true) : ¬lt b a = true :=
  fun hba => h.irrefl a (h.trans hab hba)

theorem Orders.symm (h : Orders lt equal) (hab : equal a b = true) : equal b a = true :=
  (h.equal_iff b a).mpr ((h.equal_iff a b).mp hab).symm

theorem Orders.equal_trans (h : Orders lt equal) (hab : equal a b = true)
    (hbc : equal b c = true) : equal a c = true :=
  (h.equal_iff a c).mpr
    (h.order.incomp_trans a b c ((h.equal_iff a b).mp hab) ((h.equal_iff b c).mp hbc))

/-- Keys that are equal are before and behind the same keys. -/
theorem Orders.lt_of_lt_of_equal (h : Orders lt equal) (hab : lt a b = true)
    (hbc : equal b c = true) : lt a c = true := by
  by_contra hac
  have hbc' := (h.equal_iff b c).mp hbc
  by_cases hca : lt c a = true
  · exact hbc'.2 (h.trans hca hab)
  · -- otherwise all three are equal
    exact (h.order.incomp_trans a c b ⟨hac, hca⟩ hbc'.symm).1 hab

theorem Orders.lt_of_equal_of_lt (h : Orders lt equal) (hab : equal a b = true)
    (hbc : lt b c = true) : lt a c = true := by
  by_contra hac
  have hab' := (h.equal_iff a b).mp hab
  by_cases hca : lt c a = true
  · exact hab'.2 (h.trans hbc hca)
  · exact (h.order.incomp_trans b a c hab'.symm ⟨hac, hca⟩).1 hbc

theorem Orders.lt_of_not_equal (h : Orders lt equal) (hne : ¬equal a b = true)
    (hlt : ¬lt a b = true) : lt b a = true := by
  by_contra hgt
  exact hne ((h.equal_iff a b).mpr ⟨hlt, hgt⟩)

theorem Orders.equal_of_not_lt (h : Orders lt equal) (hab : ¬lt a b = true)
    (hba : ¬lt b a = true) : equal a b = true :=
  (h.equal_iff a b).mpr ⟨hab, hba⟩

/-- A key before all entries has no entry. -/
theorem find_eq_none_of_lt (h : Orders lt equal) (hlt : ∀ e ∈ m, lt a e.1 = true) :
    find lt a m = none := by
  cases m with
  | nil => rfl
  | cons e m =>
    have hfirst := hlt e List.mem_cons_self
    rw [find, if_neg (h.asymm hfirst), if_pos hfirst]

/-- Equal keys find the same. -/
theorem find_congr (h : Orders lt equal) (hab : equal a b = true) (m : List (κ × ν)) :
    find lt a m = find lt b m := by
  induction m with
  | nil => rfl
  | cons e m ih =>
    obtain ⟨key, value⟩ := e
    have hbefore : lt key a = true ↔ lt key b = true :=
      ⟨fun hlt => h.lt_of_lt_of_equal hlt hab, fun hlt => h.lt_of_lt_of_equal hlt (h.symm hab)⟩
    have hbehind : lt a key = true ↔ lt b key = true :=
      ⟨h.lt_of_equal_of_lt (h.symm hab), h.lt_of_equal_of_lt hab⟩
    rw [find, find, ih]
    exact if_congr hbefore rfl (if_congr hbehind rfl rfl)

/-- The keys behind a key are found behind it. -/
theorem find_cons_of_lt (k : κ) (v : ν) (hlt : lt k a = true) :
    find lt a ((k, v) :: m) = find lt a m := by
  rw [find, if_pos hlt]

theorem find_cons_of_equal (h : Orders lt equal) (k : κ) (v : ν) (heq : equal k a = true) :
    find lt a ((k, v) :: m) = some v := by
  have hne := (h.equal_iff k a).mp heq
  rw [find, if_neg hne.1, if_neg hne.2]

theorem find_cons_of_gt (h : Orders lt equal) (k : κ) (v : ν) (hlt : lt a k = true) :
    find lt a ((k, v) :: m) = none := by
  rw [find, if_neg (h.asymm hlt), if_pos hlt]

theorem mem_assign {k : κ} {v : ν} {e : κ × ν} (he : e ∈ assign lt k v m) :
    e.1 = k ∨ ∃ e' ∈ m, e.1 = e'.1 := by
  induction m with
  | nil => exact .inl (congrArg Prod.fst (List.mem_singleton.mp he))
  | cons e' m ih =>
    obtain ⟨key, value⟩ := e'
    rw [assign] at he
    split_ifs at he
    · rcases List.mem_cons.mp he with rfl | he
      · exact .inr ⟨_, List.mem_cons_self, rfl⟩
      · exact (ih he).imp_right fun ⟨e', he', heq⟩ => ⟨e', List.mem_cons_of_mem _ he', heq⟩
    · rcases List.mem_cons.mp he with rfl | he
      · exact .inl rfl
      · exact .inr ⟨e, he, rfl⟩
    · rcases List.mem_cons.mp he with rfl | he
      · exact .inr ⟨_, List.mem_cons_self, rfl⟩
      · exact .inr ⟨e, List.mem_cons_of_mem _ he, rfl⟩

theorem erase_sublist (lt : κ → κ → Bool) (k : κ) (m : List (κ × ν)) :
    (erase lt k m).Sublist m := by
  induction m with
  | nil => exact .slnil
  | cons e m ih =>
    obtain ⟨key, value⟩ := e
    rw [erase]
    split_ifs
    · exact ih.cons_cons _
    · exact .refl _
    · exact List.sublist_cons_self _ _

theorem Sorted.assign (hm : Sorted lt m) (h : Orders lt equal) (k : κ) (v : ν) :
    Sorted lt (assign lt k v m) := by
  induction m with
  | nil => exact List.pairwise_singleton _ _
  | cons e m ih =>
    obtain ⟨key, value⟩ := e
    obtain ⟨hhead, htail⟩ := List.pairwise_cons.mp hm
    rw [OrderedContainer.assign]
    split_ifs with hbefore hbehind
    · refine List.pairwise_cons.mpr ⟨fun e he => ?_, ih htail⟩
      rcases mem_assign he with heq | ⟨e', he', heq⟩
      · rw [heq]
        exact hbefore
      · rw [heq]
        exact hhead e' he'
    · refine List.pairwise_cons.mpr ⟨fun e he => ?_, hm⟩
      rcases List.mem_cons.mp he with rfl | he
      · exact hbehind
      · exact h.trans hbehind (hhead e he)
    · exact List.pairwise_cons.mpr ⟨hhead, htail⟩

/-- **Assignment** gives the key its value and leaves the others alone. -/
theorem find_assign (h : Orders lt equal) (hm : Sorted lt m) (k j : κ) (v : ν) :
    find lt j (assign lt k v m) = if equal k j then some v else find lt j m := by
  split_ifs with heq
  · rw [← find_congr h heq]
    induction m with
    | nil => exact find_cons_of_equal h k v (h.equal_of_not_lt (h.irrefl k) (h.irrefl k))
    | cons e m ih =>
      obtain ⟨key, value⟩ := e
      rw [assign]
      split_ifs with hbefore hbehind
      · rw [find_cons_of_lt key value hbefore, ih (List.pairwise_cons.mp hm).2]
      · exact find_cons_of_equal h k v (h.equal_of_not_lt (h.irrefl k) (h.irrefl k))
      · exact find_cons_of_equal h key v (h.equal_of_not_lt hbefore hbehind)
  · induction m with
    | nil =>
      by_cases hlt : lt k j = true
      · exact find_cons_of_lt k v hlt
      · exact find_cons_of_gt h k v (h.lt_of_not_equal heq hlt)
    | cons e m ih =>
      obtain ⟨key, value⟩ := e
      obtain ⟨hhead, htail⟩ := List.pairwise_cons.mp hm
      rw [assign]
      split_ifs with hbefore hbehind
      · rw [find, find, ih htail]
      · -- the new entry is before all others
        by_cases hlt : lt k j = true
        · exact find_cons_of_lt k v hlt
        · have hgt := h.lt_of_not_equal heq hlt
          rw [find_cons_of_gt h k v hgt, find_cons_of_gt h key value (h.trans hgt hbehind)]
      · -- the entry of the key has its value replaced, and `j` is not equal to its key
        have hkey := h.equal_of_not_lt hbefore hbehind
        have hne : ¬equal key j = true := fun hj => heq (h.equal_trans (h.symm hkey) hj)
        by_cases hlt : lt key j = true
        · rw [find_cons_of_lt key v hlt, find_cons_of_lt key value hlt]
        · have hgt := h.lt_of_not_equal hne hlt
          rw [find_cons_of_gt h key v hgt, find_cons_of_gt h key value hgt]

/-- **Erasing** takes the entry of the key out and leaves the others alone. -/
theorem find_erase (h : Orders lt equal) (hm : Sorted lt m) (k j : κ) :
    find lt j (erase lt k m) = if equal k j then none else find lt j m := by
  split_ifs with heq
  · rw [← find_congr h heq]
    induction m with
    | nil => rfl
    | cons e m ih =>
      obtain ⟨key, value⟩ := e
      obtain ⟨hhead, htail⟩ := List.pairwise_cons.mp hm
      rw [erase]
      split_ifs with hbefore hbehind
      · rw [find_cons_of_lt key value hbefore, ih htail]
      · exact find_cons_of_gt h key value hbehind
      · -- the entries that are left are behind the key
        have hkey := h.symm (h.equal_of_not_lt hbefore hbehind)
        exact find_eq_none_of_lt h fun e he => h.lt_of_equal_of_lt hkey (hhead e he)
  · induction m with
    | nil => rfl
    | cons e m ih =>
      obtain ⟨key, value⟩ := e
      obtain ⟨hhead, htail⟩ := List.pairwise_cons.mp hm
      rw [erase]
      split_ifs with hbefore hbehind
      · rw [find, find, ih htail]
      · rfl
      · have hkey := h.equal_of_not_lt hbefore hbehind
        have hne : ¬equal key j = true := fun hj => heq (h.equal_trans (h.symm hkey) hj)
        by_cases hlt : lt key j = true
        · exact (find_cons_of_lt key value hlt).symm
        · have hgt := h.lt_of_not_equal hne hlt
          rw [find_cons_of_gt h key value hgt]
          exact find_eq_none_of_lt h fun e he => h.trans hgt (hhead e he)

/-- One call does to what is found what it does to a map. -/
theorem find_step (h : Orders lt equal) (hm : Sorted lt m) (call : ContainerCall κ ν) :
    Sorted lt (step lt m call) ∧
      ∀ k, find lt k (step lt m call) = call.apply equal (fun k => find lt k m) k := by
  cases call with
  | emplace key value =>
    rw [step]
    split_ifs with hsome
    · refine ⟨hm, fun k => ?_⟩
      rw [ContainerCall.apply]
      split_ifs with heq
      · obtain ⟨old, hold⟩ := Option.isSome_iff_exists.mp hsome
        rw [← find_congr h heq, hold, Option.getD_some]
      · rfl
    · refine ⟨hm.assign h key value, fun k => ?_⟩
      rw [find_assign h hm, ContainerCall.apply, Option.not_isSome_iff_eq_none.mp hsome,
        Option.getD_none]
  | assign key value => exact ⟨hm.assign h key value, fun k => find_assign h hm key k value⟩
  | erase key => exact ⟨hm.sublist (erase_sublist lt key m), fun k => find_erase h hm key k⟩

/-- **Ordered containers** are maps up to the equality. -/
theorem find_run (h : Orders lt equal) (calls : List (ContainerCall κ ν)) (k : κ) :
    find lt k (run lt calls) = ContainerCall.applyAll equal calls k := by
  have hstep : Sorted lt (run lt calls) ∧
      ∀ k, find lt k (run lt calls) = ContainerCall.applyAll equal calls k := by
    induction calls using List.reverseRecOn with
    | nil => exact ⟨List.Pairwise.nil, fun _ => rfl⟩
    | append_singleton calls call ih =>
      obtain ⟨hsorted, hfind⟩ := ih
      rw [run, List.foldl_append, ContainerCall.applyAll, List.foldl_append]
      obtain ⟨hsorted', hfind'⟩ := find_step h hsorted call
      refine ⟨hsorted', fun k => (hfind' k).trans ?_⟩
      exact congrArg (fun f => ContainerCall.apply equal f call k) (funext hfind)
  exact hstep.2 k

end Laws

end OrderedContainer

/-! ### Hashed containers -/

/-- Buckets of entries. -/
abbrev HashedContainer (κ : Type u) (ν : Type v) := ℕ → List (κ × ν)

namespace HashedContainer

/-- The equality is an equivalence, and equal keys have equal hashes. -/
structure Hashes (hash : κ → ℕ) (equal : κ → κ → Bool) : Prop where
  equivalence : Equivalence fun a b => equal a b = true
  hash_eq : ∀ a b, equal a b = true → hash a = hash b

section Operations

variable (hash : κ → ℕ) (equal : κ → κ → Bool) (size : ℕ)

/-- The bucket of a key. -/
def bucket (k : κ) : ℕ := hash k % size

def find (m : HashedContainer κ ν) (k : κ) : Option ν :=
  ((m (bucket hash size k)).find? fun e => equal e.1 k).map Prod.snd

/-- Assignment through `operator[]`: a new entry goes to the front of its bucket. -/
def assign (m : HashedContainer κ ν) (k : κ) (v : ν) : HashedContainer κ ν :=
  Function.update m (bucket hash size k)
    (if (find hash equal size m k).isSome then
      (m (bucket hash size k)).map fun e => if equal e.1 k then (e.1, v) else e
    else (k, v) :: m (bucket hash size k))

def erase (m : HashedContainer κ ν) (k : κ) : HashedContainer κ ν :=
  Function.update m (bucket hash size k)
    ((m (bucket hash size k)).filter fun e => !equal e.1 k)

/-- One call. -/
def step (m : HashedContainer κ ν) : ContainerCall κ ν → HashedContainer κ ν
  | .emplace k v =>
    if (find hash equal size m k).isSome then m else assign hash equal size m k v
  | .assign k v => assign hash equal size m k v
  | .erase k => erase hash equal size m k

/-- The container of `size` buckets after the calls. -/
def run (calls : List (ContainerCall κ ν)) : HashedContainer κ ν :=
  calls.foldl (step hash equal size) fun _ => []

end Operations

section Laws

variable {hash : κ → ℕ} {equal : κ → κ → Bool} {size : ℕ} {m : HashedContainer κ ν} {k j : κ}

theorem Hashes.symm (h : Hashes hash equal) (hkj : equal k j = true) : equal j k = true :=
  h.equivalence.symm hkj

theorem Hashes.bucket_eq (h : Hashes hash equal) (size : ℕ) (hkj : equal k j = true) :
    bucket hash size k = bucket hash size j := by
  rw [bucket, bucket, h.hash_eq k j hkj]

/-- Entries are equal to equal keys alike. -/
theorem Hashes.equal_congr (h : Hashes hash equal) (hkj : equal k j = true) (a : κ) :
    equal a k = equal a j :=
  Bool.eq_iff_iff.mpr ⟨fun hak => h.equivalence.trans hak hkj,
    fun haj => h.equivalence.trans haj (h.symm hkj)⟩

theorem find_congr (h : Hashes hash equal) (m : HashedContainer κ ν) (hkj : equal k j = true) :
    find hash equal size m k = find hash equal size m j := by
  rw [find, find, h.bucket_eq size hkj]
  simp only [h.equal_congr hkj]

theorem isSome_find_iff : (find hash equal size m k).isSome = true ↔
    ∃ e ∈ m (bucket hash size k), equal e.1 k = true := by
  rw [find, Option.isSome_map, List.find?_isSome]

/-- What is in one bucket is found there. -/
theorem find_update (b : ℕ) (l : List (κ × ν)) :
    find hash equal size (Function.update m b l) j =
      if bucket hash size j = b then (l.find? fun e => equal e.1 j).map Prod.snd
      else find hash equal size m j := by
  rw [find, find]
  split_ifs with hb
  · rw [hb, Function.update_self]
  · rw [Function.update_of_ne hb]

/-- A bucket in which the entry of `k` has its value replaced. -/
theorem find?_replace (h : Hashes hash equal) (v : ν) {l : List (κ × ν)}
    (hl : ∃ e ∈ l, equal e.1 k = true) :
    ((l.map fun e => if equal e.1 k then (e.1, v) else e).find? fun e => equal e.1 j).map
        Prod.snd =
      if equal k j then some v else (l.find? fun e => equal e.1 j).map Prod.snd := by
  by_cases hkj : equal k j = true
  · rw [if_pos hkj]
    simp only [← h.equal_congr hkj]
    induction l with
    | nil => simp at hl
    | cons e l ih =>
      by_cases hfirst : equal e.1 k = true
      · simp [hfirst]
      · rw [List.map_cons, if_neg hfirst, List.find?_cons, Bool.eq_false_iff.mpr hfirst]
        refine ih ?_
        obtain ⟨e', he', heq'⟩ := hl
        rcases List.mem_cons.mp he' with rfl | he'
        · exact absurd heq' hfirst
        · exact ⟨e', he', heq'⟩
  · -- entries of the key are not equal to `j`
    rw [if_neg hkj]
    clear hl
    induction l with
    | nil => rfl
    | cons e l ih =>
      by_cases hfirst : equal e.1 k = true
      · have hej : ¬equal e.1 j = true := fun hj => hkj (h.equivalence.trans (h.symm hfirst) hj)
        simp only [List.map_cons, if_pos hfirst, List.find?_cons, Bool.eq_false_iff.mpr hej]
        exact ih
      · simp only [List.map_cons, if_neg hfirst, List.find?_cons]
        split
        · rfl
        · exact ih

/-- **Assignment** gives the key its value and leaves the others alone. -/
theorem find_assign (h : Hashes hash equal) (m : HashedContainer κ ν) (k j : κ) (v : ν) :
    find hash equal size (assign hash equal size m k v) j =
      if equal k j then some v else find hash equal size m j := by
  rw [assign, find_update]
  by_cases hbucket : bucket hash size j = bucket hash size k
  · rw [if_pos hbucket]
    split_ifs with hsome hkj hkj
    · rw [find?_replace h v (isSome_find_iff.mp hsome), if_pos hkj]
    · rw [find?_replace h v (isSome_find_iff.mp hsome), if_neg hkj, find, hbucket]
    · simp [hkj]
    · rw [List.find?_cons, Bool.eq_false_iff.mpr hkj, find, hbucket]
  · rw [if_neg hbucket, if_neg fun hkj => hbucket (h.bucket_eq size hkj).symm]

/-- **Erasing** takes the entry of the key out and leaves the others alone. -/
theorem find_erase (h : Hashes hash equal) (m : HashedContainer κ ν) (k j : κ) :
    find hash equal size (erase hash equal size m k) j =
      if equal k j then none else find hash equal size m j := by
  rw [erase, find_update]
  by_cases hkj : equal k j = true
  · rw [if_pos (h.bucket_eq size hkj).symm, if_pos hkj, Option.map_eq_none_iff,
      List.find?_eq_none]
    intro e he
    rw [List.mem_filter, h.equal_congr hkj] at he
    simpa using he.2
  · rw [if_neg hkj]
    split_ifs with hbucket
    · rw [find, hbucket, List.find?_filter]
      congr 2
      funext e
      by_cases hj : equal e.1 j = true
      · have hek : equal e.1 k = false := Bool.eq_false_iff.mpr fun hk =>
          hkj (h.equivalence.trans (h.symm hk) hj)
        simp [hj, hek]
      · simp [hj]
    · rfl

/-- One call does to what is found what it does to a map. -/
theorem find_step (h : Hashes hash equal) (m : HashedContainer κ ν) (call : ContainerCall κ ν)
    (k : κ) : find hash equal size (step hash equal size m call) k =
      call.apply equal (find hash equal size m) k := by
  cases call with
  | emplace key value =>
    rw [step, ContainerCall.apply]
    split_ifs with hsome heq heq
    · obtain ⟨old, hold⟩ := Option.isSome_iff_exists.mp hsome
      rw [← find_congr h m heq, hold, Option.getD_some]
    · rfl
    · rw [find_assign h, if_pos heq, Option.not_isSome_iff_eq_none.mp hsome, Option.getD_none]
    · rw [find_assign h, if_neg heq]
  | assign key value => exact find_assign h m key k value
  | erase key => exact find_erase h m key k

/-- **Hashed containers** are maps up to the equality, for any number of buckets. -/
theorem find_run (h : Hashes hash equal) (size : ℕ) (calls : List (ContainerCall κ ν)) (k : κ) :
    find hash equal size (run hash equal size calls) k =
      ContainerCall.applyAll equal calls k := by
  induction calls using List.reverseRecOn generalizing k with
  | nil => rfl
  | append_singleton calls call ih =>
    rw [run, List.foldl_append, ContainerCall.applyAll, List.foldl_append]
    refine (find_step h (run hash equal size calls) call k).trans ?_
    exact congrArg (fun f => ContainerCall.apply equal f call k) (funext ih)

end Laws

end HashedContainer

end UtilityFramework
