import UtilityFramework.Parsers.Pool

/-!
# Clients of the pool of parsers do not see each other

`PoolState.Separated` is the invariant: what one client reaches, no other one does.
`PoolState.Private` says of a call that it keeps the invariant and leaves the bytes that the other
clients reach as they are; it is transitive, so that the calls are put together from the changes
they make. A parser that is handed out reads as zero.
-/

namespace UtilityFramework

open Bytes Transition

/-! ### Paths -/

namespace ParserTree

variable {t : ParserTree}

theorem descend_append (path ext : List String) (t : ParserTree) :
    t.descend (path ++ ext) = (t.descend path).bind fun sub => sub.descend ext := by
  induction path generalizing t with
  | nil => rfl
  | cons name path ih =>
    rw [List.cons_append, descend, descend]
    cases (t.entry name).bind id with
    | none => rfl
    | some sub => exact ih sub

theorem uses_self (t : ParserTree) : t.Uses t.buffer := ⟨[], t, rfl, rfl⟩

/-- What holds of the new parsers of all nested fields holds of the entries of a new parser. -/
theorem mem_parseNested {buffer off : ℕ} {nodes : List Node} {Q : String → ParserTree → Prop}
    {parsers : List (String × Option ParserTree)}
    (hparsers : ∀ e ∈ parsers, ∀ sub, e.2 = some sub → Q e.1 sub)
    (hnew : ∀ node ∈ nodes, ∀ m, node.nested = some m →
      Q node.name (create buffer m (off + node.offset))) :
    ∀ e ∈ parseNested buffer nodes off parsers, ∀ sub, e.2 = some sub → Q e.1 sub := by
  induction nodes generalizing parsers with
  | nil => exact hparsers
  | cons node nodes ih =>
    have hnode := hnew node List.mem_cons_self
    rw [parseNested]
    split
    · exact hparsers
    · rename_i parsers' hbuild
      refine ih (fun e he sub hsub => ?_) fun n hn => hnew n (List.mem_cons_of_mem node hn)
      obtain ⟨name, offset, _, type, _, _, _, nested, _, _, _⟩ := node
      rw [buildNestedParser] at hbuild
      split at hbuild
      · exact hparsers e (Option.some.inj hbuild ▸ he) sub hsub
      · split at hbuild
        · rw [← Option.some.inj hbuild] at he
          obtain ⟨e', he', rfl⟩ := List.mem_map.mp he
          split at hsub
          · cases hsub
          · rename_i hname
            rw [if_neg hname]
            exact hparsers e' he' sub hsub
        · obtain ⟨parser, hparser, rfl⟩ := Option.map_eq_some_iff.mp hbuild
          rcases List.mem_append.mp he with he | he
          · exact hparsers e he sub hsub
          · rw [List.mem_singleton.mp he] at hsub ⊢
            obtain rfl := Option.some.inj hsub
            cases nested with
            | none => cases hparser
            | some m =>
              obtain rfl := Option.some.inj hparser
              exact hnode m rfl

/-- The nested parsers of a new parser are those of the new parsers of its fields. -/
theorem descend_cons_create {buffer off : ℕ} {m : BinaryMetadata} {name : String}
    {path : List String} {sub : ParserTree}
    (h : (create buffer m off).descend (name :: path) = some sub) :
    ∃ node ∈ m.nodes, ∃ n, node.name = name ∧ node.nested = some n ∧
      (create buffer n (off + node.offset)).descend path = some sub := by
  rw [descend] at h
  obtain ⟨next, hnext, h⟩ := Option.bind_eq_some_iff.mp h
  obtain ⟨e', he', rfl⟩ := Option.bind_eq_some_iff.mp hnext
  obtain ⟨e, he, hsnd⟩ := Option.map_eq_some_iff.mp he'
  obtain ⟨_, _, nodes, _⟩ := m
  have hmem : e ∈ parseNested buffer nodes off [] := List.mem_of_find?_eq_some he
  have hname : e.1 = name := by simpa using List.find?_some he
  obtain ⟨node, hnode, n, hn, hnested, rfl⟩ := mem_parseNested
    (Q := fun name sub => ∃ node ∈ nodes, ∃ n, node.name = name ∧ node.nested = some n ∧
      sub = create buffer n (off + node.offset))
    (fun e he => absurd he List.not_mem_nil)
    (fun node hnode n hn => ⟨node, hnode, n, rfl, hn, rfl⟩) e hmem next hsnd
  exact ⟨node, hnode, n, hn.trans hname, hnested, h⟩

theorem buffer_create (buffer off : ℕ) (m : BinaryMetadata) :
    (create buffer m off).buffer = buffer := by
  cases m
  rfl

/-- All parsers of a new tree have its buffer. -/
theorem buffer_of_descend_create {buffer off : ℕ} {m : BinaryMetadata} {path : List String}
    {sub : ParserTree} (h : (create buffer m off).descend path = some sub) :
    sub.buffer = buffer := by
  induction path generalizing m off with
  | nil =>
    rw [← Option.some.inj h]
    exact buffer_create buffer off m
  | cons name path ih =>
    obtain ⟨node, -, n, -, -, h⟩ := descend_cons_create h
    exact ih h

/-- What of a parser matters to its own reads: its metadata, buffer and offset. -/
def view (t : ParserTree) : BinaryMetadata × ℕ × ℕ := (t.metadata, t.buffer, t.offset)

/-- Replacing a buffer leads on through the entry of the first name of the path only. -/
theorem entry_setBuffer {m : BinaryMetadata} {b' o : ℕ} {l : List (String × Option ParserTree)}
    (b : ℕ) (name name' : String) (path : List String) :
    ((mk m b' o l).setBuffer b (name :: path)).entry name' =
      if name' = name then ((mk m b' o l).entry name').map (Option.map (setBuffer b path))
      else (mk m b' o l).entry name' := by
  rw [setBuffer, entry, entry, parsers, parsers, List.find?_map]
  have hkey : ((fun e : String × Option ParserTree => decide (e.1 = name')) ∘
      fun e => if e.1 = name then (e.1, e.2.map (setBuffer b path)) else e) =
        fun e => decide (e.1 = name') := by
    funext e
    simp only [Function.comp]
    split <;> rfl
  rw [hkey]
  cases hfind : l.find? fun e => decide (e.1 = name') with
  | none => simp
  | some e =>
    have hname : e.1 = name' := by simpa using List.find?_some hfind
    simp only [Option.map_some]
    by_cases h : name' = name
    · rw [if_pos h, if_pos (hname.trans h)]
    · rw [if_neg h, if_neg (hname ▸ h)]

/-- Replacing the buffer at a path changes the view of the parser there and of no other. -/
theorem view_descend_setBuffer (b : ℕ) (path path' : List String) (t : ParserTree) :
    ((t.setBuffer b path).descend path').map view =
      if path' = path then (t.descend path').map fun sub => (sub.metadata, b, sub.offset)
      else (t.descend path').map view := by
  induction path generalizing t path' with
  | nil =>
    cases t
    cases path' with
    | nil => rfl
    | cons name path' => rfl
  | cons name path ih =>
    obtain ⟨m, b', o, l⟩ := t
    cases path' with
    | nil => rfl
    | cons name' path' =>
      rw [descend, descend, entry_setBuffer]
      by_cases h : name' = name
      · subst h
        rw [if_pos rfl]
        cases (mk m b' o l).entry name' with
        | none => simp
        | some e =>
          cases e with
          | none => simp
          | some sub =>
            simp only [Option.map_some, Option.bind_some, id, List.cons.injEq, true_and]
            exact ih path' sub
      · rw [if_neg h, if_neg (by simp [h])]

end ParserTree

/-! ### Sharing -/

namespace PoolState

variable {s s' : PoolState} {b client : ℕ} {handle : Handle}

theorem object_append_path {tree : ℕ} {path ext : List String} {t sub : ParserTree}
    (ht : s.object (.parser tree path) = some t) (hsub : t.descend ext = some sub) :
    s.object (.parser tree (path ++ ext)) = some sub := by
  obtain ⟨root, hroot, hdescend⟩ := Option.bind_eq_some_iff.mp ht
  rw [object, hroot, Option.bind_some, ParserTree.descend_append, hdescend]
  exact hsub

/-- A parser reaches the buffers of the parsers under it. -/
theorem reaches_parser_iff {tree : ℕ} {path : List String} :
    s.Reaches b (.parser tree path) ↔
      ∃ ext sub, s.object (.parser tree (path ++ ext)) = some sub ∧ sub.buffer = b := by
  constructor
  · rintro ⟨t, ht, ext, sub, hsub, hb⟩
    exact ⟨ext, sub, object_append_path ht hsub, hb⟩
  · rintro ⟨ext, sub, hsub, hb⟩
    obtain ⟨root, hroot, hdescend⟩ := Option.bind_eq_some_iff.mp hsub
    rw [ParserTree.descend_append] at hdescend
    obtain ⟨t, ht, hext⟩ := Option.bind_eq_some_iff.mp hdescend
    exact ⟨t, by rw [object, hroot]; exact ht, ext, sub, hext, hb⟩

theorem reaches_self {tree : ℕ} {path : List String} {t : ParserTree}
    (ht : s.object (.parser tree path) = some t) : s.Reaches t.buffer (.parser tree path) :=
  ⟨t, ht, t.uses_self⟩

theorem reaches_congr (h : s'.trees = s.trees) : s'.Reaches b handle ↔ s.Reaches b handle := by
  cases handle with
  | parser tree path => simp only [Reaches, object, h]
  | buffer id => exact Iff.rfl

/-- What is seen through a handle is determined by the parsers it leads to and by the buffers
that can be reached through it. -/
theorem bytes_eq
    (hview : ∀ tree path, handle = .parser tree path → ∀ ext,
      (s'.object (.parser tree (path ++ ext))).map ParserTree.view =
        (s.object (.parser tree (path ++ ext))).map ParserTree.view)
    (hheap : ∀ b, s.Reaches b handle → s'.heap[b]? = s.heap[b]?) (ext : List String) :
    s'.bytes ext handle = s.bytes ext handle := by
  cases handle with
  | buffer id => exact hheap id rfl
  | parser tree path =>
    have hv := hview tree path rfl ext
    cases hobj : s.object (.parser tree (path ++ ext)) with
    | none =>
      rw [hobj, Option.map_none, Option.map_eq_none_iff] at hv
      simp only [bytes, hobj, hv]
      rfl
    | some t =>
      rw [hobj, Option.map_some] at hv
      obtain ⟨t', ht', hsame⟩ := Option.map_eq_some_iff.mp hv
      obtain ⟨hm, hb, ho⟩ : t'.metadata = t.metadata ∧ t'.buffer = t.buffer ∧
          t'.offset = t.offset := by
        simpa [ParserTree.view] using hsame
      have hreach : s.Reaches t.buffer (.parser tree path) :=
        reaches_parser_iff.mpr ⟨ext, t, hobj, rfl⟩
      simp only [bytes, hobj, ht', Option.bind_eq_bind, Option.bind_some, hb, hm, ho,
        hheap _ hreach]

/-- **The invariant of the pool.** Handles refer to parsers that exist, parsers to buffers that
exist, and all handles that lead to a buffer belong to one client. -/
structure Separated (s : PoolState) : Prop where
  tree_lt : ∀ client tree path, (client, .parser tree path) ∈ s.handles → tree < s.trees.length
  object_lt : ∀ tree path t, s.object (.parser tree path) = some t → t.buffer < s.heap.length
  buffer_lt : ∀ client b, (client, .buffer b) ∈ s.handles → b < s.heap.length
  owner : ∀ c h c' h' b, (c, h) ∈ s.handles → (c', h') ∈ s.handles → s.Reaches b h →
    s.Reaches b h' → c = c'

theorem separated_init : init.Separated where
  tree_lt _ _ _ h := absurd h List.not_mem_nil
  object_lt _ _ _ h := by simp [init, object] at h
  buffer_lt _ _ h := absurd h List.not_mem_nil
  owner _ _ _ _ _ h := absurd h List.not_mem_nil

/-- What a handle leads to exists. -/
theorem Separated.reaches_lt (h : s.Separated) (hmem : (client, handle) ∈ s.handles)
    (hreach : s.Reaches b handle) : b < s.heap.length := by
  cases handle with
  | buffer id => exact (hreach : id = b) ▸ h.buffer_lt client id hmem
  | parser tree path =>
    obtain ⟨ext, sub, hsub, rfl⟩ := reaches_parser_iff.mp hreach
    exact h.object_lt tree (path ++ ext) sub hsub

/-- What a client does is private: the pool stays separated, and the other clients keep their
handles and see the same bytes through them. -/
structure Private (client : ℕ) (s s' : PoolState) : Prop where
  separated : s'.Separated
  held : ∀ other handle, other ≠ client → (other, handle) ∈ s.handles →
    (other, handle) ∈ s'.handles
  bytes : ∀ other handle, other ≠ client → (other, handle) ∈ s.handles → ∀ ext,
    s'.bytes ext handle = s.bytes ext handle

namespace Private

theorem refl (h : s.Separated) : Private client s s :=
  ⟨h, fun _ _ _ hmem => hmem, fun _ _ _ _ _ => rfl⟩

theorem trans {s'' : PoolState} (h : Private client s s') (h' : Private client s' s'') :
    Private client s s'' where
  separated := h'.separated
  held other handle hne hmem := h'.held other handle hne (h.held other handle hne hmem)
  bytes other handle hne hmem ext := by
    rw [h'.bytes other handle hne (h.held other handle hne hmem), h.bytes other handle hne hmem]

/-- Writing into a buffer that no other client can reach. -/
theorem writeBuffer (h : s.Separated) (content : List UInt8)
    (hb : ∀ other handle, other ≠ client → (other, handle) ∈ s.handles → ¬s.Reaches b handle) :
    Private client s { s with heap := s.heap.set b content } := by
  refine ⟨⟨h.tree_lt, fun tree path t ht => ?_, fun c b hmem => ?_, ?_⟩,
    fun _ _ _ hmem => hmem, fun other handle hne hmem ext => ?_⟩
  · rw [List.length_set]
    exact h.object_lt tree path t ht
  · rw [List.length_set]
    exact h.buffer_lt c b hmem
  · intro c h₁ c' h₂ b hmem hmem' hreach hreach'
    exact h.owner c h₁ c' h₂ b hmem hmem' ((reaches_congr rfl).mp hreach)
      ((reaches_congr rfl).mp hreach')
  · refine bytes_eq ?_ ?_ ext
    · exact fun _ _ _ _ => rfl
    · intro b' hreach
      refine List.getElem?_set_ne ?_
      rintro rfl
      exact hb other handle hne hmem hreach

/-- Writing into a buffer the client can reach. -/
theorem writeOwn (h : s.Separated) (content : List UInt8)
    (hmem : (client, handle) ∈ s.handles) (hreach : s.Reaches b handle) :
    Private client s { s with heap := s.heap.set b content } :=
  writeBuffer h content fun other _ hne hother hreach' =>
    hne (h.owner other _ client _ b hother hmem hreach' hreach)

theorem addBuffer (client : ℕ) (h : s.Separated) (content : List UInt8) :
    Private client s { s with heap := s.heap ++ [content] } := by
  have hlen : s.heap.length ≤ (s.heap ++ [content]).length := by simp
  refine ⟨⟨h.tree_lt, fun tree path t ht => (h.object_lt tree path t ht).trans_le hlen,
    fun c b hmem => (h.buffer_lt c b hmem).trans_le hlen, ?_⟩,
    fun _ _ _ hmem => hmem, fun other handle hne hmem ext => ?_⟩
  · intro c h₁ c' h₂ b hmem hmem' hreach hreach'
    exact h.owner c h₁ c' h₂ b hmem hmem' ((reaches_congr rfl).mp hreach)
      ((reaches_congr rfl).mp hreach')
  · refine bytes_eq ?_ ?_ ext
    · exact fun _ _ _ _ => rfl
    · exact fun b hreach => List.getElem?_append_left (h.reaches_lt hmem hreach)

theorem object_append {t : ParserTree} {tree : ℕ} (htree : tree < s.trees.length)
    (path : List String) : object { s with trees := s.trees ++ [t] } (.parser tree path) =
      s.object (.parser tree path) := by
  simp only [object, List.getElem?_append_left htree]

theorem addTree (h : s.Separated) {t : ParserTree}
    (ht : ∀ path sub, t.descend path = some sub → sub.buffer < s.heap.length) :
    Private client s { s with trees := s.trees ++ [t] } := by
  have hreaches : ∀ {c handle b}, (c, handle) ∈ s.handles →
      Reaches { s with trees := s.trees ++ [t] } b handle → s.Reaches b handle := by
    intro c handle b hmem hreach
    cases handle with
    | buffer id => exact hreach
    | parser tree path =>
      obtain ⟨sub, hsub, huses⟩ := hreach
      rw [object_append (h.tree_lt c tree path hmem)] at hsub
      exact ⟨sub, hsub, huses⟩
  refine ⟨⟨fun c tree path hmem => ?_, fun tree path sub hsub => ?_, h.buffer_lt, ?_⟩,
    fun _ _ _ hmem => hmem, fun other handle hne hmem ext => ?_⟩
  · have hlt := h.tree_lt c tree path hmem
    simp only [List.length_append, List.length_singleton]
    omega
  · by_cases htree : tree < s.trees.length
    · rw [object_append htree] at hsub
      exact h.object_lt tree path sub hsub
    · obtain ⟨root, hroot, hdescend⟩ := Option.bind_eq_some_iff.mp hsub
      have hmem := List.mem_of_getElem? (List.getElem?_append_right (not_lt.mp htree) ▸ hroot)
      rw [List.mem_singleton.mp hmem] at hdescend
      exact ht path sub hdescend
  · exact fun c h₁ c' h₂ b hmem hmem' hreach hreach' =>
      h.owner c h₁ c' h₂ b hmem hmem' (hreaches hmem hreach) (hreaches hmem' hreach')
  · refine bytes_eq ?_ ?_ ext
    · rintro tree path rfl ext
      rw [object_append (h.tree_lt other tree path hmem)]
    · exact fun _ _ => rfl

/-- A client may get a handle that leads only to buffers no other client can reach. -/
theorem addHandle (h : s.Separated)
    (htree : ∀ tree path, handle = .parser tree path → tree < s.trees.length)
    (hbuffer : ∀ b, handle = .buffer b → b < s.heap.length)
    (howner : ∀ b other h', s.Reaches b handle → other ≠ client → (other, h') ∈ s.handles →
      ¬s.Reaches b h') :
    Private client s { s with handles := (client, handle) :: s.handles } := by
  have hreaches : ∀ {b handle}, Reaches { s with handles := (client, handle) :: s.handles } b
      handle → s.Reaches b handle := fun hreach => (reaches_congr rfl).mp hreach
  refine ⟨⟨fun c tree path hmem => ?_, h.object_lt, fun c b hmem => ?_, ?_⟩,
    fun _ _ _ hmem => List.mem_cons_of_mem _ hmem, fun other handle hne hmem ext => ?_⟩
  · rcases List.mem_cons.mp hmem with heq | hold
    · exact htree tree path (Prod.mk.inj heq).2.symm
    · exact h.tree_lt c tree path hold
  · rcases List.mem_cons.mp hmem with heq | hold
    · exact hbuffer b (Prod.mk.inj heq).2.symm
    · exact h.buffer_lt c b hold
  · intro c h₁ c' h₂ b hmem hmem' hreach hreach'
    rw [reaches_congr rfl] at hreach hreach'
    by_contra hne
    -- One of the two handles is the new one.
    rcases List.mem_cons.mp hmem with heq | hold <;>
      rcases List.mem_cons.mp hmem' with heq' | hold'
    · exact hne ((Prod.mk.inj heq).1.trans (Prod.mk.inj heq').1.symm)
    · obtain ⟨rfl, rfl⟩ := Prod.mk.inj heq
      exact howner b c' h₂ hreach (Ne.symm hne) hold' hreach'
    · obtain ⟨rfl, rfl⟩ := Prod.mk.inj heq'
      exact howner b c h₁ hreach' hne hold hreach
    · exact hne (h.owner c h₁ c' h₂ b hold hold' hreach hreach')
  · exact bytes_eq (fun _ _ _ _ => rfl) (fun _ _ => rfl) ext

/-- A handle that leads only to buffers the client can reach already. -/
theorem addOwn (h : s.Separated) (held : Handle) (hheld : (client, held) ∈ s.handles)
    (htree : ∀ tree path, handle = .parser tree path → tree < s.trees.length)
    (hbuffer : ∀ b, handle = .buffer b → b < s.heap.length)
    (hreach : ∀ b, s.Reaches b handle → s.Reaches b held) :
    Private client s { s with handles := (client, handle) :: s.handles } :=
  addHandle h htree hbuffer fun b other h' hb hne hmem hb' =>
    hne (h.owner other h' client held b hmem hheld hb' (hreach b hb))

theorem dropHandle (h : s.Separated) :
    Private client s { s with handles := s.handles.erase (client, handle) } := by
  refine ⟨⟨fun c tree path hmem => h.tree_lt c tree path (List.mem_of_mem_erase hmem),
    h.object_lt, fun c b hmem => h.buffer_lt c b (List.mem_of_mem_erase hmem), ?_⟩,
    fun other _ hne hmem => ?_, fun other handle hne hmem ext => ?_⟩
  · intro c h₁ c' h₂ b hmem hmem' hreach hreach'
    exact h.owner c h₁ c' h₂ b (List.mem_of_mem_erase hmem) (List.mem_of_mem_erase hmem')
      ((reaches_congr rfl).mp hreach) ((reaches_congr rfl).mp hreach')
  · exact (List.mem_erase_of_ne fun heq => hne (Prod.mk.inj heq).1).mpr hmem
  · exact bytes_eq (fun _ _ _ _ => rfl) (fun _ _ => rfl) ext

theorem setSlots (client : ℕ) (h : s.Separated) (slots : List (Option ℕ)) :
    Private client s { s with slots := slots } := by
  refine ⟨⟨h.tree_lt, h.object_lt, h.buffer_lt, ?_⟩, fun _ _ _ hmem => hmem,
    fun other handle hne hmem ext => bytes_eq (fun _ _ _ _ => rfl) (fun _ _ => rfl) ext⟩
  intro c h₁ c' h₂ b hmem hmem' hreach hreach'
  exact h.owner c h₁ c' h₂ b hmem hmem' ((reaches_congr rfl).mp hreach)
    ((reaches_congr rfl).mp hreach')

/-- The parsers after `parse(buffer)`. -/
theorem view_object_modify (tree tree' : ℕ) (path path' : List String) :
    (object { s with trees := s.trees.modify tree (ParserTree.setBuffer b path) }
      (.parser tree' path')).map ParserTree.view =
      if tree' = tree ∧ path' = path then
        (s.object (.parser tree' path')).map fun sub => (sub.metadata, b, sub.offset)
      else (s.object (.parser tree' path')).map ParserTree.view := by
  simp only [object, List.getElem?_modify]
  by_cases htree : tree = tree'
  · subst htree
    cases s.trees[tree]? with
    | none => simp
    | some t => simpa using ParserTree.view_descend_setBuffer b path path' t
  · rw [if_neg fun h => htree h.1.symm]
    simp [htree]

/-- Replacing the buffer of a parser of the client by a buffer of the client. Whoever holds
something above that parser is the client, so no other client's handle leads there. -/
theorem setBuffer (h : s.Separated) {tree : ℕ} {path : List String} {t : ParserTree}
    (hmem : (client, .parser tree path) ∈ s.handles) (hbuffer : (client, .buffer b) ∈ s.handles)
    (ht : s.object (.parser tree path) = some t) :
    Private client s { s with trees := s.trees.modify tree (ParserTree.setBuffer b path) } := by
  have howner : ∀ {c path'} ext, (c, .parser tree path') ∈ s.handles → path' ++ ext = path →
      c = client := by
    intro c path' ext hmem' hpath
    have hreach : s.Reaches t.buffer (.parser tree path') :=
      reaches_parser_iff.mpr ⟨ext, t, by rw [hpath]; exact ht, rfl⟩
    exact h.owner c _ client _ t.buffer hmem' hmem hreach (reaches_self ht)
  have hobject : ∀ {tree' path' sub'},
      object { s with trees := s.trees.modify tree (ParserTree.setBuffer b path) }
        (.parser tree' path') = some sub' →
      ∃ sub, s.object (.parser tree' path') = some sub ∧
        (sub'.buffer = sub.buffer ∨ tree' = tree ∧ path' = path ∧ sub'.buffer = b) := by
    intro tree' path' sub' hsub'
    have hview := view_object_modify (s := s) (b := b) tree tree' path path'
    rw [hsub', Option.map_some] at hview
    split at hview
    · rename_i heq
      obtain ⟨sub, hsub, hv⟩ := Option.map_eq_some_iff.mp hview.symm
      exact ⟨sub, hsub, .inr ⟨heq.1, heq.2, (Prod.mk.inj (Prod.mk.inj hv).2).1.symm⟩⟩
    · obtain ⟨sub, hsub, hv⟩ := Option.map_eq_some_iff.mp hview.symm
      exact ⟨sub, hsub, .inl (Prod.mk.inj (Prod.mk.inj hv).2).1.symm⟩
  -- What a client reaches afterwards it reached before, perhaps through another handle.
  have hreaches : ∀ {c handle b'}, (c, handle) ∈ s.handles →
      Reaches { s with trees := s.trees.modify tree (ParserTree.setBuffer b path) } b' handle →
      ∃ handle', (c, handle') ∈ s.handles ∧ s.Reaches b' handle' := by
    intro c handle b' hc hreach
    cases handle with
    | buffer id => exact ⟨.buffer id, hc, hreach⟩
    | parser tree' path' =>
      obtain ⟨ext, sub', hsub', hb'⟩ := reaches_parser_iff.mp hreach
      obtain ⟨sub, hsub, hsame | ⟨rfl, hpath, hnew⟩⟩ := hobject hsub'
      · exact ⟨_, hc, reaches_parser_iff.mpr ⟨ext, sub, hsub, hsame.symm.trans hb'⟩⟩
      · exact ⟨.buffer b, howner ext hc hpath ▸ hbuffer, hnew.symm.trans hb'⟩
  refine ⟨⟨fun c tree' path' hc => ?_, fun tree' path' sub' hsub' => ?_, h.buffer_lt, ?_⟩,
    fun _ _ _ hc => hc, fun other handle hne hc ext => ?_⟩
  · rw [List.length_modify]
    exact h.tree_lt c tree' path' hc
  · obtain ⟨sub, hsub, hsame | ⟨-, -, hnew⟩⟩ := hobject hsub'
    · rw [hsame]
      exact h.object_lt tree' path' sub hsub
    · rw [hnew]
      exact h.buffer_lt client b hbuffer
  · intro c h₁ c' h₂ b' hc hc' hreach hreach'
    obtain ⟨h₃, hc₃, hreach₃⟩ := hreaches hc hreach
    obtain ⟨h₄, hc₄, hreach₄⟩ := hreaches hc' hreach'
    exact h.owner c h₃ c' h₄ b' hc₃ hc₄ hreach₃ hreach₄
  · refine bytes_eq ?_ ?_ ext
    · rintro tree' path' rfl ext'
      rw [view_object_modify, if_neg]
      rintro ⟨rfl, hpath⟩
      exact hne (howner ext' hc hpath)
    · exact fun _ _ => rfl

end Private

/-! ### One call -/

/-- A parser that is handed out again. -/
theorem private_reuse (h : s.Separated) {tree : ℕ} {t : ParserTree} (content : List UInt8)
    (slots : List (Option ℕ)) (ht : s.trees[tree]? = some t)
    (hbuffers : ∀ path sub, t.descend path = some sub → sub.buffer = t.buffer)
    (hothers : ∀ other handle, (other, handle) ∈ s.handles → other ≠ client →
      ¬s.Reaches t.buffer handle) :
    Private client s ⟨s.heap.set t.buffer content, s.trees, slots,
      (client, .parser tree []) :: s.handles⟩ := by
  have hwrite : Private client s { s with heap := s.heap.set t.buffer content } :=
    Private.writeBuffer h content fun other handle hne hmem => hothers other handle hmem hne
  have hslots := Private.setSlots client hwrite.separated slots
  refine (hwrite.trans hslots).trans (Private.addHandle hslots.separated ?_ ?_ ?_)
  · rintro tree' path' heq
    obtain ⟨rfl, rfl⟩ := Handle.parser.inj heq
    exact (List.getElem?_eq_some_iff.mp ht).1
  · rintro b heq
    cases heq
  · rintro b other h' ⟨root, hroot, path, sub, hsub, rfl⟩ hne hmem hreach'
    have heq : root = t := by
      simpa [object, ht, ParserTree.descend] using hroot.symm
    subst heq
    rw [hbuffers path sub hsub] at hreach'
    exact hothers other h' hmem hne ((reaches_congr rfl).mp hreach')

/-- A parser on a buffer, made for a client. Either the buffer is new or the client can reach
it. -/
theorem private_addParser (h : s.Separated) {n : BinaryMetadata} {off : ℕ}
    (hb : b < s.heap.length)
    (hothers : ∀ other handle, (other, handle) ∈ s.handles → other ≠ client →
      ¬s.Reaches b handle) :
    Private client s { s with
      trees := s.trees ++ [.create b n off]
      handles := (client, .parser s.trees.length []) :: s.handles } := by
  have htree : Private client s { s with trees := s.trees ++ [.create b n off] } :=
    Private.addTree h fun path sub hsub => by
      rw [ParserTree.buffer_of_descend_create hsub]
      exact hb
  refine htree.trans (Private.addHandle htree.separated ?_ ?_ ?_)
  · rintro tree' path' heq
    obtain ⟨rfl, rfl⟩ := Handle.parser.inj heq
    simp
  · rintro b heq
    cases heq
  · rintro b' other h' ⟨root, hroot, path, sub, hsub, rfl⟩ hne hmem hreach'
    have heq : root = .create b n off := by
      simpa [object, ParserTree.descend] using hroot.symm
    subst heq
    rw [ParserTree.buffer_of_descend_create hsub] at hreach'
    refine hothers other h' hmem hne ?_
    cases h' with
    | buffer id => exact hreach'
    | parser tree path =>
      obtain ⟨sub', hsub', huses⟩ := hreach'
      rw [Private.object_append (h.tree_lt other tree path hmem)] at hsub'
      exact ⟨sub', hsub', huses⟩

theorem private_createParser {m : BinaryMetadata} {tree : ℕ} (h : s.Separated)
    (hok : s.ReusesUnshared (.createParser client))
    (hcreate : s.createParser m client = some (s', tree)) : Private client s s' := by
  rw [createParser] at hcreate
  obtain ⟨⟨k, item⟩, hitem, hcreate⟩ := Option.bind_eq_some_iff.mp hcreate
  cases item with
  | none =>
    obtain ⟨rfl, rfl⟩ := Prod.mk.inj (Option.some.inj hcreate)
    have hheap := Private.addBuffer client h (zeroes m.size)
    have hslots := Private.setSlots client hheap.separated
      (s.grownSlots.set k (some s.trees.length))
    refine (hheap.trans hslots).trans (private_addParser hslots.separated (by simp) ?_)
    intro other handle hmem hne hreach
    have hlt := h.reaches_lt hmem ((reaches_congr rfl).mp hreach)
    omega
  | some item =>
    obtain ⟨t, ht, hcreate⟩ := Option.bind_eq_some_iff.mp hcreate
    obtain ⟨buf, hbuf, hcreate⟩ := Option.bind_eq_some_iff.mp hcreate
    obtain ⟨rfl, rfl⟩ := Prod.mk.inj (Option.some.inj hcreate)
    obtain ⟨hbuffers, hothers⟩ := hok client k item t rfl hitem ht
    exact private_reuse h (zeroes buf.length) s.grownSlots ht hbuffers hothers

/-- A nested parser that a client asks one of its parsers for. -/
theorem private_readComplex {p : Platform} {m : BinaryMetadata} {client tree : ℕ}
    {path : List String} {name : String} (h : s.Separated)
    (hstep : s.step p m (.readComplex client tree path name) = some s') :
    Private client s s' := by
  rw [step] at hstep
  split at hstep
  · rename_i hmem
    obtain ⟨t, ht, hstep⟩ := Option.bind_eq_some_iff.mp hstep
    split at hstep
    · rw [← Option.some.inj hstep]
      exact Private.refl h
    · cases hstep
    · rw [← Option.some.inj hstep]
      refine Private.addOwn h (.parser tree path) hmem ?_ ?_ ?_
      · rintro tree' path' heq
        rw [← (Handle.parser.inj heq).1]
        exact h.tree_lt client tree path hmem
      · rintro b heq
        cases heq
      · intro b hreach
        obtain ⟨ext, sub, hsub, hb⟩ := reaches_parser_iff.mp hreach
        exact reaches_parser_iff.mpr ⟨name :: ext, sub, by simpa using hsub, hb⟩
  · cases hstep

/-- An element of an array that a client asks one of its parsers for. -/
theorem private_readComplexAt {p : Platform} {m : BinaryMetadata} {client tree : ℕ}
    {path : List String} {index arrayIndex : ℕ} (h : s.Separated)
    (hstep : s.step p m (.readComplexAt client tree path index arrayIndex) = some s') :
    Private client s s' := by
  rw [step] at hstep
  split at hstep
  · rename_i hmem
    obtain ⟨t, ht, hstep⟩ := Option.bind_eq_some_iff.mp hstep
    obtain ⟨element, helement, hstep⟩ := Option.bind_eq_some_iff.mp hstep
    cases element with
    | none =>
      rw [← Option.some.inj hstep]
      exact Private.refl h
    | some element =>
      rw [← Option.some.inj hstep]
      refine private_addParser h (h.object_lt tree path t ht) ?_
      intro other handle hother hne hreach
      exact hne (h.owner other handle client _ t.buffer hother hmem hreach (reaches_self ht))
  · cases hstep

/-- A buffer of a client's own. -/
theorem private_newBuffer {p : Platform} {m : BinaryMetadata} {client : ℕ}
    {content : List UInt8} (h : s.Separated)
    (hstep : s.step p m (.newBuffer client content) = some s') : Private client s s' := by
  rw [← Option.some.inj hstep]
  have hheap := Private.addBuffer client h content
  refine hheap.trans (Private.addHandle hheap.separated ?_ ?_ ?_)
  · rintro tree path heq
    cases heq
  · rintro b heq
    rw [← Handle.buffer.inj heq]
    simp
  · rintro b other h' (rfl : s.heap.length = b) hne hmem hreach
    have hlt := h.reaches_lt hmem ((reaches_congr rfl).mp hreach)
    omega

/-- **What one call does is private**, if it does not hand out a parser that is still shared. -/
theorem step_private {p : Platform} {m : BinaryMetadata} {call : PoolCall} (h : s.Separated)
    (hok : s.ReusesUnshared call) (hstep : s.step p m call = some s') :
    Private call.client s s' := by
  cases call with
  | createParser client =>
    obtain ⟨⟨s'', tree⟩, hcreate, rfl⟩ := Option.map_eq_some_iff.mp hstep
    exact private_createParser h hok hcreate
  | parse client tree path data =>
    rw [step] at hstep
    split at hstep
    · rename_i hmem
      obtain ⟨t, ht, hstep⟩ := Option.bind_eq_some_iff.mp hstep
      obtain ⟨buf, hbuf, hstep⟩ := Option.bind_eq_some_iff.mp hstep
      rw [← Option.some.inj hstep]
      exact Private.writeOwn h (parsed t data buf) hmem (reaches_self ht)
    · cases hstep
  | parseBuffer client tree path b =>
    rw [step] at hstep
    split at hstep
    · rename_i hmem
      obtain ⟨t, ht, hstep⟩ := Option.bind_eq_some_iff.mp hstep
      obtain ⟨content, hcontent, hstep⟩ := Option.bind_eq_some_iff.mp hstep
      split at hstep
      · rw [← Option.some.inj hstep]
        exact Private.refl h
      · rw [← Option.some.inj hstep]
        exact Private.setBuffer h hmem.1 hmem.2 ht
    · cases hstep
  | write client tree path call =>
    rw [step] at hstep
    split at hstep
    · rename_i hmem
      obtain ⟨t, ht, hstep⟩ := Option.bind_eq_some_iff.mp hstep
      obtain ⟨buf, hbuf, hstep⟩ := Option.bind_eq_some_iff.mp hstep
      obtain ⟨buf', hbuf', hstep⟩ := Option.bind_eq_some_iff.mp hstep
      rw [← Option.some.inj hstep]
      exact Private.writeOwn h buf' hmem (reaches_self ht)
    · cases hstep
  | readComplex client tree path name => exact private_readComplex h hstep
  | readComplexAt client tree path index arrayIndex => exact private_readComplexAt h hstep
  | newBuffer client content => exact private_newBuffer h hstep
  | release client handle =>
    rw [step] at hstep
    split at hstep
    · rw [← Option.some.inj hstep]
      exact Private.dropHandle h
    · cases hstep

/-! ### A parser that is handed out is empty -/

theorem safeRead_zeroes {n k off : ℕ} {data : List UInt8}
    (h : safeRead (zeroes n) k off = some data) : data = zeroes k := by
  obtain ⟨hle, rfl⟩ := safeRead_eq_some h
  rw [length_zeroes] at hle
  rw [zeroes, slice, List.drop_replicate, List.take_replicate, Nat.min_eq_left (by omega)]
  rfl

theorem convertOrder_zeroes (bigEndian : Bool) (n : ℕ) :
    convertOrder bigEndian (zeroes n) = zeroes n := by
  rw [convertOrder]
  split
  · induction n using Nat.twoStepInduction with
    | zero => rfl
    | one => rfl
    | more n ih _ => exact congrArg (fun l => 0 :: 0 :: l) ih
  · rfl

theorem readByNode_zeroes {p : Platform} {node : Node} {size off n : ℕ} {data : List UInt8}
    (h : readByNode p (zeroes size) off node n = some data) : ∃ k, data = zeroes k := by
  rw [readByNode] at h
  split at h
  · cases h
  · split at h
    · rw [readBitsByNode] at h
      obtain ⟨block, hblock, h⟩ := Option.bind_eq_some_iff.mp h
      rw [safeRead_zeroes hblock, BinaryNode.read] at h
      split at h
      · split at h
        · cases h
        · rw [← Option.some.inj h]
          refine ⟨node.size, ?_⟩
          rw [zeroes, List.take_replicate, Nat.min_self]
          exact convertOrder_zeroes node.bigEndian node.size
      · rename_i bits hbits
        split at h
        · cases h
        · rw [← Option.some.inj h]
          refine ⟨node.size, ?_⟩
          have hval : ofLE (zeroes node.size) = 0 := by
            simpa [zeroes] using ofLE_append_replicate_zero [] node.size
          have hbytes := toLE_ofLE (zeroes node.size)
          rw [length_zeroes, hval] at hbytes
          rw [hval, Nat.zero_and, Nat.zero_shiftRight, hbytes]
          exact convertOrder_zeroes node.bigEndian node.size
    · obtain ⟨bytes, hbytes, rfl⟩ := Option.map_eq_some_iff.mp h
      rw [safeRead_zeroes hbytes]
      exact ⟨n, convertOrder_zeroes node.bigEndian n⟩

/-- A parser reads as zeroes if all parsers under it have one buffer, and this has been
nullified. -/
theorem readsZero_of_zeroes {p : Platform} {tree n : ℕ} {t : ParserTree}
    (ht : s.trees[tree]? = some t)
    (hbuffers : ∀ path sub, t.descend path = some sub → sub.buffer = b)
    (hheap : s.heap[b]? = some (zeroes n)) : s.ReadsZero p tree := by
  intro path sub buf hsub hbuf
  rw [object, ht] at hsub
  rw [hbuffers path sub hsub, hheap] at hbuf
  obtain rfl := Option.some.inj hbuf
  have hzero : ∀ {k byte}, byte ∈ zeroes k → byte = 0 := fun h => List.eq_of_mem_replicate h
  constructor
  · intro node _ k data hread
    obtain ⟨k, rfl⟩ := readByNode_zeroes hread
    exact fun byte hbyte => hzero hbyte
  · intro child _ j data hread
    obtain ⟨bytes, hbytes, rfl⟩ := Option.map_eq_some_iff.mp hread
    rw [safeRead_zeroes hbytes, convertOrder_zeroes]
    exact fun byte hbyte => hzero hbyte

theorem readsZero_createParser {p : Platform} {m : BinaryMetadata} {tree : ℕ}
    (hok : s.ReusesUnshared (.createParser client))
    (hcreate : s.createParser m client = some (s', tree)) : s'.ReadsZero p tree := by
  rw [createParser] at hcreate
  obtain ⟨⟨k, item⟩, hitem, hcreate⟩ := Option.bind_eq_some_iff.mp hcreate
  cases item with
  | none =>
    obtain ⟨rfl, rfl⟩ := Prod.mk.inj (Option.some.inj hcreate)
    refine readsZero_of_zeroes (b := s.heap.length) (n := m.size)
      (t := .create s.heap.length m 0) ?_ ?_ ?_
    · simp
    · exact fun path sub hsub => ParserTree.buffer_of_descend_create hsub
    · simp
  | some item =>
    obtain ⟨t, ht, hcreate⟩ := Option.bind_eq_some_iff.mp hcreate
    obtain ⟨buf, hbuf, hcreate⟩ := Option.bind_eq_some_iff.mp hcreate
    obtain ⟨rfl, rfl⟩ := Prod.mk.inj (Option.some.inj hcreate)
    obtain ⟨hbuffers, -⟩ := hok client k item t rfl hitem ht
    have hlt : t.buffer < s.heap.length := (List.getElem?_eq_some_iff.mp hbuf).1
    exact readsZero_of_zeroes (b := t.buffer) (n := buf.length) ht hbuffers
      (List.getElem?_set_self hlt)

/-! ### Runs -/

/-- **Isolation.** In every run in which parsers are handed out again only when nothing
another client holds leads to their buffer, every call is isolated. -/
theorem isolated_of_reusesUnshared (p : Platform) (m : BinaryMetadata) (calls : List PoolCall)
    (h : Guarded (step p m) ReusesUnshared init calls) :
    Guarded (step p m) (Isolated p m) init calls := by
  refine h.imp (J := Separated) ?_ ?_ separated_init
  · intro s call s' hs hok hstep
    exact (step_private hs hok hstep).separated
  · intro s call hs hok
    refine ⟨fun s' hstep client handle hmem hne ext => ?_, ?_⟩
    · exact (step_private hs hok hstep).bytes client handle hne hmem ext
    · rintro client s' tree rfl hcreate
      exact readsZero_createParser hok hcreate

/-- A nested record of one byte. -/
def nestedByte : BinaryMetadata :=
  (BinaryMetadata.empty false).nestMetadata "n"
    ((BinaryMetadata.empty false).put "x" 1 .byte .reset)

/-- A client gives its parser back and another one gets it. -/
theorem guarded_handOver (p : Platform) :
    Guarded (step p nestedByte) ReusesUnshared init
      [.createParser 0, .createParser 1, .release 0 (.parser 0 []), .createParser 2] := by
  have hfresh : ∀ {s : PoolState} {k client}, s.getItem = some (k, none) →
      s.ReusesUnshared (.createParser client) := by
    intro s k client hitem c k' tree t hcall hitem'
    rw [hitem] at hitem'
    cases hitem'
  refine Guarded.cons rfl (hfresh (k := 0) rfl) (Guarded.cons rfl (hfresh (k := 1) rfl)
    (Guarded.cons rfl ?_ (Guarded.cons rfl ?_ trivial)))
  · rintro client k tree t hcall
    cases hcall
  · rintro client k tree t hcall hitem ht
    obtain rfl := PoolCall.createParser.inj hcall
    have hslot : (0, some 0) = (k, some tree) := Option.some.inj hitem
    obtain rfl : 0 = tree := Option.some.inj (Prod.mk.inj hslot).2
    obtain rfl : ParserTree.create 0 nestedByte 0 = t := Option.some.inj ht
    have hbuffer : (ParserTree.create 0 nestedByte 0).buffer = 0 := ParserTree.buffer_create 0 0 _
    refine ⟨fun path sub hsub => ?_, fun other handle hmem hne hreach => ?_⟩
    · rw [hbuffer]
      exact ParserTree.buffer_of_descend_create hsub
    · rw [hbuffer] at hreach
      obtain ⟨rfl, rfl⟩ := Prod.mk.inj (List.mem_singleton.mp hmem)
      obtain ⟨t, ht, path, sub, hsub, hb⟩ := hreach
      obtain rfl : ParserTree.create 1 nestedByte 0 = t := Option.some.inj ht
      rw [ParserTree.buffer_of_descend_create hsub] at hb
      cases hb

theorem isolated_handOver :
    Guarded (step ⟨fun _ _ => 0⟩ nestedByte) (Isolated ⟨fun _ _ => 0⟩ nestedByte) init
      [.createParser 0, .createParser 1, .release 0 (.parser 0 []), .createParser 2] :=
  isolated_of_reusesUnshared ⟨fun _ _ => 0⟩ nestedByte _ (guarded_handOver ⟨fun _ _ => 0⟩)

/-- A client keeps the nested parser of the parser it gives back. Its byte is zeroed when the
parser is handed to another client. -/
theorem not_isolated_nested_kept :
    ¬Guarded (step ⟨fun _ _ => 0⟩ nestedByte) (Isolated ⟨fun _ _ => 0⟩ nestedByte) init
      [.createParser 0, .readComplex 0 0 [] "n", .write 0 0 ["n"] (.field 0 [7] .byte),
        .release 0 (.parser 0 []), .createParser 1] := by
  intro h
  obtain ⟨-, h⟩ := h _ rfl
  obtain ⟨-, h⟩ := h _ rfl
  obtain ⟨-, h⟩ := h _ rfl
  obtain ⟨-, h⟩ := h _ rfl
  obtain ⟨hisolated, -⟩ := h _ rfl
  have hsame := hisolated.others _ rfl 0 (.parser 0 ["n"]) (by decide) (by decide) []
  have hzero : some [0] = some [(7 : UInt8)] := hsame
  cases hzero

end PoolState

end UtilityFramework
