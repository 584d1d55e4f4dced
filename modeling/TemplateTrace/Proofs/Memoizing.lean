import TemplateTrace.Proofs.CallGraph
import TemplateTrace.Proofs.Sweep

/-!
# Reports of a memoizing compiler

A compiler that remembers what it has instantiated enters other names only within the first entry of
a name. The full forward trace of such a report tells the report again: one frame for each pair of
parent and name, where the pair is first entered, at the depth where it is entered
(`fullForwardFrames_memoizing`).

The walk and the report are run side by side. While the report stands before an event, the frames
that the walk has still to visit are those of `waiting`: for each open first entry the new pairs
entered directly within it later, the innermost entry's on top.
-/

namespace TemplateTrace

/-- An entry, by number and name, that is the first of its name, which is not the root's. -/
def IsFirst (entries : List Entry) (entry : Nat × String) : Prop :=
  entry.2 ≠ rootName ∧ entry.2 ∉ (entries.take entry.1).map Entry.name

instance (entries : List Entry) (entry : Nat × String) : Decidable (IsFirst entries entry) :=
  inferInstanceAs (Decidable (_ ∧ _))

/-- Whatever is entered directly within an entry is entered within the first of its name. -/
def Memoizing (entries : List Entry) : Prop :=
  ∀ entry ∈ entries, ∀ innermost ∈ entry.opened.head?, IsFirst entries innermost

instance (entries : List Entry) : Decidable (Memoizing entries) :=
  inferInstanceAs (Decidable (∀ entry ∈ entries, _))

/-- An entry is not the first of its name if the name stands at a smaller number. -/
theorem not_isFirst_of_lt {entries : List Entry} {earlier later : Nat × String}
    (listed : entries[earlier.1]?.map Entry.name = some earlier.2) (less : earlier.1 < later.1)
    (same : earlier.2 = later.2) : ¬ IsFirst entries later := by
  rintro ⟨-, fresh⟩
  obtain ⟨entry, found, named⟩ := Option.map_eq_some_iff.mp listed
  apply fresh
  rw [← same, ← named]
  apply List.mem_map_of_mem
  exact List.mem_of_getElem? ((List.getElem?_take_of_lt less).trans found)

/-- Entries come one after the other and are left in the opposite order. -/
structure Nested (done : List Entry) (opened : List (Nat × String)) : Prop where
  ordered : opened.Pairwise fun inner outer => outer.1 < inner.1
  listed : ∀ entry ∈ opened, done[entry.1]?.map Entry.name = some entry.2
  grounded : ∀ entry ∈ done, entry.parent ∈ rootName :: done.map Entry.name

theorem nested_start : Nested [] [] where
  ordered := List.Pairwise.nil
  listed := by simp
  grounded := by simp

theorem Nested.leave {done : List Entry} {innermost : Nat × String}
    {outer : List (Nat × String)} (nested : Nested done (innermost :: outer)) :
    Nested done outer where
  ordered := (List.pairwise_cons.mp nested.ordered).2
  listed entry he := nested.listed entry (List.mem_cons_of_mem _ he)
  grounded := nested.grounded

theorem Nested.number_lt {done : List Entry} {opened : List (Nat × String)}
    (nested : Nested done opened) {entry : Nat × String} (he : entry ∈ opened) :
    entry.1 < done.length := by
  obtain ⟨_, found, -⟩ := Option.map_eq_some_iff.mp (nested.listed entry he)
  exact (List.getElem?_eq_some_iff.mp found).1

theorem Nested.listed_append {done : List Entry} {opened : List (Nat × String)}
    (nested : Nested done opened) (rest : List Entry) :
    ∀ entry ∈ opened, (done ++ rest)[entry.1]?.map Entry.name = some entry.2 := by
  intro entry he
  rw [List.getElem?_append_left (nested.number_lt he)]
  exact nested.listed entry he

theorem Nested.parent_mem {done : List Entry} {entry : Entry}
    (nested : Nested done entry.opened) : entry.parent ∈ rootName :: done.map Entry.name := by
  rw [Entry.parent]
  cases opened : entry.opened with
  | nil => simp
  | cons innermost outer =>
    obtain ⟨found, at', named⟩ :=
      Option.map_eq_some_iff.mp (nested.listed innermost (by simp [opened]))
    have : innermost.2 ∈ done.map Entry.name :=
      named ▸ List.mem_map_of_mem (List.mem_of_getElem? at')
    exact List.mem_cons_of_mem _ this

theorem Nested.enter {done : List Entry} {entry : Entry} (nested : Nested done entry.opened) :
    Nested (done ++ [entry]) ((done.length, entry.name) :: entry.opened) where
  ordered := List.pairwise_cons.mpr ⟨fun _ he => nested.number_lt he, nested.ordered⟩
  listed := by
    intro other ho
    rcases List.mem_cons.mp ho with rfl | ho
    · simp
    · exact nested.listed_append [entry] other ho
  grounded := by
    have more : ∀ name, name ∈ rootName :: done.map Entry.name →
        name ∈ rootName :: (done ++ [entry]).map Entry.name := by
      intro name hn
      rw [List.map_append, ← List.cons_append]
      exact List.mem_append_left _ hn
    intro other ho
    rcases List.mem_append.mp ho with ho | ho
    · exact more _ (nested.grounded other ho)
    · obtain rfl := List.mem_singleton.mp ho
      exact more _ nested.parent_mem

/-- What is open before a later entry was open already, or is later too. -/
theorem Event.mem_opened {count : Nat} {opened : List (Nat × String)} {events : List Event}
    {entry : Entry} (he : entry ∈ entriesFrom count opened events) {other : Nat × String}
    (ho : other ∈ entry.opened) : other ∈ opened ∨ count ≤ other.1 := by
  induction events generalizing count opened with
  | nil => simp [entriesFrom] at he
  | cons event rest ih =>
    cases event with
    | enter name kind location =>
      rcases List.mem_cons.mp he with rfl | he
      · exact .inl ho
      · rcases ih he with known | later
        · rcases List.mem_cons.mp known with rfl | known
          · exact .inr (Nat.le_refl _)
          · exact .inl known
        · exact .inr (by omega)
    | leave =>
      rcases ih he with known | later
      · exact .inl (List.mem_of_mem_tail known)
      · exact .inr later

/-- The frame of an entry, at the vertex found for its name. -/
def Entry.frameAt (g : Graph) (depth : Nat) (entry : Entry) : Frame :=
  ⟨(g.find? entry.name).getD Graph.root, depth, some entry.kind⟩

/-- The frames of the entries that have a certain parent. -/
def children (g : Graph) (entries : List Entry) (parent : String) (depth : Nat) : List Frame :=
  (entries.filter fun entry => entry.parent = parent).map (Entry.frameAt g depth)

/-- The frames of the entries that are left, as far as they have the root or an open first entry for
their parent. -/
def waiting (g : Graph) (entries left : List Entry) : List (Nat × String) → List Frame
  | [] => children g left rootName 1
  | innermost :: outer =>
    (if IsFirst entries innermost then children g left innermost.2 (outer.length + 2) else []) ++
      waiting g entries left outer

theorem waiting_nil (g : Graph) (entries : List Entry) (opened : List (Nat × String)) :
    waiting g entries [] opened = [] := by
  induction opened with
  | nil => rfl
  | cons innermost outer ih =>
    rw [waiting, ih]
    split <;> rfl

theorem children_cons_of_ne {g : Graph} {entry : Entry} {parent : String}
    (other : entry.parent ≠ parent) (left : List Entry) (depth : Nat) :
    children g (entry :: left) parent depth = children g left parent depth := by
  simp [children, other]

theorem children_cons_self (g : Graph) (entry : Entry) (left : List Entry) (depth : Nat) :
    children g (entry :: left) entry.parent depth =
      entry.frameAt g depth :: children g left entry.parent depth := by
  simp [children]

theorem waiting_cons_of_ne {g : Graph} {entries : List Entry} {entry : Entry}
    {opened : List (Nat × String)} (inner : entry.parent ≠ rootName)
    (other : ∀ outer ∈ opened, IsFirst entries outer → entry.parent ≠ outer.2)
    (left : List Entry) :
    waiting g entries (entry :: left) opened = waiting g entries left opened := by
  induction opened with
  | nil => exact children_cons_of_ne inner left 1
  | cons innermost outer ih =>
    rw [waiting, waiting, ih fun entry he => other entry (List.mem_cons_of_mem _ he)]
    split
    · next first =>
      rw [children_cons_of_ne (other innermost List.mem_cons_self first)]
    · rfl

section
variable {entries done : List Entry} {events : List Event}

/-- The next entry is on top of what waits, at the depth where it is entered. -/
theorem waiting_enter {g : Graph} {entry : Entry} {rest : List Entry}
    (memo : Memoizing entries) (nested : Nested done entry.opened)
    (split : entries = done ++ entry :: rest) (left : List Entry) :
    waiting g entries (entry :: left) entry.opened =
      entry.frameAt g (entry.depth + 1) :: waiting g entries left entry.opened := by
  have own : entry ∈ entries := by simp [split]
  have parent : entry.parent = entry.opened.head?.elim rootName Prod.snd := rfl
  have first := memo entry own
  have listed := nested.listed_append (entry :: rest)
  rw [← split] at listed
  have ordered := nested.ordered
  rw [Entry.depth]
  cases opened : entry.opened with
  | nil =>
    rw [opened] at parent
    have := children_cons_self g entry left 1
    rw [parent] at this
    exact this
  | cons innermost outer =>
    rw [opened] at parent first listed ordered
    have top : IsFirst entries innermost := first innermost rfl
    have parent : entry.parent = innermost.2 := parent
    have others : ∀ other ∈ outer, IsFirst entries other → entry.parent ≠ other.2 := by
      intro other ho _ same
      exact not_isFirst_of_lt (listed other (List.mem_cons_of_mem _ ho))
        ((List.pairwise_cons.mp ordered).1 other ho) (same.symm.trans parent) top
    rw [waiting, waiting, if_pos top, if_pos top, waiting_cons_of_ne (parent ▸ top.1) others,
      ← parent, children_cons_self]
    rfl

/-- Once a first entry is left, nothing more is entered directly within it. -/
theorem parent_ne_of_left {innermost : Nat × String} {outer : List (Nat × String)}
    (memo : Memoizing entries) (nested : Nested done (innermost :: outer))
    (split : entries = done ++ Event.entriesFrom done.length outer events)
    (first : IsFirst entries innermost) {entry : Entry}
    (later : entry ∈ Event.entriesFrom done.length outer events) :
    entry.parent ≠ innermost.2 := by
  intro same
  have listed := nested.listed_append (Event.entriesFrom done.length outer events)
  rw [← split] at listed
  rw [Entry.parent] at same
  cases opened : entry.opened with
  | nil =>
    rw [opened] at same
    exact first.1 same.symm
  | cons within around =>
    rw [opened] at same
    have same : within.2 = innermost.2 := same
    have top : IsFirst entries within :=
      memo entry (by rw [split]; exact List.mem_append_right _ later) within (by simp [opened])
    -- the parent is open from before, outside what is left, or entered later: either way one of the
    -- two entries of the name comes before the other
    rcases Event.mem_opened later (show within ∈ entry.opened by simp [opened]) with known | after
    · exact not_isFirst_of_lt (listed within (List.mem_cons_of_mem _ known))
        ((List.pairwise_cons.mp nested.ordered).1 within known) same first
    · have earlier : innermost.1 < within.1 :=
        Nat.lt_of_lt_of_le (nested.number_lt List.mem_cons_self) after
      exact not_isFirst_of_lt (listed innermost List.mem_cons_self) earlier same.symm top

theorem waiting_leave {g : Graph} {innermost : Nat × String} {outer : List (Nat × String)}
    (memo : Memoizing entries) (nested : Nested done (innermost :: outer))
    (split : entries = done ++ Event.entriesFrom done.length outer events)
    (seen : List (String × String)) :
    waiting g entries (firsts Entry.pair seen (Event.entriesFrom done.length outer events))
        (innermost :: outer) =
      waiting g entries (firsts Entry.pair seen (Event.entriesFrom done.length outer events))
        outer := by
  rw [waiting]
  split_ifs with first
  · have none : (firsts Entry.pair seen (Event.entriesFrom done.length outer events)).filter
        (fun entry => entry.parent = innermost.2) = [] := by
      apply List.filter_eq_nil_iff.mpr
      intro entry he same
      exact parent_ne_of_left memo nested split first (mem_of_mem_firsts Entry.pair he)
        (of_decide_eq_true same)
    rw [children, none]
    rfl
  · rfl

end

/-- Below a vertex are the entries that have its name for their parent. -/
theorem below_eq_children {g : Graph} (h : g.WellFormed) {entries : List Entry}
    (links : g.links = entries.map Entry.link) {name : String} {id : Nat}
    (found : g.find? name = some id) (depth : Nat) (kind : Option Kind) :
    Walk.below g .outgoing ⟨id, depth, kind⟩ = children g entries name (depth + 1) := by
  obtain ⟨bound, named⟩ := h.find?_eq_some_iff.mp found
  let frame : String × String × Kind → Frame :=
    fun link => ⟨(g.find? link.2.1).getD Graph.root, depth + 1, some link.2.2⟩
  have linked : children g entries name (depth + 1) =
      (g.links.filter fun link => link.1 = name).map frame := by
    rw [links, List.filter_map, List.map_map]
    rfl
  rw [linked, Graph.links, List.filter_map, List.map_map, Walk.below, h.edgesAt_eq_incident,
    Graph.incident]
  have same : g.edges.filter (fun edge => Direction.outgoing.near edge == id) =
      g.edges.filter ((fun link => decide (link.1 = name)) ∘
        fun edge => (g.name edge.source, g.name edge.target, edge.kind)) := by
    apply List.filter_congr
    intro edge he
    apply Bool.eq_iff_iff.mpr
    simp only [Direction.near, beq_iff_eq, Function.comp_apply, decide_eq_true_eq]
    exact ⟨fun at' => at' ▸ named,
      fun called => h.name_inj (h.ends edge he).1 bound (called.trans named.symm)⟩
  rw [same]
  apply List.map_congr_left
  intro edge he
  have ends := (h.ends edge (List.mem_filter.mp he).1).2
  have target := h.find?_eq_some_iff.mpr ⟨ends, rfl⟩
  simp only [Direction.far, Function.comp_apply, frame, target, Option.getD_some]

/-- The discovered vertices are the root and those of the entries so far. -/
structure Marked (g : Graph) (done : List Entry) (d : Discovered) : Prop where
  sized : d.marks.length = g.vertexCount
  names : ∀ name id, g.find? name = some id →
    (d.contains id = true ↔ name ∈ rootName :: done.map Entry.name)

theorem marked_start {g : Graph} (h : g.WellFormed) :
    Marked g [] ((Discovered.forGraph g).mark Graph.root) where
  sized := by simp
  names name id found := by
    rw [Discovered.contains_mark (by simpa using h.root_lt), Discovered.contains_forGraph]
    simp [h.found_inj found h.find?_rootName]

theorem Marked.known {g : Graph} {done : List Entry} {d : Discovered} (m : Marked g done d)
    {entry : Entry} (known : entry.name ∈ rootName :: done.map Entry.name) :
    Marked g (done ++ [entry]) d where
  sized := m.sized
  names name id found := by
    rw [m.names name id found, List.map_append, ← List.cons_append, List.mem_append]
    refine ⟨.inl, ?_⟩
    rintro (there | same)
    · exact there
    · obtain rfl : name = entry.name := by simpa using same
      exact known

theorem Marked.fresh {g : Graph} (h : g.WellFormed) {done : List Entry} {d : Discovered}
    (m : Marked g done d) {entry : Entry} {id : Nat} (found : g.find? entry.name = some id) :
    Marked g (done ++ [entry]) (d.mark id) where
  sized := by simp [m.sized]
  names name other foundOther := by
    have bound : id < d.marks.length := m.sized ▸ (h.find?_eq_some_iff.mp found).1
    rw [Discovered.contains_mark bound, m.names name other foundOther,
      h.found_inj foundOther found, List.map_append, ← List.cons_append, List.mem_append, or_comm]
    simp

theorem isFirst_next {done rest : List Entry} {name : String} :
    IsFirst (done ++ rest) (done.length, name) ↔ name ∉ rootName :: done.map Entry.name := by
  simp [IsFirst]

theorem name_mem_of_pair_mem {done : List Entry} {entry : Entry}
    (repeated : entry.pair ∈ done.map Entry.pair) :
    entry.name ∈ rootName :: done.map Entry.name := by
  obtain ⟨other, ho, same⟩ := List.mem_map.mp repeated
  have called : other.name = entry.name := congrArg Prod.snd same
  exact List.mem_cons_of_mem _ (called ▸ List.mem_map_of_mem ho)

/-- Nothing before the first entry of a name has that name for its parent. -/
theorem children_first {g : Graph} {done rest : List Entry} {entry : Entry}
    (nested : Nested done entry.opened)
    (fresh : entry.name ∉ rootName :: done.map Entry.name) (depth : Nat) :
    children g (firsts Entry.pair [] done ++ entry :: rest) entry.name depth =
      children g rest entry.name depth := by
  have before : (firsts Entry.pair [] done).filter
      (fun other => other.parent = entry.name) = [] := by
    apply List.filter_eq_nil_iff.mpr
    intro other ho same
    apply fresh
    rw [← of_decide_eq_true same]
    exact nested.grounded other (mem_of_mem_firsts Entry.pair ho)
  have own : entry.parent ≠ entry.name := fun same => fresh (same ▸ nested.parent_mem)
  rw [children, List.filter_append, before, List.nil_append]
  exact children_cons_of_ne own rest depth

/-- Below the first entry of a name is what comes later: the new pairs that have it for their
parent. -/
theorem below_first {g : Graph} (h : g.WellFormed) {entries done later : List Entry}
    {entry : Entry} {id : Nat} (links : g.links = (firsts Entry.pair [] entries).map Entry.link)
    (nested : Nested done entry.opened) (split : entries = done ++ entry :: later)
    (fresh : entry.name ∉ rootName :: done.map Entry.name)
    (found : g.find? entry.name = some id) (depth : Nat) :
    Walk.below g .outgoing (entry.frameAt g depth) =
      children g (firsts Entry.pair (done.map Entry.pair ++ [entry.pair]) later) entry.name
        (depth + 1) := by
  have new : entry.pair ∉ done.map Entry.pair := fun repeated =>
    fresh (name_mem_of_pair_mem repeated)
  rw [Entry.frameAt, found, Option.getD_some, below_eq_children h links found, split,
    firsts_append, List.nil_append, firsts_cons_new Entry.pair new, children_first nested fresh]

section
variable {g : Graph} (h : g.WellFormed) {entries : List Entry}
variable (links : g.links = (firsts Entry.pair [] entries).map Entry.link)
variable (found : ∀ entry ∈ entries, ∃ id, g.find? entry.name = some id)
variable (memo : Memoizing entries)
include h links found memo

/-- At an entry the walk visits the frame of its pair if that is new, and is then where the report
is: what waits below a first entry is put on top, and a known name changes nothing. -/
theorem sweep_enter {done later : List Entry} {entry : Entry} {d : Discovered}
    (nested : Nested done entry.opened) (marked : Marked g done d)
    (split : entries = done ++ entry :: later) :
    ∃ next, Marked g (done ++ [entry]) next ∧
      (Walk.sweep g .outgoing (waiting g entries
        (firsts Entry.pair (done.map Entry.pair) (entry :: later)) entry.opened) d).1 =
      ((firsts Entry.pair (done.map Entry.pair) [entry]).map
          fun entry => entry.frameAt g (entry.depth + 1)) ++
        (Walk.sweep g .outgoing (waiting g entries
          (firsts Entry.pair (done.map Entry.pair ++ [entry.pair]) later)
          ((done.length, entry.name) :: entry.opened)) next).1 := by
  have first : IsFirst entries (done.length, entry.name) ↔
      entry.name ∉ rootName :: done.map Entry.name := by rw [split, isFirst_next]
  obtain ⟨id, at'⟩ := found entry (by simp [split])
  have bound : id < d.marks.length := marked.sized ▸ (h.find?_eq_some_iff.mp at').1
  have lacks := Discovered.lacks_eq bound
  have vertex : (entry.frameAt g (entry.depth + 1)).vertex = id := by
    rw [Entry.frameAt, at', Option.getD_some]
  by_cases repeated : entry.pair ∈ done.map Entry.pair
  · have known := name_mem_of_pair_mem repeated
    refine ⟨d, marked.known known, ?_⟩
    rw [firsts_cons_known Entry.pair repeated, firsts_cons_known Entry.pair repeated, waiting,
      if_neg (first.not.mpr (not_not.mpr known))]
    rfl
  · rw [firsts_cons_new Entry.pair repeated, firsts_cons_new Entry.pair repeated,
      waiting_enter memo nested split]
    by_cases known : entry.name ∈ rootName :: done.map Entry.name
    · rw [(marked.names _ _ at').mpr known, ← vertex] at lacks
      refine ⟨d, marked.known known, ?_⟩
      rw [Walk.sweep_known g .outgoing _ lacks, waiting,
        if_neg (first.not.mpr (not_not.mpr known))]
      rfl
    · have unmarked : d.contains id = false :=
        Bool.eq_false_iff.mpr fun marks => known ((marked.names _ _ at').mp marks)
      rw [unmarked, ← vertex] at lacks
      refine ⟨d.mark id, marked.fresh h at', ?_⟩
      rw [Walk.sweep_fresh g .outgoing _ lacks, vertex, below_first h links nested split known at',
        waiting, if_pos (first.mpr known)]
      rfl

/-- From every event on, the walk visits the entries of new pairs that are left, in their order. -/
theorem sweep_waiting {events : List Event} {done : List Entry} {opened : List (Nat × String)}
    {d : Discovered} (nested : Nested done opened) (marked : Marked g done d)
    (split : entries = done ++ Event.entriesFrom done.length opened events) :
    (Walk.sweep g .outgoing (waiting g entries
      (firsts Entry.pair (done.map Entry.pair) (Event.entriesFrom done.length opened events))
      opened) d).1 =
    (firsts Entry.pair (done.map Entry.pair) (Event.entriesFrom done.length opened events)).map
      fun entry => entry.frameAt g (entry.depth + 1) := by
  induction events generalizing done opened d with
  | nil => rw [Event.entriesFrom, firsts, waiting_nil, Walk.sweep_nil]; rfl
  | cons event rest ih =>
    cases event with
    | leave =>
      cases opened with
      | nil => exact ih nested marked split
      | cons innermost outer =>
        rw [Event.entriesFrom, List.tail_cons] at split ⊢
        rw [waiting_leave memo nested split]
        exact ih nested.leave marked split
    | enter name kind location =>
      rw [Event.entriesFrom] at split ⊢
      obtain ⟨next, marked, swept⟩ := sweep_enter h links found memo nested marked split
      have on := ih (@Nested.enter done ⟨opened, name, kind, location⟩ nested) marked
        (by simpa using split)
      simp only [List.length_append, List.length_singleton] at on
      rw [List.map_append, List.map_singleton] at on
      rw [swept, on, ← List.map_append, ← firsts_cons]

end

/-- **A memoizing compiler's report is traced back verbatim.** If in a balanced report whatever is
entered within an entry is entered within the first one of its name, then the full forward trace is
the root, followed, in the order of the report, by one frame for each entry whose parent and name
were not entered as a pair before: at the vertex found for the name, one deeper than the entries
open before it, and with its kind. -/
theorem fullForwardFrames_memoizing {events : List Event} (balanced : Event.Balanced 0 events)
    (memo : Memoizing (Event.entries events)) :
    ∃ g frames, Graph.ofEvents events = .ok g ∧
      Trace.fullForwardFrames g = ⟨Graph.root, 0, none⟩ :: frames ∧
      frames.map (fun frame => (some frame.vertex, frame.depth, frame.kind)) =
        (firsts Entry.pair [] (Event.entries events)).map
          fun entry => (g.find? entry.name, entry.depth + 1, some entry.kind) := by
  obtain ⟨last, left, ran, t⟩ := Replay.tracks_entries balanced
  have h := Graph.reachable_wellFormed t.reach
  have found : ∀ entry ∈ Event.entries events, ∃ id, last.graph.find? entry.name = some id := by
    intro entry he
    apply Option.ne_none_iff_exists'.mp
    rw [Ne, Graph.find?_eq_none_iff, t.mem_names, not_not]
    exact List.mem_cons_of_mem _ (List.mem_map_of_mem he)
  refine ⟨last.graph, (firsts Entry.pair [] (Event.entries events)).map
    fun entry => entry.frameAt last.graph (entry.depth + 1), ?_, ?_, ?_⟩
  · rw [Graph.ofEvents, ran]
    rfl
  · have lacks : (Discovered.forGraph last.graph).lacks Graph.root = true := by
      rw [Discovered.lacks_eq (by simpa using h.root_lt), Discovered.contains_forGraph]
      rfl
    have below := below_eq_children h t.links h.find?_rootName 0 none
    rw [Trace.fullForwardFrames_eq_sweep, Walk.sweep_fresh _ _ _ lacks, below, List.append_nil]
    exact congrArg _ (@sweep_waiting _ h _ t.links found memo events [] [] _ nested_start
      (marked_start h) rfl)
  · rw [List.map_map]
    apply List.map_congr_left
    intro entry he
    obtain ⟨id, at'⟩ := found entry (mem_of_mem_firsts Entry.pair he)
    simp only [Function.comp_apply, Entry.frameAt, at', Option.getD_some]

/-- Below `B` its own parent and the root are looked up, both leaves; then `B` is looked up again,
`A` under a parent it was entered for before, and `C` is left open. -/
def Event.lookups : List Event :=
  [.enter "A" .templateInstantiation none, .enter "B" .templateInstantiation none,
    .enter "A" .memoization none, .leave, .enter rootName .memoization none, .leave, .leave, .leave,
    .enter "B" .memoization none, .leave, .enter "A" .memoization none, .leave,
    .enter "C" .templateInstantiation none, .enter "B" .exceptionSpecInstantiation none]

theorem fullForwardFrames_memoizing_lookups :
    Event.Balanced 0 Event.lookups ∧ Memoizing (Event.entries Event.lookups) ∧
    ∃ g frames, Graph.ofEvents Event.lookups = .ok g ∧
      Trace.fullForwardFrames g = ⟨Graph.root, 0, none⟩ :: frames ∧
      frames.map (fun frame => (some frame.vertex, frame.depth, frame.kind)) =
        [(g.find? "A", 1, some .templateInstantiation),
          (g.find? "B", 2, some .templateInstantiation),
          (g.find? "A", 3, some .memoization), (g.find? rootName, 3, some .memoization),
          (g.find? "B", 1, some .memoization), (g.find? "C", 1, some .templateInstantiation),
          (g.find? "B", 2, some .exceptionSpecInstantiation)] := by
  have balanced : Event.Balanced 0 Event.lookups := by decide
  have memo : Memoizing (Event.entries Event.lookups) := by decide
  exact ⟨balanced, memo, fullForwardFrames_memoizing balanced memo⟩

end TemplateTrace
