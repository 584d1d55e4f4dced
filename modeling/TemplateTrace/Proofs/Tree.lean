import TemplateTrace.Proofs.Connectors
import TemplateTrace.Proofs.Duality

/-!
# Walks as trees

A trace shows no edges: a reader takes them from the indentation, where a frame hangs below the last
frame before it that is one less deep (`parent?`). `frames_tree` says that what is read this way are
the edges of the graph at the vertices of the trace, each shown once, and the edges at one vertex in
the order they were added.

A walk itself only knows depths. `links` is a walk that takes along where each frame comes from, and
`Hung` is what it keeps for the frames on its stack: the frame they were put below is the first of
its vertex, and whatever was visited since is not less deep than they are.
-/

namespace TemplateTrace

/-! ## Indentation -/

namespace Depths

theorem ancestor?_self {depths : List Nat} {i depth : Nat} (at_i : depths[i]? = some depth) :
    ancestor? depths i depth = some i := by
  obtain ⟨last, after, found⟩ := le_ancestor? (Nat.le_refl i) at_i
  have before := ancestor?_le found
  obtain rfl : last = i := by omega
  exact found

end Depths

/-- The place of the frame that the frame at a place hangs below: the last one before it that is one
less deep. A frame without depth hangs below none. -/
def parent? (frames : List Frame) (place : Nat) : Option Nat :=
  frames[place]?.bind fun frame =>
    if frame.depth = 0 then none
    else Depths.ancestor? (frames.map Frame.depth) place (frame.depth - 1)

/-- Its vertex does not show before the place. -/
def FirstAt (frames : List Frame) (place : Nat) : Prop :=
  ∀ frame ∈ frames[place]?, ∀ earlier ∈ frames.take place, earlier.vertex ≠ frame.vertex

theorem FirstAt.le {frames : List Frame} {i j vertex : Nat} (first : FirstAt frames i)
    (at_i : frames[i]?.map Frame.vertex = some vertex)
    (at_j : frames[j]?.map Frame.vertex = some vertex) : i ≤ j := by
  obtain ⟨frame, here, rfl⟩ := Option.map_eq_some_iff.mp at_i
  obtain ⟨other, there, same⟩ := Option.map_eq_some_iff.mp at_j
  by_contra before
  refine first frame here other ?_ same
  apply List.mem_of_getElem? (i := j)
  rw [List.getElem?_take_of_lt (by omega), there]

/-- By the indentation, the frame at a place hangs below the frame at another, and an edge of the
graph, walked in a direction, leads from the one to the other: it starts at the vertex of the upper
frame, and has the vertex and the kind of the lower one. -/
structure Hangs (g : Graph) (direction : Direction) (frames : List Frame) (place parent : Nat)
    (edge : Edge) : Prop where
  below : parent? frames place = some parent
  listed : edge ∈ g.edges
  near : frames[parent]?.map Frame.vertex = some (direction.near edge)
  arrival : frames[place]?.map Frame.arrival = some (edge.arrival direction)

/-- Edges with the same ends are the same. -/
theorem Graph.WellFormed.edge_unique {g : Graph} (h : g.WellFormed) {edge other : Edge}
    (listed : edge ∈ g.edges) (listed' : other ∈ g.edges) {direction : Direction}
    (near : direction.near edge = direction.near other)
    (far : direction.far edge = direction.far other) : edge = other := by
  apply List.inj_on_of_nodup_map h.single listed listed'
  cases direction with
  | outgoing => exact Prod.ext near far
  | incoming => exact Prod.ext far near

theorem Hangs.edge_unique {g : Graph} (h : g.WellFormed) {direction : Direction}
    {frames : List Frame} {place parent parent' : Nat} {edge other : Edge}
    (hangs : Hangs g direction frames place parent edge)
    (hangs' : Hangs g direction frames place parent' other) : edge = other := by
  have same := hangs.below.symm.trans hangs'.below
  cases same
  have near := hangs.near.symm.trans hangs'.near
  have arrival := hangs.arrival.symm.trans hangs'.arrival
  exact h.edge_unique hangs.listed hangs'.listed (Option.some.inj near)
    (congrArg Prod.fst (Option.some.inj arrival))

namespace Walk

/-! ## Walks that take along where frames come from -/

/-- A frame on the stack with where it comes from: the place, among all visits, of the frame that it
was put below, and the edge that leads to it. -/
structure Link where
  parent : Nat
  depth : Nat
  edge : Edge

def Link.frame (direction : Direction) (link : Link) : Frame :=
  reached direction link.depth link.edge

section
variable (g : Graph) (direction : Direction)

/-- What is put on the stack below the frame that is visited at a place. -/
def hung (place : Nat) (frame : Frame) : List Link :=
  (g.incident direction frame.vertex).map fun edge => ⟨place, frame.depth + 1, edge⟩

/-- The links visited from a stack, the next one at the given place. -/
def links : Nat → List Link → Discovered → List Link
  | _, [], _ => []
  | place, link :: rest, d =>
    if d.lacks (link.frame direction).vertex then
      link :: links (place + 1) (hung g direction place (link.frame direction) ++ rest)
        (d.mark (link.frame direction).vertex)
    else
      link :: links (place + 1) rest d
termination_by _ stack d => (d.missing, stack.length)
decreasing_by
  · exact Prod.Lex.left _ _ (Discovered.missing_mark_lt ‹_›)
  · exact Prod.Lex.right _ (by simp)

end

variable {g : Graph} {direction : Direction}

theorem mem_hung {place : Nat} {frame : Frame} {link : Link}
    (put : link ∈ hung g direction place frame) :
    link.parent = place ∧ link.depth = frame.depth + 1 ∧ link.edge ∈ g.edges ∧
      direction.near link.edge = frame.vertex := by
  obtain ⟨edge, incident, rfl⟩ := List.mem_map.mp put
  exact ⟨rfl, rfl, Graph.mem_incident.mp incident⟩

theorem map_frame_hung (h : g.WellFormed) (place : Nat) (frame : Frame) :
    (hung g direction place frame).map (Link.frame direction) = below g direction frame := by
  rw [hung, List.map_map, below_eq_reached h]
  rfl

theorem frames_links (h : g.WellFormed) (place : Nat) (stack : List Link) (d : Discovered) :
    (links g direction place stack d).map (Link.frame direction) =
      (sweep g direction (stack.map (Link.frame direction)) d).1 := by
  fun_induction links g direction place stack d with
  | case1 => simp
  | case2 place link rest d lacks ih =>
    rw [List.map_append, map_frame_hung h] at ih
    rw [List.map_cons, List.map_cons, sweep_fresh g direction _ lacks, ih]
  | case3 place link rest d known ih =>
    rw [List.map_cons, List.map_cons, sweep_known g direction _ (by simpa using known), ih]

/-- The link has its parent at the right place among the frames visited so far. -/
structure Hung (g : Graph) (direction : Direction) (frames : List Frame) (link : Link) : Prop where
  listed : link.edge ∈ g.edges
  parent : ∃ above, frames[link.parent]? = some above ∧
    above.vertex = direction.near link.edge ∧ above.depth + 1 = link.depth
  first : ∀ earlier ∈ frames.take link.parent, earlier.vertex ≠ direction.near link.edge
  deeper : ∀ later ∈ frames.drop (link.parent + 1), link.depth ≤ later.depth

theorem Hung.lt {frames : List Frame} {link : Link} (h : Hung g direction frames link) :
    link.parent < frames.length := by
  obtain ⟨above, at_parent, -⟩ := h.parent
  exact (List.getElem?_eq_some_iff.mp at_parent).1

theorem Hung.append {frames : List Frame} {link : Link} (h : Hung g direction frames link)
    {frame : Frame} (deep : link.depth ≤ frame.depth) :
    Hung g direction (frames ++ [frame]) link := by
  have bound := h.lt
  refine ⟨h.listed, ?_, ?_, ?_⟩
  · obtain ⟨above, at_parent, rest⟩ := h.parent
    exact ⟨above, by rw [List.getElem?_append_left bound, at_parent], rest⟩
  · rw [List.take_append_of_le_length (Nat.le_of_lt bound)]
    exact h.first
  · intro later listed
    rw [List.drop_append_of_le_length (by omega)] at listed
    rcases List.mem_append.mp listed with old | new
    · exact h.deeper later old
    · rw [List.mem_singleton.mp new]
      exact deep

theorem hung_fresh {done : List Frame} {frame : Frame}
    (first : ∀ earlier ∈ done, earlier.vertex ≠ frame.vertex) {link : Link}
    (put : link ∈ hung g direction done.length frame) :
    Hung g direction (done ++ [frame]) link := by
  obtain ⟨parent, depth, listed, near⟩ := mem_hung put
  refine ⟨listed, ⟨frame, by simp [parent], near.symm, depth.symm⟩, ?_, ?_⟩
  · intro earlier before
    rw [near]
    exact first earlier (by simpa [parent] using before)
  · intro later behind
    simp [parent] at behind

/-- What a reader sees of a link: it hangs below its parent, and the parent is the first of its
vertex. -/
theorem Hung.hangs {frames : List Frame} {place : Nat} {link : Link}
    (at_place : frames[place]? = some (link.frame direction))
    (h : Hung g direction (frames.take place) link) :
    Hangs g direction frames place link.parent link.edge ∧ link.parent < place ∧
      FirstAt frames link.parent := by
  obtain ⟨above, at_parent, vertex, depth⟩ := h.parent
  have before : link.parent < place := by
    have := h.lt
    rw [List.length_take] at this
    omega
  rw [List.getElem?_take_of_lt before] at at_parent
  have depth_at {k : Nat} {frame : Frame} (at_k : frames[k]? = some frame) :
      (frames.map Frame.depth)[k]? = some frame.depth := by
    rw [List.getElem?_map, at_k]
    rfl
  -- Since the parent was visited, no frame has come back up to its depth.
  have gap : ∀ k, link.parent < k → k ≤ place →
      (frames.map Frame.depth)[k]? ≠ some above.depth := by
    intro k after upto same
    rw [List.getElem?_map, Option.map_eq_some_iff] at same
    obtain ⟨frame, at_k, same⟩ := same
    have deep : link.depth ≤ frame.depth := by
      by_cases last : k = place
      · rw [last, at_place] at at_k
        cases at_k
        exact Nat.le_refl _
      · apply h.deeper
        apply List.mem_of_getElem? (i := k - (link.parent + 1))
        rw [List.getElem?_drop, List.getElem?_take_of_lt (by omega)]
        rw [show link.parent + 1 + (k - (link.parent + 1)) = k by omega, at_k]
    omega
  refine ⟨⟨?_, h.listed, ?_, ?_⟩, before, ?_⟩
  · have positive : (link.frame direction).depth = above.depth + 1 := depth.symm
    rw [parent?, at_place, Option.bind_some, if_neg (by omega), positive, Nat.add_sub_cancel,
      Depths.ancestor?_of_gap (Nat.le_of_lt before) gap]
    exact Depths.ancestor?_self (depth_at at_parent)
  · rw [at_parent, ← vertex]
    rfl
  · rw [at_place]
    rfl
  · intro frame here earlier listed
    rw [at_parent] at here
    cases here
    rw [vertex]
    apply h.first
    rw [List.take_take, Nat.min_eq_left (Nat.le_of_lt before)]
    exact listed

/-- What a walk keeps that takes links along: no vertex visited is left to be expanded, no link lies
on a deeper one, and all of them have their parents at the right places. -/
structure Settled (g : Graph) (direction : Direction) (done : List Frame) (stack : List Link)
    (d : Discovered) : Prop where
  known : ∀ frame ∈ done, d.lacks frame.vertex = false
  sorted : stack.Pairwise fun upper lower => lower.depth ≤ upper.depth
  hung : ∀ link ∈ stack, Hung g direction done link

section
variable {done : List Frame} {rest : List Link} {d : Discovered}

/-- A frame is visited whose vertex is expanded. -/
theorem settled_expand {frame : Frame} (h : Settled g direction done rest d)
    (shallow : ∀ link ∈ rest, link.depth ≤ frame.depth) (lacks : d.lacks frame.vertex = true) :
    Settled g direction (done ++ [frame]) (hung g direction done.length frame ++ rest)
      (d.mark frame.vertex) := by
  refine ⟨?_, ?_, ?_⟩
  · intro other visited
    rw [Discovered.lacks_mark]
    rcases List.mem_append.mp visited with old | new
    · simp [h.known other old]
    · simp [List.mem_singleton.mp new]
  · refine List.pairwise_append.mpr ⟨?_, h.sorted, ?_⟩
    · rw [hung, List.pairwise_map]
      exact List.pairwise_of_forall fun _ _ => Nat.le_refl _
    · intro upper put lower stacked
      have := shallow lower stacked
      have := (mem_hung put).2.1
      omega
  · intro link stacked
    rcases List.mem_append.mp stacked with put | old
    · apply hung_fresh _ put
      intro earlier visited same
      have := h.known earlier visited
      rw [same, lacks] at this
      cases this
    · exact (h.hung link old).append (shallow link old)

theorem Settled.under {link : Link} (h : Settled g direction done (link :: rest) d) :
    Settled g direction done rest d ∧
      ∀ other ∈ rest, other.depth ≤ (link.frame direction).depth := by
  obtain ⟨top, sorted⟩ := List.pairwise_cons.mp h.sorted
  exact ⟨⟨h.known, sorted, fun other stacked => h.hung other (List.mem_cons_of_mem _ stacked)⟩, top⟩

/-- A frame is visited whose vertex is discovered already. -/
theorem settled_pass {frame : Frame} (h : Settled g direction done rest d)
    (shallow : ∀ link ∈ rest, link.depth ≤ frame.depth) (known : d.lacks frame.vertex = false) :
    Settled g direction (done ++ [frame]) rest d := by
  refine ⟨?_, h.sorted, ?_⟩
  · intro other visited
    rcases List.mem_append.mp visited with old | new
    · exact h.known other old
    · rw [List.mem_singleton.mp new]
      exact known
  · intro link stacked
    exact (h.hung link stacked).append (shallow link stacked)

/-- Behind the frames already visited, each link has its parent at the right place among all frames
before it. -/
def Placed (g : Graph) (direction : Direction) (done : List Frame) (visited : List Link) : Prop :=
  ∀ i link, visited[i]? = some link →
    Hung g direction (done ++ (visited.take i).map (Link.frame direction)) link

theorem placed_cons {link : Link} {visited : List Link} (first : Hung g direction done link)
    (others : Placed g direction (done ++ [link.frame direction]) visited) :
    Placed g direction done (link :: visited) := by
  intro i other at_i
  cases i with
  | zero =>
    cases at_i
    simpa using first
  | succ i =>
    have placed := others i other at_i
    rw [List.append_assoc] at placed
    exact placed

theorem Settled.placed {stack : List Link} (h : Settled g direction done stack d) {place : Nat}
    (count : place = done.length) : Placed g direction done (links g direction place stack d) := by
  fun_induction links g direction place stack d generalizing done with
  | case1 =>
    intro i link at_i
    simp at at_i
  | case2 place top rest d lacks ih =>
    obtain ⟨others, shallow⟩ := h.under
    apply placed_cons (h.hung top List.mem_cons_self)
    exact ih (count ▸ settled_expand others shallow lacks) (by simp [count])
  | case3 place top rest d known ih =>
    obtain ⟨others, shallow⟩ := h.under
    apply placed_cons (h.hung top List.mem_cons_self)
    exact ih (settled_pass others shallow (by simpa using known)) (by simp [count])

end

/-! ## Which links are visited, and in which order -/

/-- Links with the same parent are in the order of their edges. -/
def Link.Before (link later : Link) : Prop :=
  link.parent = later.parent → link.edge.id < later.edge.id

section
variable {place : Nat} {stack : List Link} {d : Discovered}

theorem mem_links_of_mem {link : Link} (stacked : link ∈ stack) :
    link ∈ links g direction place stack d := by
  fun_induction links g direction place stack d with
  | case1 => exact stacked
  | case2 place top rest d lacks ih =>
    rcases List.mem_cons.mp stacked with rfl | stacked
    · exact List.mem_cons_self
    · exact List.mem_cons_of_mem _ (ih (List.mem_append_right _ stacked))
  | case3 place top rest d known ih =>
    rcases List.mem_cons.mp stacked with rfl | stacked
    · exact List.mem_cons_self
    · exact List.mem_cons_of_mem _ (ih stacked)

/-- What is visited was on the stack, or is put there later. -/
theorem mem_links {link : Link} (visited : link ∈ links g direction place stack d) :
    link ∈ stack ∨ place ≤ link.parent := by
  fun_induction links g direction place stack d with
  | case1 => exact .inl visited
  | case2 place top rest d lacks ih =>
    rcases List.mem_cons.mp visited with rfl | visited
    · exact .inl List.mem_cons_self
    · rcases ih visited with stacked | later
      · rcases List.mem_append.mp stacked with put | stacked
        · exact .inr (Nat.le_of_eq (mem_hung put).1.symm)
        · exact .inl (List.mem_cons_of_mem _ stacked)
      · exact .inr (by omega)
  | case3 place top rest d known ih =>
    rcases List.mem_cons.mp visited with rfl | visited
    · exact .inl List.mem_cons_self
    · rcases ih visited with stacked | later
      · exact .inl (List.mem_cons_of_mem _ stacked)
      · exact .inr (by omega)

theorem ordered_hung (h : g.WellFormed) (place : Nat) (frame : Frame) :
    (hung g direction place frame).Pairwise Link.Before := by
  have numbered : g.edges.Pairwise fun edge later => edge.id < later.id := by
    apply List.pairwise_map.mp
    rw [h.numbered]
    exact List.pairwise_lt_range
  rw [hung, List.pairwise_map]
  apply (numbered.filter _).imp
  intro edge later less _
  exact less

/-- What is put on the stack has a parent of its own, so it does not come between the links of
another. -/
theorem ordered_links (h : g.WellFormed) (ordered : stack.Pairwise Link.Before)
    (earlier : ∀ link ∈ stack, link.parent < place) :
    (links g direction place stack d).Pairwise Link.Before := by
  fun_induction links g direction place stack d with
  | case1 => exact ordered
  | case2 place top rest d lacks ih =>
    obtain ⟨first, others⟩ := List.pairwise_cons.mp ordered
    have before := earlier top List.mem_cons_self
    refine List.pairwise_cons.mpr ⟨?_, ih ?_ ?_⟩
    · intro link visited same
      rcases mem_links visited with stacked | later
      · rcases List.mem_append.mp stacked with put | stacked
        · have := (mem_hung put).1
          omega
        · exact first link stacked same
      · omega
    · refine List.pairwise_append.mpr ⟨ordered_hung h _ _, others, ?_⟩
      intro link put later stacked same
      have := (mem_hung put).1
      have := earlier later (List.mem_cons_of_mem _ stacked)
      omega
    · intro link stacked
      rcases List.mem_append.mp stacked with put | stacked
      · have := (mem_hung put).1
        omega
      · have := earlier link (List.mem_cons_of_mem _ stacked)
        omega
  | case3 place top rest d known ih =>
    obtain ⟨first, others⟩ := List.pairwise_cons.mp ordered
    have before := earlier top List.mem_cons_self
    refine List.pairwise_cons.mpr ⟨?_, ih others ?_⟩
    · intro link visited same
      rcases mem_links visited with stacked | later
      · exact first link stacked same
      · omega
    · intro link stacked
      have := earlier link (List.mem_cons_of_mem _ stacked)
      omega

/-- Every edge at a vertex that is visited is followed, if the vertex was not expanded before. -/
theorem followed_links {edge : Edge} (listed : edge ∈ g.edges)
    (lacks : d.lacks (direction.near edge) = true)
    (visited : ∃ link ∈ links g direction place stack d,
      (link.frame direction).vertex = direction.near edge) :
    ∃ link ∈ links g direction place stack d, link.edge = edge := by
  fun_induction links g direction place stack d with
  | case1 =>
    obtain ⟨link, absurd, -⟩ := visited
    cases absurd
  | case2 place top rest d fresh ih =>
    by_cases here : (top.frame direction).vertex = direction.near edge
    · have put : ⟨place, (top.frame direction).depth + 1, edge⟩ ∈
          hung g direction place (top.frame direction) :=
        List.mem_map.mpr ⟨edge, Graph.mem_incident.mpr ⟨listed, here.symm⟩, rfl⟩
      exact ⟨_, List.mem_cons_of_mem _ (mem_links_of_mem (List.mem_append_left _ put)), rfl⟩
    · obtain ⟨link, among, vertex⟩ := visited
      rcases List.mem_cons.mp among with rfl | among
      · exact absurd vertex here
      · have still : (d.mark (top.frame direction).vertex).lacks (direction.near edge) = true := by
          simp [Discovered.lacks_mark, lacks, Ne.symm here]
        obtain ⟨found, follows, same⟩ := ih still ⟨link, among, vertex⟩
        exact ⟨found, List.mem_cons_of_mem _ follows, same⟩
  | case3 place top rest d known ih =>
    obtain ⟨link, among, vertex⟩ := visited
    rcases List.mem_cons.mp among with rfl | among
    · rw [vertex, lacks] at known
      contradiction
    · obtain ⟨found, follows, same⟩ := ih lacks ⟨link, among, vertex⟩
      exact ⟨found, List.mem_cons_of_mem _ follows, same⟩

end

/-! ## The links of a whole walk -/

/-- The links that a walk visits behind its first frame. -/
def linksFrom (g : Graph) (direction : Direction) (id : Nat) (d : Discovered) : List Link :=
  links g direction 1 (hung g direction 0 ⟨id, 0, none⟩) (d.mark id)

theorem frames_linksFrom (h : g.WellFormed) {id : Nat} {d : Discovered}
    (lacks : d.lacks id = true) :
    ((start id d).run g direction).1.map Visit.frame =
      ⟨id, 0, none⟩ :: (linksFrom g direction id d).map (Link.frame direction) := by
  have swept := congrArg Prod.fst (run_eq_sweep g direction (start id d))
  simp only at swept
  rw [swept, start, sweep_fresh g direction [] lacks, linksFrom, frames_links h, map_frame_hung h,
    List.append_nil]

theorem placed_linksFrom {id : Nat} {d : Discovered} (lacks : d.lacks id = true) :
    Placed g direction [⟨id, 0, none⟩] (linksFrom g direction id d) := by
  have nothing : Settled g direction [] [] d := ⟨by simp, .nil, by simp⟩
  have first := @settled_expand g direction [] [] d ⟨id, 0, none⟩ nothing (by simp) lacks
  rw [List.append_nil] at first
  exact first.placed rfl

/-- Whatever is discovered before, a walk visits its first frame and then links that have their
parents at the right places. -/
theorem placed_run (h : g.WellFormed) (direction : Direction) (id : Nat) (d : Discovered) :
    ∃ visited : List Link,
      ((start id d).run g direction).1.map Visit.frame =
        ⟨id, 0, none⟩ :: visited.map (Link.frame direction) ∧
      Placed g direction [⟨id, 0, none⟩] visited := by
  cases lacks : d.lacks id with
  | true => exact ⟨_, frames_linksFrom h lacks, placed_linksFrom lacks⟩
  | false =>
    refine ⟨[], ?_, ?_⟩
    · rw [start, run_known g direction [] [1] lacks, pass, run_done]
      rfl
    · intro i link absurd
      simp at absurd

section
variable {first : Frame} {visited : List Link}

theorem Placed.hangs (h : Placed g direction [first] visited) {i : Nat} {link : Link}
    (at_i : visited[i]? = some link) :
    Hangs g direction (first :: visited.map (Link.frame direction)) (i + 1) link.parent
        link.edge ∧
      link.parent < i + 1 ∧
      FirstAt (first :: visited.map (Link.frame direction)) link.parent := by
  apply Hung.hangs
  · rw [List.getElem?_cons_succ, List.getElem?_map, at_i]
    rfl
  · have placed := h i link at_i
    rw [List.map_take] at placed
    exact placed

/-- What hangs by an edge is a link. -/
theorem Placed.hangs_iff (sound : g.WellFormed) (h : Placed g direction [first] visited)
    (shallow : first.depth = 0) {place parent : Nat} {edge : Edge} :
    Hangs g direction (first :: visited.map (Link.frame direction)) place parent edge ↔
      ∃ i link, place = i + 1 ∧ visited[i]? = some link ∧ link.parent = parent ∧
        link.edge = edge := by
  constructor
  · intro hangs
    cases place with
    | zero =>
      have absurd := hangs.below
      simp [parent?, shallow] at absurd
    | succ i =>
      have arrival := hangs.arrival
      rw [List.getElem?_cons_succ, List.getElem?_map, Option.map_map,
        Option.map_eq_some_iff] at arrival
      obtain ⟨link, at_i, -⟩ := arrival
      have own := (h.hangs at_i).1
      have same := own.below.symm.trans hangs.below
      exact ⟨i, link, rfl, at_i, Option.some.inj same, own.edge_unique sound hangs⟩
  · rintro ⟨i, link, rfl, at_i, rfl, rfl⟩
    exact (h.hangs at_i).1

/-- What hangs below one frame is in the order of the edges. -/
theorem Placed.before (sound : g.WellFormed) (h : Placed g direction [first] visited)
    (shallow : first.depth = 0) (ordered : visited.Pairwise Link.Before) {i j parent : Nat}
    {edge later : Edge}
    (hangs : Hangs g direction (first :: visited.map (Link.frame direction)) i parent edge)
    (hangs' : Hangs g direction (first :: visited.map (Link.frame direction)) j parent later)
    (order : i < j) : edge.id < later.id := by
  obtain ⟨k, link, rfl, at_k, rfl, rfl⟩ := (h.hangs_iff sound shallow).mp hangs
  obtain ⟨m, other, rfl, at_m, same, rfl⟩ := (h.hangs_iff sound shallow).mp hangs'
  obtain ⟨inside, rfl⟩ := List.getElem?_eq_some_iff.mp at_k
  obtain ⟨inside', rfl⟩ := List.getElem?_eq_some_iff.mp at_m
  exact List.pairwise_iff_getElem.mp ordered k m inside inside' (by omega) same.symm

/-- An edge is shown once: the frame it starts from is the first of its vertex, and no two frames
hang below that one by the same edge. -/
theorem Placed.place_unique (sound : g.WellFormed) (h : Placed g direction [first] visited)
    (shallow : first.depth = 0) (ordered : visited.Pairwise Link.Before) {i j parent parent' : Nat}
    {edge : Edge}
    (hangs : Hangs g direction (first :: visited.map (Link.frame direction)) i parent edge)
    (hangs' : Hangs g direction (first :: visited.map (Link.frame direction)) j parent' edge) :
    i = j := by
  have firstAt {k parent : Nat}
      (hangs : Hangs g direction (first :: visited.map (Link.frame direction)) k parent edge) :
      FirstAt (first :: visited.map (Link.frame direction)) parent := by
    obtain ⟨m, link, -, at_m, rfl, -⟩ := (h.hangs_iff sound shallow).mp hangs
    exact (h.hangs at_m).2.2
  obtain rfl : parent = parent' := Nat.le_antisymm
    ((firstAt hangs).le hangs.near hangs'.near) ((firstAt hangs').le hangs'.near hangs.near)
  rcases Nat.lt_trichotomy i j with less | same | less
  · exact absurd (h.before sound shallow ordered hangs hangs' less) (Nat.lt_irrefl _)
  · exact same
  · exact absurd (h.before sound shallow ordered hangs' hangs less) (Nat.lt_irrefl _)

end

/-- From nothing discovered, every edge at a vertex that shows is followed. -/
theorem followed_linksFrom (h : g.WellFormed) {id : Nat} {edge : Edge}
    (listed : edge ∈ g.edges)
    (shows : direction.near edge = id ∨
      ∃ link ∈ linksFrom g direction id (.forGraph g),
        (link.frame direction).vertex = direction.near edge) :
    ∃ link ∈ linksFrom g direction id (.forGraph g), link.edge = edge := by
  by_cases here : direction.near edge = id
  · have put : ⟨0, 1, edge⟩ ∈ hung g direction 0 ⟨id, 0, none⟩ :=
      List.mem_map.mpr ⟨edge, Graph.mem_incident.mpr ⟨listed, here⟩, rfl⟩
    exact ⟨_, mem_links_of_mem put, rfl⟩
  · have near : direction.near edge < g.vertexCount := by
      have ends := h.ends edge listed
      cases direction with
      | outgoing => exact ends.1
      | incoming => exact ends.2
    apply followed_links listed _ (shows.resolve_left here)
    simp [Discovered.lacks_mark, here, Discovered.lacks_forGraph near]

end Walk

/-- **A trace is a faithful picture of the edges.** In the frames of a walk with nothing discovered
before, from any vertex of a graph that calls can make: the first frame is the vertex itself, and
the only one without depth; from frame to frame the depth rises by at most one. Each later frame
hangs by exactly one edge below another frame, and each edge at a vertex that shows is the edge of
exactly one frame. A frame that others hang below is the first of its vertex, and those that hang
below it are in the order in which their edges were added. -/
theorem Trace.frames_tree {g : Graph} (reach : g.Reachable) (direction : Direction) {id : Nat}
    (vertex : id < g.vertexCount) :
    let frames := (visitsFrom g direction id).map Visit.frame
    frames[0]? = some ⟨id, 0, none⟩ ∧
    (∀ i frame, frames[i]? = some frame → (frame.depth = 0 ↔ i = 0)) ∧
    (frames.map Frame.depth).IsChain (fun depth next => next ≤ depth + 1) ∧
    (∀ i, 0 < i → i < frames.length → ∃! edge, ∃ parent, Hangs g direction frames i parent edge) ∧
    (∀ edge ∈ g.edges, direction.near edge ∈ frames.map Frame.vertex →
      ∃! i, ∃ parent, Hangs g direction frames i parent edge) ∧
    (∀ i parent edge, Hangs g direction frames i parent edge →
      parent < i ∧ i < frames.length ∧ FirstAt frames parent ∧
        direction.near edge ∈ frames.map Frame.vertex) ∧
    ∀ i j parent edge later, Hangs g direction frames i parent edge →
      Hangs g direction frames j parent later → i < j → edge.id < later.id := by
  have h := Graph.reachable_wellFormed reach
  have lacks := Discovered.lacks_forGraph vertex
  have frames := @Walk.frames_linksFrom g direction h id _ lacks
  have placed := @Walk.placed_linksFrom g direction id _ lacks
  have ordered : (Walk.linksFrom g direction id (.forGraph g)).Pairwise Walk.Link.Before := by
    apply Walk.ordered_links h (Walk.ordered_hung h _ _)
    intro link put
    exact Nat.lt_one_iff.mpr (Walk.mem_hung put).1
  have chain : (((visitsFrom g direction id).map Visit.frame).map Frame.depth).IsChain
      fun depth next => next ≤ depth + 1 := by
    rw [List.map_map, visitsFrom_eq_run]
    exact Walk.depths_run g direction (Walk.counted_start id _)
  rw [visitsFrom_eq_run, frames] at chain ⊢
  refine ⟨rfl, ?_, chain, ?_, ?_, ?_, ?_⟩
  · intro i frame at_i
    cases i with
    | zero =>
      cases at_i
      simp
    | succ i =>
      rw [List.getElem?_cons_succ, List.getElem?_map, Option.map_eq_some_iff] at at_i
      obtain ⟨link, at_i, rfl⟩ := at_i
      obtain ⟨above, -, -, depth⟩ := (placed i link at_i).parent
      have deep : (link.frame direction).depth = above.depth + 1 := depth.symm
      simp [deep]
  · intro i positive inside
    obtain ⟨k, rfl⟩ : ∃ k, i = k + 1 := ⟨i - 1, by omega⟩
    have bound : k < (Walk.linksFrom g direction id (.forGraph g)).length := by
      simpa using inside
    have hangs := (placed.hangs (List.getElem?_eq_getElem bound)).1
    refine ⟨_, ⟨_, hangs⟩, ?_⟩
    rintro other ⟨parent, hangs'⟩
    exact hangs'.edge_unique h hangs
  · intro edge listed shows
    rw [List.map_cons, List.map_map, List.mem_cons, List.mem_map] at shows
    obtain ⟨link, among, rfl⟩ := Walk.followed_linksFrom h listed shows
    obtain ⟨k, at_k⟩ := List.mem_iff_getElem?.mp among
    refine ⟨k + 1, ⟨_, (placed.hangs at_k).1⟩, ?_⟩
    rintro j ⟨parent, hangs⟩
    exact placed.place_unique h rfl ordered hangs (placed.hangs at_k).1
  · intro i parent edge hangs
    obtain ⟨k, link, rfl, at_k, rfl, rfl⟩ := (placed.hangs_iff h rfl).mp hangs
    obtain ⟨-, before, first⟩ := placed.hangs at_k
    obtain ⟨bound, -⟩ := List.getElem?_eq_some_iff.mp at_k
    obtain ⟨above, at_parent, vertex⟩ := Option.map_eq_some_iff.mp hangs.near
    refine ⟨before, by simpa using bound, first, ?_⟩
    exact List.mem_map.mpr ⟨above, List.mem_of_getElem? at_parent, vertex⟩
  · intro i j parent edge later hangs hangs' order
    exact placed.before h rfl ordered hangs hangs' order

/-- Around a cycle, backward from a vertex that two edges enter: the second of them is shown by the
third frame alone. -/
theorem Trace.frames_tree_twoWay :
    Graph.twoWay.Reachable ∧ 1 < Graph.twoWay.vertexCount ∧
    (visitsFrom Graph.twoWay .incoming 1).map Visit.frame =
      [⟨1, 0, none⟩, ⟨0, 1, some .memoization⟩, ⟨2, 1, some .memoization⟩,
        ⟨1, 2, some .templateInstantiation⟩] ∧
    ∀ i parent, Hangs Graph.twoWay .incoming ((visitsFrom Graph.twoWay .incoming 1).map Visit.frame)
      i parent ⟨2, 2, 1, .memoization⟩ ↔ i = 2 ∧ parent = 0 := by
  have reach : Graph.twoWay.Reachable := Graph.reachable_calls _
  have vertex : 1 < Graph.twoWay.vertexCount := by decide
  have frames : (visitsFrom Graph.twoWay .incoming 1).map Visit.frame =
      [⟨1, 0, none⟩, ⟨0, 1, some .memoization⟩, ⟨2, 1, some .memoization⟩,
        ⟨1, 2, some .templateInstantiation⟩] := by cbv
  obtain ⟨-, -, -, -, once, -, -⟩ := frames_tree reach .incoming vertex
  have third : Hangs Graph.twoWay .incoming
      ((visitsFrom Graph.twoWay .incoming 1).map Visit.frame) 2 0 ⟨2, 2, 1, .memoization⟩ := by
    rw [frames]
    exact ⟨by decide, by decide, rfl, rfl⟩
  obtain ⟨place, -, unique⟩ := once ⟨2, 2, 1, .memoization⟩ (by decide) (by rw [frames]; decide)
  refine ⟨reach, vertex, frames, ?_⟩
  intro i parent
  constructor
  · intro hangs
    obtain rfl : i = 2 := (unique i ⟨parent, hangs⟩).trans (unique 2 ⟨0, third⟩).symm
    have same := hangs.below.symm.trans third.below
    exact ⟨rfl, Option.some.inj same⟩
  · rintro ⟨rfl, rfl⟩
    exact third

end TemplateTrace
