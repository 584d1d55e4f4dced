import TemplateTrace.Proofs.Emphasis

/-!
# Layout in 64-bit words

The layout of a frame counts columns and characters with natural numbers. Here the same lines are
computed with words, where sums and products can be too large and differences can fall below zero
(`Arithmetic.lines?`).

What an operation gives where its exact result is no word is left open: it may wrap around, or there
may be no result at all (`Arithmetic`). The lines are the same in every such arithmetic, and those
of natural numbers (`layout_exact`), so no operation is ever made where they differ. Most operations
are guarded by a comparison. The end of a chunk is not: it lies one room behind its start, and the
room can be any word. But chunks start at multiples of the room, so the first one starts at zero,
and the others only where the room is less than the number of characters (`add_lt_of_mem_starts`).
-/

namespace TemplateTrace

/-- Arithmetic of words. Where the exact result is a word, the result is this word; elsewhere it can
be any word, or none. -/
structure Arithmetic where
  add : UInt64 → UInt64 → Option UInt64
  sub : UInt64 → UInt64 → Option UInt64
  mul : UInt64 → UInt64 → Option UInt64
  add_eq : ∀ {a b c : UInt64}, a.toNat + b.toNat = c.toNat → add a b = some c
  sub_eq : ∀ {a b c : UInt64}, c.toNat + b.toNat = a.toNat → sub a b = some c
  mul_eq : ∀ {a b c : UInt64}, a.toNat * b.toNat = c.toNat → mul a b = some c

namespace Arithmetic

/-- Results are reduced to words. -/
def wrapping : Arithmetic where
  add a b := some (a + b)
  sub a b := some (a - b)
  mul a b := some (a * b)
  add_eq {a b c} h := by
    rw [Option.some.injEq, ← UInt64.toNat_inj, UInt64.toNat_add, h]
    exact Nat.mod_eq_of_lt c.toNat_lt
  sub_eq {a b c} h := by
    have order : b ≤ a := UInt64.le_iff_toNat_le.mpr (by omega)
    rw [Option.some.injEq, ← UInt64.toNat_inj, UInt64.toNat_sub_of_le a b order]
    omega
  mul_eq {a b c} h := by
    rw [Option.some.injEq, ← UInt64.toNat_inj, UInt64.toNat_mul, h]
    exact Nat.mod_eq_of_lt c.toNat_lt

/-- There are exact results only. -/
def checked : Arithmetic where
  add a b := if a.toNat + b.toNat < 2 ^ 64 then some (a + b) else none
  sub a b := if b.toNat ≤ a.toNat then some (a - b) else none
  mul a b := if a.toNat * b.toNat < 2 ^ 64 then some (a * b) else none
  add_eq {a b c} h := by
    rw [if_pos (h ▸ c.toNat_lt)]
    exact wrapping.add_eq h
  sub_eq {a b c} h := by
    rw [if_pos (by omega)]
    exact wrapping.sub_eq h
  mul_eq {a b c} h := by
    rw [if_pos (h ▸ c.toNat_lt)]
    exact wrapping.mul_eq h

section
variable (arithmetic : Arithmetic) {a b : UInt64}

theorem add_exact (h : a.toNat + b.toNat < 2 ^ 64) :
    ∃ c, arithmetic.add a b = some c ∧ c.toNat = a.toNat + b.toNat := by
  have word := UInt64.toNat_ofNat_of_lt' h
  exact ⟨_, arithmetic.add_eq word.symm, word⟩

theorem sub_exact (h : b.toNat ≤ a.toNat) :
    ∃ c, arithmetic.sub a b = some c ∧ c.toNat = a.toNat - b.toNat := by
  have less := Nat.lt_of_le_of_lt (Nat.sub_le a.toNat b.toNat) a.toNat_lt
  have word := UInt64.toNat_ofNat_of_lt' less
  exact ⟨_, arithmetic.sub_eq (by omega), word⟩

theorem mul_exact (h : a.toNat * b.toNat < 2 ^ 64) :
    ∃ c, arithmetic.mul a b = some c ∧ c.toNat = a.toNat * b.toNat := by
  have word := UInt64.toNat_ofNat_of_lt' h
  exact ⟨_, arithmetic.mul_eq word.symm, word⟩

end

end Arithmetic

/-! ## The lines in words -/

namespace Layout

/-- The positions from `first` on, one step apart, that come before `stop`. They end, too, where the
next one would be no word. -/
def starts (stop step first : UInt64) : List UInt64 :=
  if first < stop ∧ 0 < step then
    if first.toNat + step.toNat < 2 ^ 64 then first :: starts stop step (first + step)
    else [first]
  else []
termination_by stop.toNat - first.toNat
decreasing_by
  rename_i more fits
  have before := UInt64.lt_iff_toNat_lt.mp more.1
  have positive : 0 < step.toNat := UInt64.lt_iff_toNat_lt.mp more.2
  rw [UInt64.toNat_add, Nat.mod_eq_of_lt fits]
  omega

/-- The byte offsets between the characters of a text, from its start, which is at `offset`, to its
end. -/
def boundaries (offset : Nat) : List Char → List Nat
  | [] => [offset]
  | c :: rest => offset :: boundaries (offset + c.utf8Size) rest

/-- A line of a frame, for a chunk of the text that is given by its bytes. Levels are counted up and
offsets compared, but nothing is computed from them, so they can stay natural numbers. -/
def line? (name : String) (kind : Option Kind) (depth : UInt64) (pending : List UInt64)
    (isFirst : Bool) (range : Nat × Nat) : Option Line := do
  let shown ← content? (frameText name kind) range ((emphasis name).bytes name.toList)
  return ⟨connector (pending.map UInt64.toNat) isFirst depth.toNat ++ shown⟩

end Layout

namespace Arithmetic

open Layout

def room? (arithmetic : Arithmetic) (width depth : UInt64) : Option (Option UInt64) := do
  let connector ← arithmetic.mul 2 depth
  if width < .ofNat leastRoom then
    return none
  else
    let spare ← arithmetic.sub width (.ofNat leastRoom)
    if spare ≤ connector then
      return none
    else
      return some (← arithmetic.sub width connector)

/-- The bytes of the chunk that starts at a character. There are none unless both its ends have an
offset. -/
def range? (arithmetic : Arithmetic) (offsets : List Nat) (count room first : UInt64) :
    Option (Nat × Nat) := do
  let stop ← arithmetic.add first room
  return (← offsets[first.toNat]?, ← offsets[(min stop count).toNat]?)

/-- The bytes of all chunks of a text. -/
def ranges? (arithmetic : Arithmetic) (text : List Char) (room : UInt64) :
    Option (List (Nat × Nat)) := do
  let offsets := boundaries 0 text
  let count ← arithmetic.sub (.ofNat offsets.length) 1
  (starts count (max room 1) 0).mapM (arithmetic.range? offsets count room)

def lines? (arithmetic : Arithmetic) (name : String) (kind : Option Kind) (depth : UInt64)
    (pending : List UInt64) (width : UInt64) : Option (List Line) := do
  let text := (frameText name kind).toList
  match ← arithmetic.room? width depth with
  | none => return [← line? name kind depth pending true (0, Text.byteLength text)]
  | some room =>
    let ranges ← arithmetic.ranges? text room
    if ranges.isEmpty then
      return [⟨connector (pending.map UInt64.toNat) true depth.toNat⟩]
    else
      ranges.zipIdx.mapM fun (range, index) => line? name kind depth pending (index == 0) range

/-! ## Room -/

/-- The room is that of natural numbers. The least room is taken only off a width that has it, and
the connector only off a width that has more than the least room besides. -/
theorem room?_exact (arithmetic : Arithmetic) {depth : UInt64} (shallow : depth.toNat < 2 ^ 63)
    (width : UInt64) :
    ∃ room, arithmetic.room? width depth = some room ∧
      room.map UInt64.toNat = Layout.room? width.toNat depth.toNat := by
  have two : (2 : UInt64).toNat = 2 := rfl
  have least : (UInt64.ofNat leastRoom).toNat = 10 := rfl
  obtain ⟨connector, multiplied, twice⟩ := arithmetic.mul_exact (a := 2) (b := depth)
    (by rw [two]; omega)
  rw [two] at twice
  by_cases narrow : width < .ofNat leastRoom
  · refine ⟨none, by simp [room?, multiplied, narrow], ?_⟩
    have less := UInt64.lt_iff_toNat_lt.mp narrow
    exact (room?_of_narrow (.inl (by omega))).symm
  have wide := mt UInt64.lt_iff_toNat_lt.mpr narrow
  obtain ⟨spare, reduced, rest⟩ := arithmetic.sub_exact (a := width) (b := .ofNat leastRoom)
    (by omega)
  by_cases deep : spare ≤ connector
  · refine ⟨none, by simp [room?, multiplied, reduced, deep], ?_⟩
    have little := UInt64.le_iff_toNat_le.mp deep
    exact (room?_of_narrow (.inr (by omega))).symm
  · have enough := mt UInt64.le_iff_toNat_le.mpr deep
    obtain ⟨room, left, columns⟩ := arithmetic.sub_exact (a := width) (b := connector) (by omega)
    refine ⟨some room, by simp [room?, multiplied, narrow, reduced, deep, left], ?_⟩
    rw [room?_of_wide (by omega) (by omega), Option.map_some, columns, twice]

-- At the first depth that is excluded, twice the depth is no word any more.
example : checked.room? 80 (2 ^ 63) = none ∧ wrapping.room? 80 (2 ^ 63) = some (some 80) := by
  decide +kernel

end Arithmetic

/-! ## Chunks -/

namespace Layout

theorem getElem?_boundaries (text : List Char) (offset : Nat) {position : Nat}
    (h : position ≤ text.length) :
    (boundaries offset text)[position]? = some (offset + Text.Span.byteOffset text position) := by
  induction text generalizing offset position with
  | nil =>
    obtain rfl := Nat.le_zero.mp h
    rfl
  | cons c rest ih =>
    cases position with
    | zero => rfl
    | succ position =>
      have further := ih (offset + c.utf8Size) (Nat.le_of_succ_le_succ h)
      rw [boundaries, List.getElem?_cons_succ, further, Nat.add_assoc]
      rfl

theorem length_boundaries (text : List Char) (offset : Nat) :
    (boundaries offset text).length = text.length + 1 := by
  induction text generalizing offset with
  | nil => rfl
  | cons c rest ih => rw [boundaries, List.length_cons, ih, List.length_cons]

theorem div_step {left step : Nat} (more : 0 < left) (positive : 0 < step) :
    (left + step - 1) / step = (left - step + step - 1) / step + 1 := by
  by_cases far : step ≤ left
  · have shift : left + step - 1 = left - step + step - 1 + step := by omega
    rw [shift, Nat.add_div_right _ positive]
  · have shift : left + step - 1 = left - 1 + step := by omega
    have last : left - step + step - 1 < step := by omega
    rw [shift, Nat.add_div_right _ positive, Nat.div_eq_of_lt last,
      Nat.div_eq_of_lt (by omega)]

/-- The positions are all those that natural numbers reach. Where the next position is no word, it
would come behind the end anyway. -/
theorem toNat_starts {step : UInt64} (positive : 0 < step.toNat) (stop first : UInt64) :
    (starts stop step first).map UInt64.toNat =
      (List.range ((stop.toNat - first.toNat + step.toNat - 1) / step.toNat)).map
        fun index => first.toNat + index * step.toNat := by
  -- Each round takes one step off the distance to the end, and so one off the number of rounds.
  fun_induction starts stop step first with
  | case1 first more fits ih =>
    have before := UInt64.lt_iff_toNat_lt.mp more.1
    have sum : (first + step).toNat = first.toNat + step.toNat := by
      rw [UInt64.toNat_add, Nat.mod_eq_of_lt fits]
    have left : stop.toNat - (first + step).toNat = stop.toNat - first.toNat - step.toNat := by
      omega
    rw [left] at ih
    rw [div_step (Nat.sub_pos_of_lt before) positive, List.range_succ_eq_map, List.map_cons,
      List.map_cons, List.map_map, ih]
    congr 1
    · omega
    · apply List.map_congr_left
      intro index _
      simp only [Function.comp_apply, sum, Nat.succ_mul]
      omega
  | case2 first more fits =>
    -- The end is a word, so the step goes past it.
    have before := UInt64.lt_iff_toNat_lt.mp more.1
    have bound := stop.toNat_lt
    have last : stop.toNat - first.toNat - step.toNat + step.toNat - 1 < step.toNat := by omega
    rw [div_step (Nat.sub_pos_of_lt before) positive, Nat.div_eq_of_lt last]
    simp
  | case3 first done =>
    have reached : stop.toNat ≤ first.toNat := by
      by_contra before
      exact done ⟨UInt64.lt_iff_toNat_lt.mpr (by omega), UInt64.lt_iff_toNat_lt.mpr positive⟩
    rw [Nat.div_eq_of_lt (by omega)]
    rfl

/-- A chunk starts at a character, and one room behind its start is a word: but for the first chunk,
a room has come before it. -/
theorem add_lt_of_mem_starts {count room first : UInt64} (short : count.toNat < 2 ^ 63)
    (positive : 0 < room.toNat) (listed : first ∈ starts count room 0) :
    first.toNat < count.toNat ∧ first.toNat + room.toNat < 2 ^ 64 := by
  have among : first.toNat ∈ (starts count room 0).map UInt64.toNat := List.mem_map_of_mem listed
  rw [toNat_starts positive] at among
  obtain ⟨index, ranged, place⟩ := List.mem_map.mp among
  rw [UInt64.toNat_zero, Nat.zero_add] at place
  have inside := lt_of_lt_chunks (List.mem_range.mp ranged)
  rw [UInt64.toNat_zero, Nat.sub_zero, place] at inside
  refine ⟨inside, ?_⟩
  cases index with
  | zero =>
    have bound := room.toNat_lt
    omega
  | succ index =>
    have full : room.toNat ≤ (index + 1) * room.toNat := Nat.le_mul_of_pos_left _ index.succ_pos
    omega

theorem room_max_one {room : UInt64} (positive : 0 < room.toNat) : max room 1 = room := by
  rw [← UInt64.toNat_inj, UInt64.toNat_max]
  exact Nat.max_eq_left positive

theorem mapM_eq_some_map {α β : Type} {items : List α} {f : α → Option β} {g : α → β}
    (h : ∀ item ∈ items, f item = some (g item)) : items.mapM f = some (items.map g) := by
  induction items with
  | nil => rfl
  | cons item rest ih =>
    have first := h item List.mem_cons_self
    have others := ih fun item listed => h item (List.mem_cons_of_mem _ listed)
    simp only [List.mapM_cons, first, others, Option.bind_eq_bind, Option.bind_some,
      Option.pure_def, List.map_cons]

end Layout

namespace Arithmetic

open Layout

variable (arithmetic : Arithmetic)

theorem range?_eq {text : List Char} {count room first : UInt64}
    (counted : count.toNat = text.length) (inside : first.toNat < text.length)
    (fits : first.toNat + room.toNat < 2 ^ 64) :
    arithmetic.range? (boundaries 0 text) count room first =
      some (Text.Span.bytes ⟨first.toNat, min (first.toNat + room.toNat) text.length⟩ text) := by
  obtain ⟨stop, added, sum⟩ := arithmetic.add_exact fits
  have last : (min stop count).toNat = min (first.toNat + room.toNat) text.length := by
    rw [UInt64.toNat_min, sum, counted]
  have opens := getElem?_boundaries text 0 (Nat.le_of_lt inside)
  have closes := getElem?_boundaries text 0
    (Nat.min_le_right (first.toNat + room.toNat) text.length)
  simp [range?, added, last, opens, closes, Text.Span.bytes]

theorem ranges?_eq {text : List Char} {room : UInt64} (short : text.length < 2 ^ 63)
    (positive : 0 < room.toNat) :
    arithmetic.ranges? text room =
      some ((List.range ((text.length + room.toNat - 1) / room.toNat)).map fun index =>
        Text.Span.bytes ⟨index * room.toNat, min (index * room.toNat + room.toNat) text.length⟩
          text) := by
  have all : (UInt64.ofNat (boundaries 0 text).length).toNat = text.length + 1 := by
    rw [length_boundaries]
    exact UInt64.toNat_ofNat_of_lt' (Nat.lt_of_le_of_lt short (by decide))
  have one : (1 : UInt64).toNat = 1 := rfl
  obtain ⟨count, reduced, counted⟩ := arithmetic.sub_exact
    (a := .ofNat (boundaries 0 text).length) (b := 1) (by omega)
  replace counted : count.toNat = text.length := by omega
  have cut : ∀ first ∈ starts count room 0,
      arithmetic.range? (boundaries 0 text) count room first =
        some (Text.Span.bytes ⟨first.toNat, min (first.toNat + room.toNat) text.length⟩ text) := by
    intro first listed
    obtain ⟨inside, fits⟩ := add_lt_of_mem_starts (by omega) positive listed
    exact arithmetic.range?_eq counted (by omega) fits
  have multiples := toNat_starts positive count 0
  rw [counted, UInt64.toNat_zero, Nat.sub_zero] at multiples
  calc arithmetic.ranges? text room
      = (starts count room 0).mapM (arithmetic.range? (boundaries 0 text) count room) := by
        simp only [ranges?, reduced, room_max_one positive, Option.bind_eq_bind, Option.bind_some]
    _ = some (((starts count room 0).map UInt64.toNat).map fun start =>
          Text.Span.bytes ⟨start, min (start + room.toNat) text.length⟩ text) := by
        rw [mapM_eq_some_map cut, List.map_map]
        rfl
    _ = _ := by
        rw [multiples, List.map_map]
        simp only [Function.comp_def, Nat.zero_add]

end Arithmetic

/-! ## Lines -/

namespace Layout

section
variable {name : String} {kind : Option Kind} (depth : UInt64) (pending : List UInt64)

theorem line?_bytes {chunk : Text.Span} (inside : chunk.stop ≤ (frameText name kind).toList.length)
    (isFirst : Bool) :
    line? name kind depth pending isFirst (chunk.bytes (frameText name kind).toList) =
      some ⟨connector (pending.map UInt64.toNat) isFirst depth.toNat ++
        content (frameText name kind).toList chunk (emphasis name)⟩ := by
  rw [line?, ← bytes_emphasis name kind, content?_bytes inside]
  rfl

theorem mapM_line? {chunks : List Text.Span}
    (inside : ∀ chunk ∈ chunks, chunk.stop ≤ (frameText name kind).toList.length) :
    (chunks.map fun chunk => chunk.bytes (frameText name kind).toList).zipIdx.mapM
        (fun (range, index) => line? name kind depth pending (index == 0) range) =
      some (chunks.mapIdx fun index chunk =>
        ⟨connector (pending.map UInt64.toNat) (index == 0) depth.toNat ++
          content (frameText name kind).toList chunk (emphasis name)⟩) := by
  rw [List.zipIdx_map, List.mapM_map, List.mapIdx_eq_zipIdx_map]
  apply mapM_eq_some_map
  rintro ⟨chunk, index⟩ listed
  exact line?_bytes depth pending (inside chunk (List.fst_mem_of_mem_zipIdx listed)) (index == 0)

end

theorem bytes_whole (text : List Char) :
    Text.Span.bytes ⟨0, text.length⟩ text = (0, Text.byteLength text) := by
  rw [Text.Span.bytes, Text.Span.byteOffset, Text.Span.byteOffset, List.take_length]
  rfl

theorem bytes_chunks {text : List Char} (some : text ≠ []) (room : Nat) :
    (chunks text.length (.some room)).map (fun chunk => chunk.bytes text) =
      (List.range ((text.length + room - 1) / room)).map fun index =>
        Text.Span.bytes ⟨index * room, min (index * room + room) text.length⟩ text := by
  rw [chunks, if_neg (mt List.length_eq_zero_iff.mp some), List.map_map]
  rfl

end Layout

namespace Arithmetic

open Layout

theorem lines?_eq (arithmetic : Arithmetic) {name : String} {kind : Option Kind} {depth : UInt64}
    (short : (frameText name kind).toList.length < 2 ^ 63) (shallow : depth.toNat < 2 ^ 63)
    (pending : List UInt64) (width : UInt64) :
    arithmetic.lines? name kind depth pending width =
      some (lines name kind depth.toNat (pending.map UInt64.toNat) width.toNat) := by
  obtain ⟨room, made, same⟩ := arithmetic.room?_exact shallow width
  simp only [lines?, made, lines, ← same, Option.bind_eq_bind, Option.bind_some, Option.pure_def]
  cases room with
  | none =>
    have all : (⟨0, _⟩ : Text.Span).stop ≤ (frameText name kind).toList.length := Nat.le_refl _
    have whole := line?_bytes depth pending all true
    rw [bytes_whole] at whole
    simp only [whole, Option.bind_some, Option.map_none, chunks]
    rfl
  | some room =>
    have positive : 0 < room.toNat := room?_pos same.symm
    simp only [arithmetic.ranges?_eq short positive, Option.bind_some, Option.map_some]
    by_cases empty : (frameText name kind).toList = []
    · -- Without characters there is no chunk, and one line all the same.
      have none : (0 + room.toNat - 1) / room.toNat = 0 := Nat.div_eq_of_lt (by omega)
      simp only [empty, List.length_nil, none, chunks]
      simp [content]
    · have cut : pieces (frameText name kind).toList (some room.toNat) ≠ [] :=
        pieces_ne_nil _ (by simpa using positive)
      have chunked : chunks (frameText name kind).toList.length (some room.toNat) ≠ [] :=
        fun none => cut (by simp [pieces, none])
      rw [← bytes_chunks empty, if_neg (by simpa using chunked)]
      exact mapM_line? depth pending fun chunk listed => stop_le_count listed

/-- **The layout is exact in 64 bits.** Whatever words do where a result is no word: for every text
of fewer than `2 ^ 63` characters, every depth below `2 ^ 63` and every width, the lines computed
with words are those of natural numbers. Twice the depth is a word. The room can be computed, and
where there is one, the width has the least room of ten, the room is what the connector leaves of
the width, and it is more than the least room. Then for each start of a chunk, the sum with the room
is a word, and both ends of the chunk are at most the number of characters. -/
theorem layout_exact (arithmetic : Arithmetic) {name : String} {kind : Option Kind} {depth : UInt64}
    (short : (frameText name kind).length < 2 ^ 63) (shallow : depth.toNat < 2 ^ 63)
    (pending : List UInt64) (width : UInt64) :
    arithmetic.lines? name kind depth pending width =
      some (lines name kind depth.toNat (pending.map UInt64.toNat) width.toNat) ∧
    2 * depth.toNat < 2 ^ 64 ∧
    ∃ made, arithmetic.room? width depth = some made ∧ ∀ room ∈ made,
      10 ≤ width.toNat ∧ room.toNat + 2 * depth.toNat = width.toNat ∧ 10 < room.toNat ∧
      ∀ first ∈ starts (.ofNat (frameText name kind).length) (max room 1) 0,
        first.toNat + room.toNat < 2 ^ 64 ∧
        first.toNat ≤ (frameText name kind).length ∧
        (min (first + room) (.ofNat (frameText name kind).length)).toNat ≤
          (frameText name kind).length := by
  have count : (UInt64.ofNat (frameText name kind).length).toNat = (frameText name kind).length :=
    UInt64.toNat_ofNat_of_lt' (Nat.lt_trans short (by decide))
  obtain ⟨made, computed, same⟩ := arithmetic.room?_exact shallow width
  refine ⟨?_, by omega, made, computed, ?_⟩
  · exact arithmetic.lines?_eq (by rwa [String.length_toList]) shallow pending width
  · rintro room rfl
    have wide : 10 ≤ width.toNat ∧ 2 * depth.toNat < width.toNat - 10 := by
      by_contra narrow
      rw [room?_of_narrow (by omega)] at same
      cases same
    rw [room?_of_wide wide.1 wide.2, Option.map_some, Option.some.injEq] at same
    refine ⟨wide.1, by omega, by omega, ?_⟩
    intro first listed
    rw [room_max_one (by omega)] at listed
    obtain ⟨inside, fits⟩ := add_lt_of_mem_starts (by omega) (by omega) listed
    refine ⟨fits, by omega, ?_⟩
    rw [UInt64.toNat_min, count]
    exact Nat.min_le_right _ _

/-- A name on two lines, the same name on the one line of the greatest width, and at the greatest
depth that leaves room in this width. -/
theorem layout_exact_limits :
    let name := "größer<größer>"
    let depth : UInt64 := .ofNat (2 ^ 63 - 6)
    let width : UInt64 := .ofNat (2 ^ 64 - 1)
    (frameText name none).length < 2 ^ 63 ∧ depth.toNat < 2 ^ 63 ∧
    (wrapping.lines? name none 1 [0, 1] 14).map (·.map Line.plain) =
      some ["+ größer<größe", "| r>"] ∧
    (checked.lines? name none 1 [0, 1] width).map (·.map Line.plain) =
      some ["+ größer<größer>"] ∧
    checked.room? width depth = some (some 11) ∧
    checked.lines? name none depth [] width =
      some (lines name none depth.toNat [] width.toNat) := by
  intro name depth width
  have short : (frameText name none).length < 2 ^ 63 := by decide +kernel
  have shallow : depth.toNat < 2 ^ 63 := by decide +kernel
  have one : (1 : UInt64).toNat < 2 ^ 63 := by decide
  have narrow := (layout_exact wrapping short one [0, 1] 14).1
  have widest := (layout_exact checked short one [0, 1] width).1
  have deepest := (layout_exact checked short shallow [] width).1
  refine ⟨short, shallow, ?_, ?_, by decide +kernel, deepest⟩
  · rw [narrow]
    decide +kernel
  · rw [widest]
    decide +kernel

end Arithmetic

end TemplateTrace
