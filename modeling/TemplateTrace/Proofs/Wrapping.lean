import Mathlib.Algebra.Order.Floor.Div
import TemplateTrace.Proofs.Connectors
import TemplateTrace.Proofs.NameGrammar

namespace TemplateTrace

namespace Text.Span

/-- The items of a list at the positions of a span. -/
def within {α : Type} (span : Span) (items : List α) : List α :=
  (items.drop span.start).take (span.stop - span.start)

theorem map_within {α β : Type} (f : α → β) (span : Span) (items : List α) :
    (span.within items).map f = span.within (items.map f) := by
  rw [within, within, List.map_take, List.map_drop]

section
variable {α : Type}

theorem within_of_le {span : Span} (h : span.stop ≤ span.start) (items : List α) :
    span.within items = [] := by
  rw [within, Nat.sub_eq_zero_of_le h, List.take_zero]

theorem within_append {start middle stop : Nat} (h : start ≤ middle) (h' : middle ≤ stop)
    (items : List α) :
    (⟨start, middle⟩ : Span).within items ++ (⟨middle, stop⟩ : Span).within items =
      (⟨start, stop⟩ : Span).within items := by
  have length : stop - start = (middle - start) + (stop - middle) := by omega
  have place : start + (middle - start) = middle := by omega
  simp only [within]
  rw [length, List.take_add, List.drop_drop, place]

/-- What comes before an emphasis in a chunk, in it and behind it make up the chunk. -/
theorem within_cut {chunk emphasis : Span} (h : chunk.start ≤ chunk.stop)
    (h' : emphasis.start ≤ emphasis.stop) (items : List α) :
    (⟨chunk.start, min chunk.stop emphasis.start⟩ : Span).within items ++
      ((⟨max chunk.start emphasis.start, min chunk.stop emphasis.stop⟩ : Span).within items ++
        (⟨max emphasis.stop chunk.start, chunk.stop⟩ : Span).within items) =
      chunk.within items := by
  obtain ⟨first, last⟩ := chunk
  obtain ⟨opens, closes⟩ := emphasis
  simp only at h h' ⊢
  by_cases later : last ≤ opens
  · -- The emphasis comes behind the chunk.
    have inside : (⟨max first opens, min last closes⟩ : Span).within items = [] :=
      within_of_le (by simp only; omega) items
    have behind : (⟨max closes first, last⟩ : Span).within items = [] :=
      within_of_le (by simp only; omega) items
    rw [Nat.min_eq_left later, inside, behind, List.append_nil, List.append_nil]
  by_cases earlier : closes ≤ first
  · -- The emphasis comes before the chunk.
    have before : (⟨first, min last opens⟩ : Span).within items = [] :=
      within_of_le (by simp only; omega) items
    have inside : (⟨max first opens, min last closes⟩ : Span).within items = [] :=
      within_of_le (by simp only; omega) items
    rw [Nat.max_eq_right earlier, before, inside, List.nil_append, List.nil_append]
  · have before : (⟨first, min last opens⟩ : Span).within items =
        (⟨first, max first opens⟩ : Span).within items := by
      have same : min last opens - first = max first opens - first := by omega
      simp only [within, same]
    have behind : (⟨max closes first, last⟩ : Span).within items =
        (⟨min last closes, last⟩ : Span).within items := by
      by_cases inside : closes ≤ last
      · rw [Nat.max_eq_left (by omega), Nat.min_eq_right inside]
      · rw [within_of_le (by simp only; omega), within_of_le (by simp only; omega)]
    rw [before, behind, within_append (by omega) (by omega), within_append (by omega) (by omega)]

end

end Text.Span

namespace Segment

/-- The characters of segments, each with the colour it is shown in. -/
def characters (segments : List Segment) : List (Char × Option Color) :=
  segments.flatMap fun segment => segment.text.toList.map (·, segment.color)

theorem toList_plain (segments : List Segment) :
    (plain segments).toList = (characters segments).map Prod.fst := by
  induction segments with
  | nil => rfl
  | cons segment rest ih =>
    rw [characters] at ih
    simp only [plain, List.map_cons, String.join_cons, String.toList_append, characters,
      List.flatMap_cons, List.map_append, ← ih]
    simp [Function.comp_def]

end Segment

namespace Layout

/-! ## Connectors -/

/-- The texts of a connector: two columns for each level, with a plus at the last level of a first
line and nowhere else. -/
structure Cells (isFirst : Bool) (depth : Nat) (cells : List String) : Prop where
  count : cells.length = depth
  shapes : ∀ cell ∈ cells, cell ∈ ["| ", "  ", "+ "]
  plus : ∀ level, cells[level]? = some "+ " ↔ isFirst = true ∧ level + 1 = depth

theorem length_connector (pending : List Nat) (isFirst : Bool) (depth : Nat) :
    (connector pending isFirst depth).length = depth := by
  cases depth <;> simp [connector]

theorem cells_connector (pending : List Nat) (isFirst : Bool) (depth : Nat) :
    Cells isFirst depth ((connector pending isFirst depth).map Segment.text) := by
  have text {level : Nat} (within : level < depth) :
      ((connector pending isFirst depth).map Segment.text)[level]? =
        some (if isFirst = true ∧ level + 1 = depth then "+ "
          else if isPending pending (level + 1) then "| " else "  ") := by
    rw [List.getElem?_map]
    exact connector_text pending isFirst (Nat.succ_pos level) within
  have count : ((connector pending isFirst depth).map Segment.text).length = depth := by
    rw [List.length_map, length_connector]
  refine ⟨count, ?_, ?_⟩
  · intro cell listed
    obtain ⟨level, at_level⟩ := List.mem_iff_getElem?.mp listed
    have within : level < depth := by
      rw [← count]
      exact (List.getElem?_eq_some_iff.mp at_level).1
    rw [text within, Option.some.injEq] at at_level
    rw [← at_level]
    split
    · simp
    · split <;> simp
  · intro level
    by_cases within : level < depth
    · rw [text within, Option.some.injEq]
      split
      next own => simp [own]
      next other => split <;> simp [other]
    · rw [List.getElem?_eq_none (by omega)]
      constructor
      · intro absurd
        cases absurd
      · intro own
        omega

theorem Cells.width {isFirst : Bool} {depth : Nat} {cells : List String}
    (h : Cells isFirst depth cells) : (String.join cells).length = 2 * depth := by
  have two : ∀ cell ∈ cells, cell.length = 2 := by
    intro cell listed
    have shape := h.shapes cell listed
    simp only [List.mem_cons, List.not_mem_nil, or_false] at shape
    rcases shape with rfl | rfl | rfl <;> rfl
  rw [String.length_join, List.map_congr_left two, List.map_const', List.sum_replicate_nat,
    h.count, Nat.mul_comm]

/-! ## Pieces of the text -/

/-- The segments of parts of a text, empty ones left out, show all that is in the parts. -/
theorem characters_parts (text : List Char) (parts : List (Text.Span × Option Color)) :
    Segment.characters (parts.filterMap fun (span, color) =>
      if span.start < span.stop then
        some ⟨String.ofList (span.slice text), color⟩ else none) =
      parts.flatMap fun part => (part.1.within text).map (·, part.2) := by
  induction parts with
  | nil => rfl
  | cons part rest ih =>
    obtain ⟨span, color⟩ := part
    rw [List.filterMap_cons, List.flatMap_cons, ← ih]
    by_cases some : span.start < span.stop
    · simp [some, Segment.characters, Text.Span.slice, Text.Span.within]
    · simp [some, Text.Span.within_of_le (Nat.le_of_not_lt some)]

/-- A text with the colour of each character: those at the positions of the emphasis stand out. -/
def shaded (text : List Char) (emphasis : Text.Span) : List (Char × Option Color) :=
  text.mapIdx fun position c =>
    (c, if emphasis.start ≤ position ∧ position < emphasis.stop then some .emphasis else none)

theorem map_fst_shaded (text : List Char) (emphasis : Text.Span) :
    (shaded text emphasis).map Prod.fst = text := by
  apply List.ext_getElem
  · simp [shaded]
  · intro position _ _
    simp [shaded]

/-- Where all positions of a span have one colour, its characters have this colour. -/
theorem within_shaded {span emphasis : Text.Span} {color : Option Color}
    (h : ∀ position, span.start ≤ position → position < span.stop →
      (if emphasis.start ≤ position ∧ position < emphasis.stop then some Color.emphasis else none) =
        color)
    (text : List Char) :
    (span.within text).map (·, color) = span.within (shaded text emphasis) := by
  apply List.ext_getElem?
  intro i
  by_cases inside : i < span.stop - span.start
  · have colored := h (span.start + i) (by omega) (by omega)
    simp only [Text.Span.within, shaded, List.getElem?_map, List.getElem?_take_of_lt inside,
      List.getElem?_drop, List.getElem?_mapIdx, colored]
  · simp only [Text.Span.within, List.getElem?_map, List.getElem?_take, if_neg inside,
      Option.map_none]

/-- A chunk is shown in the colours of its place in the text. -/
theorem characters_content {chunk emphasis : Text.Span} (h : chunk.start ≤ chunk.stop)
    (h' : emphasis.start ≤ emphasis.stop) (text : List Char) :
    Segment.characters (content text chunk emphasis) = chunk.within (shaded text emphasis) := by
  have before := @within_shaded ⟨chunk.start, min chunk.stop emphasis.start⟩ emphasis none
    (fun position _ _ => if_neg (by simp only at *; omega)) text
  have inside := @within_shaded ⟨max chunk.start emphasis.start, min chunk.stop emphasis.stop⟩
    emphasis (some .emphasis) (fun position _ _ => if_pos (by simp only at *; omega)) text
  have behind := @within_shaded ⟨max emphasis.stop chunk.start, chunk.stop⟩ emphasis none
    (fun position _ _ => if_neg (by simp only at *; omega)) text
  rw [content, characters_parts]
  simp only [List.flatMap_cons, List.flatMap_nil, List.append_nil, before, inside, behind]
  exact Text.Span.within_cut h h' _

theorem plain_content {chunk emphasis : Text.Span} (h : chunk.start ≤ chunk.stop)
    (h' : emphasis.start ≤ emphasis.stop) (text : List Char) :
    (Segment.plain (content text chunk emphasis)).toList = chunk.slice text := by
  rw [Segment.toList_plain, characters_content h h', Text.Span.map_within, map_fst_shaded]
  rfl

theorem emphasis_le (name : String) : (emphasis name).start ≤ (emphasis name).stop := by
  unfold emphasis
  split
  · exact Nat.le_refl _
  · rw [NameHead.emphasis]
    cases found : NameHead.head? name with
    | none => exact Nat.le_refl _
    | some span =>
      obtain ⟨d, -, -, rfl, -⟩ := NameHead.longest_of_head? found
      exact Nat.le_of_lt d.front_length_lt

/-- Every chunk but the first starts behind a full one. -/
theorem lt_of_lt_chunks {count room index : Nat} (h : index < (count + room - 1) / room) :
    index * room < count := by
  rcases Nat.eq_zero_or_pos room with rfl | positive
  · rw [Nat.div_zero] at h
    omega
  · have whole := (Nat.le_div_iff_mul_le positive).mp (Nat.succ_le_of_lt h)
    rw [Nat.succ_mul] at whole
    omega

theorem start_le_stop {count : Nat} {room : Option Nat} {chunk : Text.Span}
    (listed : chunk ∈ chunks count room) : chunk.start ≤ chunk.stop := by
  cases room with
  | none =>
    rw [chunks, List.mem_singleton] at listed
    rw [listed]
    exact Nat.zero_le count
  | some room =>
    rw [chunks] at listed
    split at listed
    next =>
      rw [List.mem_singleton.mp listed]
    next =>
      obtain ⟨index, bound, rfl⟩ := List.mem_map.mp listed
      have := lt_of_lt_chunks (List.mem_range.mp bound)
      simp only
      omega

section
variable {α : Type}

/-- The pieces that a text, or any list, is cut into. -/
def pieces (items : List α) (room : Option Nat) : List (List α) :=
  (chunks items.length room).map (fun chunk => chunk.within items)

theorem pieces_none (items : List α) : pieces items none = [items] := by
  simp [pieces, chunks, Text.Span.within]

theorem pieces_nil (room : Nat) : pieces ([] : List α) (some room) = [[]] := rfl

theorem pieces_some {items : List α} (some : items ≠ []) (room : Nat) :
    pieces items (.some room) = (List.range (items.length ⌈/⌉ room)).map fun index =>
      (items.drop (index * room)).take room := by
  have positive := List.length_pos_iff.mpr some
  rw [pieces, chunks, if_neg (by omega), List.map_map, Nat.ceilDiv_eq_add_pred_div]
  apply List.map_congr_left
  intro index bound
  simp only [Function.comp_apply, Text.Span.within]
  rw [List.take_eq_take_iff, List.length_drop]
  omega

theorem flatten_range (items : List α) (room count : Nat) :
    ((List.range count).map fun index => (items.drop (index * room)).take room).flatten =
      items.take (count * room) := by
  induction count with
  | zero => simp
  | succ count ih =>
    rw [List.range_succ, List.map_append, List.flatten_append, ih, Nat.succ_mul, List.take_add]
    simp

theorem flatten_pieces (items : List α) {room : Option Nat} (h : ∀ r ∈ room, 0 < r) :
    (pieces items room).flatten = items := by
  cases room with
  | none => simp [pieces_none]
  | some room =>
    by_cases empty : items = []
    · rw [empty, pieces_nil]
      rfl
    · have enough : items.length ≤ (items.length ⌈/⌉ room) * room := by
        rw [Nat.mul_comm]
        exact le_smul_ceilDiv (h room rfl)
      rw [pieces_some empty, flatten_range, List.take_of_length_le enough]

end

/-- Pieces that fill the room, but for the last of them. -/
structure Fills (room : Nat) (text : List Char) (pieces : List (List Char)) : Prop where
  count : pieces.length = max 1 (text.length ⌈/⌉ room)
  full : ∀ i piece, pieces[i]? = some piece → i + 1 < pieces.length → piece.length = room
  last : ∀ piece, pieces.getLast? = some piece →
    piece.length ≤ room ∧ (text ≠ [] → 1 ≤ piece.length)

theorem Fills.length_le {room : Nat} {text : List Char} {pieces : List (List Char)}
    (h : Fills room text pieces) {piece : List Char} (listed : piece ∈ pieces) :
    piece.length ≤ room := by
  obtain ⟨i, at_i⟩ := List.mem_iff_getElem?.mp listed
  obtain ⟨bound, -⟩ := List.getElem?_eq_some_iff.mp at_i
  by_cases before : i + 1 < pieces.length
  · exact Nat.le_of_eq (h.full i piece at_i before)
  · have final : pieces.length - 1 = i := by omega
    exact (h.last piece (by rw [List.getLast?_eq_getElem?, final, at_i])).1

theorem getElem?_pieces {text : List Char} (some : text ≠ []) {room i : Nat} {piece : List Char}
    (at_i : (pieces text (.some room))[i]? = .some piece) :
    i * room < text.length ∧ piece.length = min room (text.length - i * room) := by
  rw [pieces_some some, List.getElem?_map, Option.map_eq_some_iff] at at_i
  obtain ⟨index, ranged, rfl⟩ := at_i
  obtain ⟨bound, rfl⟩ := List.getElem?_eq_some_iff.mp ranged
  rw [List.length_range] at bound
  rw [List.getElem_range, List.length_take, List.length_drop]
  exact ⟨lt_of_lt_chunks bound, rfl⟩

theorem fills_pieces (text : List Char) {room : Nat} (positive : 0 < room) :
    Fills room text (pieces text (some room)) := by
  by_cases empty : text = []
  · subst empty
    rw [pieces_nil]
    refine ⟨by simp, ?_, ?_⟩
    · intro i piece _ before
      simp at before
    · intro piece last
      cases last
      exact ⟨Nat.zero_le room, fun absurd => (absurd rfl).elim⟩
  · have count : (pieces text (some room)).length = text.length ⌈/⌉ room := by
      rw [pieces_some empty, List.length_map, List.length_range]
    refine ⟨?_, ?_, ?_⟩
    · have enough : text.length ≤ room * (text.length ⌈/⌉ room) := le_smul_ceilDiv positive
      have one : 1 ≤ text.length ⌈/⌉ room := by
        apply Nat.pos_of_ne_zero
        intro none
        rw [none, Nat.mul_zero, Nat.le_zero, List.length_eq_zero_iff] at enough
        exact empty enough
      rw [count, Nat.max_eq_right one]
    · intro i piece at_i before
      have next : (pieces text (some room))[i + 1]? = some _ := List.getElem?_eq_getElem before
      have bound := (getElem?_pieces empty next).1
      have length := (getElem?_pieces empty at_i).2
      rw [Nat.succ_mul] at bound
      omega
    · intro piece last
      rw [List.getLast?_eq_getElem?] at last
      obtain ⟨bound, length⟩ := getElem?_pieces empty last
      constructor
      · omega
      · intro _
        omega

theorem pieces_ne_nil (text : List Char) {room : Option Nat} (h : ∀ r ∈ room, 0 < r) :
    pieces text room ≠ [] := by
  cases room with
  | none => simp [pieces_none]
  | some room =>
    have filled := fills_pieces text (h room rfl)
    apply List.ne_nil_of_length_pos
    rw [filled.count]
    exact Nat.lt_of_lt_of_le Nat.zero_lt_one (Nat.le_max_left 1 _)

/-! ## Lines -/

theorem room?_of_narrow {width depth : Nat} (narrow : width < 10 ∨ width - 10 ≤ 2 * depth) :
    room? width depth = none := if_pos narrow

theorem room?_of_wide {width depth : Nat} (wide : 10 ≤ width) (deep : 2 * depth < width - 10) :
    room? width depth = some (width - 2 * depth) := by
  apply if_neg
  rw [leastRoom]
  omega

theorem room?_pos {width depth room : Nat} (h : room ∈ room? width depth) : 0 < room := by
  by_cases narrow : width < 10 ∨ width - 10 ≤ 2 * depth
  · rw [room?_of_narrow narrow] at h
    cases h
  · rw [room?_of_wide (by omega) (by omega)] at h
    cases h
    omega

/-- A line shows its connector and then its piece of the text. -/
theorem plain_line {name : String} {kind : Option Kind} {depth : Nat} {pending : List Nat}
    {width i : Nat} {line : Line} (shown : (lines name kind depth pending width)[i]? = some line) :
    ∃ cells piece, (pieces (frameText name kind).toList (room? width depth))[i]? = some piece ∧
      Cells (i == 0) depth cells ∧ line.plain = String.join cells ++ String.ofList piece := by
  rw [lines, List.getElem?_mapIdx, Option.map_eq_some_iff] at shown
  obtain ⟨chunk, at_i, rfl⟩ := shown
  have within := start_le_stop (List.mem_of_getElem? at_i)
  refine ⟨_, chunk.slice (frameText name kind).toList, ?_,
    cells_connector pending (i == 0) depth, ?_⟩
  · rw [pieces, List.getElem?_map, at_i]
    rfl
  · rw [Line.plain, Segment.plain, List.map_append, String.join_append,
      ← plain_content within (emphasis_le name), String.ofList_toList]
    rfl

theorem length_lines (name : String) (kind : Option Kind) (depth : Nat) (pending : List Nat)
    (width : Nat) :
    (lines name kind depth pending width).length =
      (pieces (frameText name kind).toList (room? width depth)).length := by
  rw [lines, List.length_mapIdx, pieces, List.length_map]

/-- **Wrapping loses no text and keeps within the width.** A frame has at least one line. Each line
is a connector of two columns for each level, with a plus only at the end of the first line's, and a
piece of the text, and the pieces in their order are the text. Where the connector leaves too little
room there is one line. Elsewhere every piece but the last fills the room, the last one is not
longer and has a character unless the text has none; so no line is longer than the width, and there
are no more lines than it takes. -/
theorem lines_wrapped (name : String) (kind : Option Kind) (depth : Nat) (pending : List Nat)
    (width : Nat) :
    lines name kind depth pending width ≠ [] ∧
    ∃ pieces : List (List Char),
      pieces.flatten = (frameText name kind).toList ∧
      pieces.length = (lines name kind depth pending width).length ∧
      (∀ i line, (lines name kind depth pending width)[i]? = some line →
        ∃ cells piece, pieces[i]? = some piece ∧ Cells (i == 0) depth cells ∧
          (String.join cells).length = 2 * depth ∧
          line.plain = String.join cells ++ String.ofList piece) ∧
      (width < 10 ∨ width - 10 ≤ 2 * depth →
        (lines name kind depth pending width).length = 1) ∧
      (10 ≤ width → 2 * depth < width - 10 →
        Fills (width - 2 * depth) (frameText name kind).toList pieces ∧
        (∀ line ∈ lines name kind depth pending width, line.plain.length ≤ width) ∧
        (lines name kind depth pending width).length =
          max 1 ((frameText name kind).length ⌈/⌉ (width - 2 * depth))) := by
  have count := length_lines name kind depth pending width
  have positive : ∀ room ∈ room? width depth, 0 < room := fun _ => room?_pos
  refine ⟨?_, pieces (frameText name kind).toList (room? width depth),
    flatten_pieces _ positive, count.symm, ?_, ?_, ?_⟩
  · intro none
    rw [none, List.length_nil, eq_comm, List.length_eq_zero_iff] at count
    exact pieces_ne_nil _ positive count
  · intro i line shown
    obtain ⟨cells, piece, at_i, shape, text⟩ := plain_line shown
    exact ⟨cells, piece, at_i, shape, shape.width, text⟩
  · intro narrow
    rw [count, room?_of_narrow narrow, pieces_none, List.length_singleton]
  · intro wide deep
    have filled := fills_pieces (frameText name kind).toList
      (positive _ (room?_of_wide wide deep))
    rw [← room?_of_wide wide deep] at filled
    refine ⟨filled, ?_, ?_⟩
    · intro line listed
      obtain ⟨i, shown⟩ := List.mem_iff_getElem?.mp listed
      obtain ⟨cells, piece, at_i, shape, text⟩ := plain_line shown
      have fits := filled.length_le (List.mem_of_getElem? at_i)
      rw [text, String.length_append, shape.width, String.length_ofList]
      omega
    · rw [count, filled.count, String.length_toList]

-- Name and kind have fourteen characters each, and twelve columns.
example : (lines "größer<größer>" (some .memoization) 1 [0, 1] 14).map Line.plain =
    ["+ größer<größe", "| r> (Memoizat", "| ion)"] := by decide +kernel

end Layout

end TemplateTrace
