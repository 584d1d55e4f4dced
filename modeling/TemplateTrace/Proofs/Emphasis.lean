import Mathlib.Order.Lattice
import TemplateTrace.Proofs.Wrapping

/-!
# The emphasised characters

However a frame's text is wrapped, the characters in the colour of emphasis are those of the head of
its name (`lines_emphasized`). The head is found in the name alone, and the text goes on behind the
name with the kind; each line then shows the part of the head that falls into its chunk.

Positions count characters here, and a cut in bytes could fall into the middle of one. `content?`
does the same with bytes: it compares byte offsets, takes the slices between them, and has no result
if a slice is not one of the text. It always has one, the same as with characters
(`content?_bytes`): the byte offset of a position grows with the position, so the cuts fall in the
same places.
-/

namespace TemplateTrace

namespace Text

/-- The text from one byte up to another. There is none unless the two stand in this order, each
between two characters or at an end of the text. -/
def cut? (text : String) (first last : Nat) : Option String :=
  if h : String.Pos.Raw.IsValid text ⟨first⟩ ∧ String.Pos.Raw.IsValid text ⟨last⟩ ∧
      first ≤ last then
    some (String.extract (s := text) ⟨⟨first⟩, h.1⟩ ⟨⟨last⟩, h.2.1⟩)
  else none

namespace Span

theorem byteOffset_add (text : List Char) (start length : Nat) :
    byteOffset text (start + length) =
      byteOffset text start + byteLength ((text.drop start).take length) := by
  rw [byteOffset, List.take_add, byteLength_append, byteOffset]

theorem byteOffset_mono (text : List Char) : Monotone (byteOffset text) := by
  intro start stop order
  obtain ⟨length, rfl⟩ := Nat.exists_eq_add_of_le order
  rw [byteOffset_add]
  exact Nat.le_add_right _ _

theorem byteLength_pos {text : List Char} (h : text ≠ []) : 0 < byteLength text := by
  obtain ⟨c, rest, rfl⟩ := List.exists_cons_of_ne_nil h
  have := c.utf8Size_pos
  rw [byteLength]
  omega

/-- Bytes lie between two positions exactly if characters do. -/
theorem byteOffset_lt_iff {text : List Char} {start stop : Nat} (h : stop ≤ text.length) :
    byteOffset text start < byteOffset text stop ↔ start < stop := by
  constructor
  · intro less
    by_contra order
    have := byteOffset_mono text (Nat.le_of_not_lt order)
    omega
  · intro less
    obtain ⟨length, rfl⟩ := Nat.exists_eq_add_of_le (Nat.le_of_lt less)
    have some : (text.drop start).take length ≠ [] := by
      apply List.ne_nil_of_length_pos
      rw [List.length_take, List.length_drop]
      omega
    have := byteLength_pos some
    rw [byteOffset_add]
    omega

/-- Text behind a position does not move it. -/
theorem byteOffset_append {front : List Char} {position : Nat} (h : position ≤ front.length)
    (rest : List Char) : byteOffset (front ++ rest) position = byteOffset front position := by
  rw [byteOffset, byteOffset, List.take_append_of_le_length h]

end Span

theorem cut?_append (front middle rest : List Char) :
    cut? (String.ofList front ++ (String.ofList middle ++ String.ofList rest)) (byteLength front)
      (byteLength front + byteLength middle) = some (String.ofList middle) := by
  have first : String.Pos.Raw.IsValid
      (String.ofList front ++ (String.ofList middle ++ String.ofList rest)) ⟨byteLength front⟩ := by
    apply String.Pos.Raw.isValid_iff_exists_append.mpr
    exact ⟨_, _, rfl, by rw [String.rawEndPos, utf8ByteSize_ofList]⟩
  have last : String.Pos.Raw.IsValid
      (String.ofList front ++ (String.ofList middle ++ String.ofList rest))
      ⟨byteLength front + byteLength middle⟩ := by
    apply String.Pos.Raw.isValid_iff_exists_append.mpr
    refine ⟨String.ofList front ++ String.ofList middle, _, String.append_assoc.symm, ?_⟩
    rw [String.rawEndPos, String.utf8ByteSize_append, utf8ByteSize_ofList, utf8ByteSize_ofList]
  have size (text : List Char) : byteLength text = (String.ofList text).toByteArray.size := by
    rw [String.size_toByteArray, utf8ByteSize_ofList]
  rw [cut?, dif_pos ⟨first, last, Nat.le_add_right _ _⟩, Option.some.injEq,
    ← String.toByteArray_inj, String.toByteArray_extract]
  change (String.ofList front ++ (String.ofList middle ++ String.ofList rest)).toByteArray.extract
    (byteLength front + 0) (byteLength front + byteLength middle) = _
  rw [String.toByteArray_append, String.toByteArray_append, size front,
    ByteArray.extract_append_size_add, ByteArray.extract_append_eq_left (size middle)]

/-- The characters of a span can be cut out by its bytes. -/
theorem cut?_bytes {span : Span} (h : span.start ≤ span.stop) (text : String) :
    cut? text (span.bytes text.toList).1 (span.bytes text.toList).2 =
      some (String.ofList (span.slice text.toList)) := by
  have length : span.start + (span.stop - span.start) = span.stop := by omega
  have parts : String.ofList (text.toList.take span.start) ++
      (String.ofList (span.slice text.toList) ++ String.ofList (text.toList.drop span.stop)) =
      text := by
    rw [← String.ofList_append, ← String.ofList_append, Span.slice, ← length,
      Nat.add_sub_cancel_left, ← List.drop_drop, List.take_append_drop, List.take_append_drop,
      String.ofList_toList]
  have stop : (span.bytes text.toList).2 =
      byteLength (text.toList.take span.start) + byteLength (span.slice text.toList) := by
    rw [Span.bytes, ← length, Span.byteOffset_add]
    rfl
  have cut := cut?_append (text.toList.take span.start) (span.slice text.toList)
    (text.toList.drop span.stop)
  rw [parts, ← stop] at cut
  exact cut

end Text

namespace Layout

/-! ## Cuts in bytes -/

/-- The segment between two bytes of a text, if the text can be cut there. -/
def segment? (text : String) (part : (Nat × Nat) × Option Color) : Option Segment :=
  (Text.cut? text part.1.1 part.1.2).map (⟨·, part.2⟩)

/-- The segments of a chunk of the text, with the chunk and the emphasis as ranges of bytes. There
are none if a part that is not empty cannot be cut out. -/
def content? (text : String) (chunk emphasis : Nat × Nat) : Option (List Segment) :=
  ([((chunk.1, min chunk.2 emphasis.1), none),
    ((max chunk.1 emphasis.1, min chunk.2 emphasis.2), some Color.emphasis),
    ((max emphasis.2 chunk.1, chunk.2), none)].filter
      fun part => part.1.1 < part.1.2).mapM (segment? text)

theorem mapM_segment? {text : String} {parts : List (Text.Span × Option Color)}
    (h : ∀ part ∈ parts, part.1.stop ≤ text.toList.length) :
    ((parts.map fun part => (part.1.bytes text.toList, part.2)).filter
        fun part => part.1.1 < part.1.2).mapM (segment? text) =
      some (parts.filterMap fun (span, color) =>
        if span.start < span.stop then
          some ⟨String.ofList (span.slice text.toList), color⟩ else none) := by
  induction parts with
  | nil => rfl
  | cons part rest ih =>
    obtain ⟨span, color⟩ := part
    have others := ih fun part listed => h part (List.mem_cons_of_mem _ listed)
    have same : (span.bytes text.toList).1 < (span.bytes text.toList).2 ↔ span.start < span.stop :=
      Text.Span.byteOffset_lt_iff (h _ List.mem_cons_self)
    by_cases some : span.start < span.stop
    · have first : segment? text (span.bytes text.toList, color) =
          .some ⟨String.ofList (span.slice text.toList), color⟩ := by
        rw [segment?, Text.cut?_bytes (Nat.le_of_lt some)]
        rfl
      simp [same, some, first, others]
    · simp [same, some, others]

/-- Cut in bytes, a chunk comes out as if cut in characters. -/
theorem content?_bytes {chunk : Text.Span} {text : String}
    (h : chunk.stop ≤ text.toList.length) (emphasis : Text.Span) :
    content? text (chunk.bytes text.toList) (emphasis.bytes text.toList) =
      some (content text.toList chunk emphasis) := by
  have mono := Text.Span.byteOffset_mono text.toList
  have cut := @mapM_segment? text
    [(⟨chunk.start, min chunk.stop emphasis.start⟩, none),
      (⟨max chunk.start emphasis.start, min chunk.stop emphasis.stop⟩, some Color.emphasis),
      (⟨max emphasis.stop chunk.start, chunk.stop⟩, none)] (by simp; omega)
  simp only [List.map_cons, List.map_nil, Text.Span.bytes, mono.map_min, mono.map_max] at cut
  exact cut

/-! ## Frames -/

theorem emphasis_le_length (name : String) : (emphasis name).stop ≤ name.toList.length := by
  unfold emphasis
  split
  · exact Nat.le_refl _
  · rw [NameHead.emphasis]
    cases found : NameHead.head? name with
    | none => exact Nat.le_refl _
    | some span =>
      obtain ⟨d, rest, spelled, rfl, -⟩ := NameHead.longest_of_head? found
      rw [spelled, List.length_append]
      exact Nat.le_add_right _ _

theorem frameText_append (name : String) (kind : Option Kind) :
    ∃ suffix, (frameText name kind).toList = name.toList ++ suffix := by
  cases kind with
  | none => exact ⟨[], by rw [frameText_none, List.append_nil]⟩
  | some kind => exact ⟨_, by rw [frameText_some, String.toList_append]⟩

/-- The bytes of the emphasis in the name are its bytes in the text. -/
theorem bytes_emphasis (name : String) (kind : Option Kind) :
    (emphasis name).bytes (frameText name kind).toList = (emphasis name).bytes name.toList := by
  obtain ⟨suffix, spelled⟩ := frameText_append name kind
  have order := emphasis_le name
  have inside := emphasis_le_length name
  rw [spelled, Text.Span.bytes, Text.Span.byteOffset_append (Nat.le_trans order inside),
    Text.Span.byteOffset_append inside]
  rfl

theorem stop_le_count {count : Nat} {room : Option Nat} {chunk : Text.Span}
    (listed : chunk ∈ chunks count room) : chunk.stop ≤ count := by
  cases room with
  | none =>
    rw [chunks, List.mem_singleton] at listed
    rw [listed]
  | some room =>
    rw [chunks] at listed
    split at listed
    next =>
      rw [List.mem_singleton.mp listed]
      exact Nat.zero_le count
    next =>
      obtain ⟨index, -, rfl⟩ := List.mem_map.mp listed
      exact Nat.min_le_right _ _

/-- Parts without characters are left out of a chunk. -/
theorem text_content_ne {text : List Char} {chunk emphasis : Text.Span}
    (h : chunk.stop ≤ text.length) {segment : Segment}
    (listed : segment ∈ content text chunk emphasis) : segment.text ≠ "" := by
  rw [content, List.mem_filterMap] at listed
  obtain ⟨⟨span, color⟩, part, shown⟩ := listed
  dsimp only at shown
  split at shown
  next some =>
    cases shown
    have inside : span.stop ≤ text.length := by
      simp only [List.mem_cons, Prod.mk.injEq, List.not_mem_nil, or_false] at part
      rcases part with ⟨rfl, -⟩ | ⟨rfl, -⟩ | ⟨rfl, -⟩
      · exact Nat.le_trans (Nat.min_le_left _ _) h
      · exact Nat.le_trans (Nat.min_le_left _ _) h
      · exact h
    intro none
    have length := congrArg String.length none
    rw [String.length_ofList, Text.Span.slice, List.length_take, List.length_drop,
      String.length_empty] at length
    omega
  next => cases shown

theorem text_cell_ne {pending : List Nat} {isFirst : Bool} {depth : Nat} {cell : Segment}
    (listed : cell ∈ connector pending isFirst depth) : cell.text ≠ "" := by
  have shape := (cells_connector pending isFirst depth).shapes cell.text
    (List.mem_map_of_mem listed)
  intro none
  rw [none] at shape
  simp at shape

theorem color_cell_ne {pending : List Nat} {isFirst : Bool} {depth : Nat} {cell : Segment}
    (listed : cell ∈ connector pending isFirst depth) : cell.color ≠ some .emphasis := by
  have colored (level : Nat) : some (Color.ofDepth level) ≠ some .emphasis := by
    intro same
    exact Color.ofDepth_ne_emphasis level (Option.some.inj same)
  cases depth with
  | zero => cases listed
  | succ above =>
    rw [connector, List.mem_append, List.mem_singleton] at listed
    rcases listed with listed | rfl
    · obtain ⟨level, -, rfl⟩ := List.mem_map.mp listed
      exact colored _
    · unfold ownCell
      split
      · exact colored _
      · split
        · exact colored _
        · exact Option.some_ne_none _ ∘ Eq.symm

/-- A line is its connector and its chunk of the text. -/
theorem line_parts {name : String} {kind : Option Kind} {depth : Nat} {pending : List Nat}
    {width i : Nat} {line : Line} (shown : (lines name kind depth pending width)[i]? = some line) :
    ∃ chunk, (chunks (frameText name kind).toList.length (room? width depth))[i]? = some chunk ∧
      line.segments.take depth = connector pending (i == 0) depth ∧
      line.segments.drop depth =
        content (frameText name kind).toList chunk (emphasis name) := by
  rw [lines, List.getElem?_mapIdx, Option.map_eq_some_iff] at shown
  obtain ⟨chunk, at_i, rfl⟩ := shown
  have length := length_connector pending (i == 0) depth
  exact ⟨chunk, at_i, List.take_left' length, List.drop_left' length⟩

/-- Behind their connectors, the lines of a frame show its text in its colours. -/
theorem characters_lines (name : String) (kind : Option Kind) (depth : Nat) (pending : List Nat)
    (width : Nat) :
    (lines name kind depth pending width).flatMap
        (fun line => Segment.characters (line.segments.drop depth)) =
      shaded (frameText name kind).toList (emphasis name) := by
  have same : (lines name kind depth pending width).map
        (fun line => Segment.characters (line.segments.drop depth)) =
      pieces (shaded (frameText name kind).toList (emphasis name)) (room? width depth) := by
    apply List.ext_getElem?
    intro i
    have count : (shaded (frameText name kind).toList (emphasis name)).length =
        (frameText name kind).toList.length := by
      simp [shaded]
    cases shown : (lines name kind depth pending width)[i]? with
    | none =>
      have beyond := List.getElem?_eq_none_iff.mp shown
      rw [length_lines, pieces, List.length_map] at beyond
      rw [List.getElem?_map, shown, pieces, count, List.getElem?_map,
        List.getElem?_eq_none beyond]
      rfl
    | some line =>
      obtain ⟨chunk, at_i, -, shows⟩ := line_parts shown
      have chunked := characters_content (start_le_stop (List.mem_of_getElem? at_i))
        (emphasis_le name) (frameText name kind).toList
      rw [List.getElem?_map, shown, pieces, count, List.getElem?_map, at_i, Option.map_some,
        Option.map_some, shows, chunked]
  rw [List.flatMap_def, same, flatten_pieces _ fun _ => room?_pos]

theorem emphasis_holds_iff (name : String) (position : Nat) :
    (emphasis name).start ≤ position ∧ position < (emphasis name).stop ↔
      name ≠ rootName ∧ (NameHead.emphasis name).start ≤ position ∧
        position < (NameHead.emphasis name).stop := by
  by_cases root : name = rootName
  · rw [emphasis, if_pos root, Text.Span.atEnd]
    simp only [root, ne_eq, not_true_eq_false, false_and, iff_false]
    omega
  · rw [emphasis, if_neg root]
    simp [root]

/-- **The emphasised characters are those of the head of the name.** Put together, what the lines of
a frame show behind their connectors is the text, with the characters at the positions of the head
of the name in white and all others in the default style; of the root nothing is in white. On each
line no segment is empty, no cell of the connector is white, and what is behind the connector is
what comes out when the text is cut in bytes: every slice is one of the text. -/
theorem lines_emphasized (name : String) (kind : Option Kind) (depth : Nat) (pending : List Nat)
    (width : Nat) :
    (lines name kind depth pending width).flatMap
        (fun line => Segment.characters (line.segments.drop depth)) =
      (frameText name kind).toList.mapIdx (fun position c =>
        (c, if name ≠ rootName ∧ (NameHead.emphasis name).start ≤ position ∧
            position < (NameHead.emphasis name).stop then some .white else none)) ∧
    ∀ i line, (lines name kind depth pending width)[i]? = some line →
      (∀ segment ∈ line.segments, segment.text ≠ "") ∧
      line.segments.take depth = connector pending (i == 0) depth ∧
      (∀ cell ∈ line.segments.take depth, cell.color ≠ some .white) ∧
      ∃ chunk, (chunks (frameText name kind).length (room? width depth))[i]? = some chunk ∧
        content? (frameText name kind) (chunk.bytes (frameText name kind).toList)
            ((emphasis name).bytes name.toList) =
          some (line.segments.drop depth) := by
  constructor
  · rw [characters_lines, shaded]
    simp only [emphasis_holds_iff]
    rfl
  · intro i line shown
    obtain ⟨chunk, at_i, cells, shows⟩ := line_parts shown
    have inside := stop_le_count (List.mem_of_getElem? at_i)
    refine ⟨?_, cells, ?_, chunk, ?_, ?_⟩
    · intro segment listed
      rw [← List.take_append_drop depth line.segments, cells, shows, List.mem_append] at listed
      rcases listed with cell | part
      · exact text_cell_ne cell
      · exact text_content_ne inside part
    · intro cell listed
      rw [cells] at listed
      exact color_cell_ne listed
    · rw [← String.length_toList]
      exact at_i
    · rw [← bytes_emphasis name kind, content?_bytes inside, shows]

-- The head goes over the end of the first line, and the kind over the end of the second.
example : (lines "ns::Outermost<ü>" (some .memoization) 0 [] 11).map Line.segments =
    [[⟨"ns::", none⟩, ⟨"Outermo", some .white⟩],
      [⟨"st", some .white⟩, ⟨"<ü> (Memo", none⟩], [⟨"ization)", none⟩]] := by
  decide +kernel

end Layout

end TemplateTrace
