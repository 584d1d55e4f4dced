import TemplateTrace.Proofs.Written

namespace TemplateTrace.Json

/-- The start of a line, as white space. -/
def Gap.line (level : Nat) : Gap where
  text := indent level
  spaces := by
    intro c listed
    rcases List.mem_cons.mp listed with rfl | listed
    · rfl
    · rw [List.eq_of_mem_replicate listed]
      rfl

/-- The space between a key's colon and its value. -/
def Gap.space : Gap := ⟨[' '], by simp [isSpace]⟩

theorem spelled_line (level : Nat) (key : String) :
    Spelled (indent level ++ writeString key) (.sound key) := by
  intro rest
  rw [List.append_assoc]
  exact (tokens_gap (.line level) _).trans (tokens_writeString key rest)

theorem writtenItems_pretty {items : List Value} {level : Nat} (some : items ≠ [])
    (written : ∀ item ∈ items, Written (item.pretty (level + 1)) item.node) :
    WrittenItems (prettyItems level items) (nodeItems items) := by
  induction items with
  | nil => contradiction
  | cons item rest ih =>
    have first := written item (by simp)
    cases rest with
    | nil =>
      simp only [prettyItems, nodeItems]
      exact .last (first.spaced (.line (level + 1)) (.line level))
    | cons next rest =>
      have others := ih (by simp) fun other listed => written other (by simp [listed])
      rw [prettyItems, nodeItems]
      · exact .more (first.behind (.line (level + 1))) others
      · simp

theorem writtenEntries_pretty {entries : List (String × Value)} {level : Nat} (some : entries ≠ [])
    (written : ∀ entry ∈ entries, Written (entry.2.pretty (level + 1)) entry.2.node) :
    WrittenEntries (prettyEntries level entries) (nodeEntries entries) := by
  induction entries with
  | nil => contradiction
  | cons entry rest ih =>
    obtain ⟨key, value⟩ := entry
    have first : Written (value.pretty (level + 1)) value.node := written (key, value) (by simp)
    cases rest with
    | nil =>
      simp only [prettyEntries, nodeEntries]
      have last := WrittenEntries.last (spelled_line (level + 1) key)
        (first.spaced .space (.line level))
      simpa only [Gap.space, Gap.line, List.append_assoc, List.cons_append, List.nil_append]
        using last
    | cons next rest =>
      have others := ih (by simp) fun other listed => written other (by simp [listed])
      rw [prettyEntries, nodeEntries]
      · exact .more (spelled_line (level + 1) key) (first.behind .space) others
      · simp

/-- What is written for a value with its parts indented stands for its node, whatever level it
starts from. -/
theorem Plain.writtenPretty {levels : Nat} {value : Value} (h : Plain levels value) (level : Nat) :
    Written (value.pretty level) value.node := by
  induction h generalizing level with
  | null => exact .null
  | boolean value => exact .boolean value
  | natural small => exact .natural small
  | string text => exact .string text
  | @list _ items _ ih =>
    cases items with
    | nil => exact .emptyList .empty
    | cons item rest =>
      exact .list (writtenItems_pretty (by simp) fun item listed => ih item listed (level + 1))
  | @map _ entries _ ih =>
    cases entries with
    | nil => exact .emptyMap .empty
    | cons entry rest =>
      exact .map (writtenEntries_pretty (by simp) fun entry listed => ih entry listed (level + 1))

/-- The indented text of a value is read as its node alone. -/
theorem Plain.readOne_prettyText {levels : Nat} {value : Value} (h : Plain levels value) {α : Type}
    (read : Node → Except Error α) : readOne read value.prettyText = read value.node := by
  rw [readOne, Value.prettyText, (h.writtenPretty 0).nodes]

end TemplateTrace.Json
