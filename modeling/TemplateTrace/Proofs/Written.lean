import TemplateTrace.Proofs.Lexemes

/-!
# Written values

`Written text node` says that a text stands for a node wherever a value may stand, with white space
wherever it is allowed: it holds of lexemes, and of lists and maps whose parts are written. What is
written for a value without any space is such a text (`Plain.written`), and its node has the value
again (`Plain.value`).
-/

namespace TemplateTrace.Json

namespace Reading

/-- Reads on through a text. -/
def run (reading : Reading) (text : List Char) : Reading := (tokens text).foldl step reading

theorem run_token {text rest : List Char} {token : Token}
    (h : tokens text = token :: tokens rest) (reading : Reading) :
    reading.run text = (reading.step token).run rest := by
  rw [run, h, List.foldl_cons, run]

theorem run_gap (gap : Gap) (reading : Reading) (rest : List Char) :
    reading.run (gap.text ++ rest) = reading.run rest := by
  rw [run, tokens_gap, run]

@[simp] theorem run_openList (reading : Reading) (rest : List Char) :
    reading.run ('[' :: rest) = (reading.step .openList).run rest :=
  run_token (tokens_cons (by decide) rest) reading

@[simp] theorem run_closeList (reading : Reading) (rest : List Char) :
    reading.run (']' :: rest) = (reading.step .closeList).run rest :=
  run_token (tokens_cons (by decide) rest) reading

@[simp] theorem run_openMap (reading : Reading) (rest : List Char) :
    reading.run ('\x7b' :: rest) = (reading.step .openMap).run rest :=
  run_token (tokens_cons (by decide) rest) reading

@[simp] theorem run_closeMap (reading : Reading) (rest : List Char) :
    reading.run ('\x7d' :: rest) = (reading.step .closeMap).run rest :=
  run_token (tokens_cons (by decide) rest) reading

@[simp] theorem run_comma (reading : Reading) (rest : List Char) :
    reading.run (',' :: rest) = (reading.step .comma).run rest :=
  run_token (tokens_cons (by decide) rest) reading

@[simp] theorem run_colon (reading : Reading) (rest : List Char) :
    reading.run (':' :: rest) = (reading.step .colon).run rest :=
  run_token (tokens_cons (by decide) rest) reading

/-- Where a reading puts the next value, if one may come next. -/
inductive Expects : Reading → Place → Prop
  | between (done : List Node) : Expects (.between done) (.top done)
  | atValue (place : Place) : Expects (.atValue place) place
  | first (outer : Place) : Expects (.inList [] outer) (.item [] outer)

theorem Expects.step {reading : Reading} {place : Place} (h : reading.Expects place)
    {token : Token} (other : token ≠ .closeList) : reading.step token = stepValue place token := by
  cases h with
  | between | atValue => rfl
  | first => cases token <;> first | rfl | contradiction

end Reading

/-- Wherever a value may stand, the text puts this node there. -/
def Written (text : List Char) (node : Node) : Prop :=
  ∀ ⦃reading : Reading⦄ ⦃place : Place⦄, reading.Expects place →
    ∀ ⦃rest : List Char⦄, Apart rest →
      reading.run (text ++ rest) = (place.receive node).run rest

namespace Written

theorem spaced {text : List Char} {node : Node} (h : Written text node) (before after : Gap) :
    Written (before.text ++ text ++ after.text) node := by
  intro reading place expects rest apart
  rw [List.append_assoc, List.append_assoc, Reading.run_gap,
    h expects (after.apart.append apart), Reading.run_gap]

theorem behind {text : List Char} {node : Node} (h : Written text node) (gap : Gap) :
    Written (gap.text ++ text) node := by
  intro reading place expects rest apart
  rw [List.append_assoc, Reading.run_gap, h expects apart]

/-- A text of one token. -/
theorem ofToken {text : List Char} {token : Token} {node : Node} (other : token ≠ .closeList)
    (kept : ∀ place, Reading.stepValue place token = place.receive node)
    (spelled : ∀ {rest}, Apart rest → tokens (text ++ rest) = token :: tokens rest) :
    Written text node := by
  intro reading place expects rest apart
  rw [Reading.run_token (spelled apart), expects.step other, kept]

theorem null : Written "null".toList .null :=
  ofToken (by nofun) (fun _ => rfl) fun _ => tokens_null _

theorem boolean (value : Bool) :
    Written (if value then "true" else "false").toList (.boolean value) :=
  ofToken (by nofun) (fun _ => rfl) fun _ => tokens_boolean value _

theorem natural {n : Nat} (small : n < UInt64.size) :
    Written (Number.integer n).text.toList (.number (.sound (.integer n))) :=
  ofToken (by nofun) (fun _ => rfl) fun apart => tokens_natural small apart

theorem string (text : String) : Written (writeString text) (.string (.sound text)) :=
  ofToken (by nofun) (fun _ => rfl) fun _ => tokens_writeString text _

end Written

/-- The items of a list that is not empty, with its closing bracket. -/
inductive WrittenItems : List Char → Items → Prop
  | last {text : List Char} {item : Node} :
    Written text item → WrittenItems (text ++ [']']) (.cons item .closed)
  | more {text others : List Char} {item : Node} {rest : Items} :
    Written text item → WrittenItems others rest →
    WrittenItems (text ++ ',' :: others) (.cons item rest)

/-- A text of a key. -/
def Spelled (text : List Char) (key : Lexeme String) : Prop :=
  ∀ rest, tokens (text ++ rest) = .string key :: tokens rest

/-- The entries of a map that is not empty, with its closing brace. -/
inductive WrittenEntries : List Char → Entries → Prop
  | last {name text : List Char} {key : Lexeme String} {value : Node} :
    Spelled name key → Written text value →
    WrittenEntries (name ++ ':' :: text ++ ['\x7d']) (.cons key value .closed)
  | more {name text others : List Char} {key : Lexeme String} {value : Node} {rest : Entries} :
    Spelled name key → Written text value → WrittenEntries others rest →
    WrittenEntries (name ++ ':' :: text ++ ',' :: others) (.cons key value rest)

/-- Reading through the items leaves the list, with the items read before in front. -/
theorem WrittenItems.run {text : List Char} {items : Items} (h : WrittenItems text items)
    {reading : Reading} {done : List Node} {outer : Place}
    (expects : reading.Expects (.item done outer)) (rest : List Char) :
    reading.run (text ++ rest) = (outer.receive (.list (.ofNewest done items))).run rest := by
  induction h generalizing reading done with
  | last written =>
    rw [List.append_assoc, List.singleton_append,
      written expects (.cons (by decide) (by decide) rest), Reading.run_closeList]
    rfl
  | more written _ ih =>
    rw [List.append_assoc, List.cons_append,
      written expects (.cons (by decide) (by decide) _), Reading.run_comma]
    exact ih (.atValue _)

/-- A reading that can take a key. -/
inductive Reading.ExpectsKey : Reading → List (Lexeme String × Node) → Place → Prop
  | first (outer : Place) : ExpectsKey (.inMap [] outer) [] outer
  | next (done : List (Lexeme String × Node)) (outer : Place) :
    ExpectsKey (.atKey done outer) done outer

theorem Reading.ExpectsKey.run {reading : Reading} {done : List (Lexeme String × Node)}
    {outer : Place} (h : reading.ExpectsKey done outer) {name : List Char} {key : Lexeme String}
    (spelled : Spelled name key) (rest : List Char) :
    reading.run (name ++ ':' :: rest) = (Reading.atValue (.entry done key outer)).run rest := by
  rw [Reading.run_token (spelled _), Reading.run_colon]
  cases h <;> rfl

theorem WrittenEntries.run {text : List Char} {entries : Entries} (h : WrittenEntries text entries)
    {reading : Reading} {done : List (Lexeme String × Node)} {outer : Place}
    (expects : reading.ExpectsKey done outer) (rest : List Char) :
    reading.run (text ++ rest) = (outer.receive (.map (.ofNewest done entries))).run rest := by
  induction h generalizing reading done with
  | last spelled written =>
    rw [List.append_assoc, List.append_assoc, List.cons_append, expects.run spelled,
      List.singleton_append, written (.atValue _) (.cons (by decide) (by decide) rest),
      Reading.run_closeMap]
    rfl
  | more spelled written _ ih =>
    rw [List.append_assoc, List.append_assoc, List.cons_append, expects.run spelled,
      List.cons_append, written (.atValue _) (.cons (by decide) (by decide) _), Reading.run_comma]
    exact ih (.next _ _)

namespace Written

theorem emptyList (gap : Gap) :
    Written ('[' :: gap.text ++ [']']) (.list .closed) := by
  intro reading place expects rest _
  rw [List.append_assoc, List.cons_append, Reading.run_openList, expects.step (by nofun),
    Reading.run_gap, List.singleton_append, Reading.run_closeList]
  rfl

theorem list {text : List Char} {items : Items} (h : WrittenItems text items) :
    Written ('[' :: text) (.list items) := by
  intro reading place expects rest _
  rw [List.cons_append, Reading.run_openList, expects.step (by nofun)]
  exact h.run (.first place) rest

theorem emptyMap (gap : Gap) :
    Written ('\x7b' :: gap.text ++ ['\x7d']) (.map .closed) := by
  intro reading place expects rest _
  rw [List.append_assoc, List.cons_append, Reading.run_openMap, expects.step (by nofun),
    Reading.run_gap, List.singleton_append, Reading.run_closeMap]
  rfl

theorem map {text : List Char} {entries : Entries} (h : WrittenEntries text entries) :
    Written ('\x7b' :: text) (.map entries) := by
  intro reading place expects rest _
  rw [List.cons_append, Reading.run_openMap, expects.step (by nofun)]
  exact h.run (.first place) rest

end Written

theorem WrittenItems.spaced {text : List Char} {items : Items} (h : WrittenItems text items)
    (gap : Gap) : WrittenItems (gap.text ++ text) items := by
  cases h with
  | last written =>
    rw [← List.append_assoc]
    exact .last (written.behind gap)
  | more written others =>
    rw [← List.append_assoc]
    exact .more (written.behind gap) others

theorem nodes_eq (text : List Char) :
    nodes (String.ofList text) = ((Reading.between []).run text).finish := by
  rw [nodes, String.toList_ofList, Reading.run]

theorem Written.nodes {text : List Char} {node : Node} (h : Written text node) :
    nodes (String.ofList text) = [node] := by
  have read := h (.between []) Apart.nil
  rw [List.append_nil] at read
  rw [nodes_eq, read, Reading.run, tokens]
  rfl

/-! ## The node of a value -/

mutual

/-- The node that a written value is read as. -/
def Value.node : Value → Node
  | .null => .null
  | .boolean value => .boolean value
  | .number value => .number (.sound value)
  | .string value => .string (.sound value)
  | .list items => .list (nodeItems items)
  | .map entries => .map (nodeEntries entries)

def nodeItems : List Value → Items
  | [] => .closed
  | item :: rest => .cons item.node (nodeItems rest)

def nodeEntries : List (String × Value) → Entries
  | [] => .closed
  | (key, value) :: rest => .cons (.sound key) value.node (nodeEntries rest)

end

/-- A value whose numbers are naturals of 64 bits and whose lists and maps nest at most so deep. -/
inductive Plain : Nat → Value → Prop
  | null {levels : Nat} : Plain levels .null
  | boolean {levels : Nat} (value : Bool) : Plain levels (.boolean value)
  | natural {levels n : Nat} : n < UInt64.size → Plain levels (.number (.integer n))
  | string {levels : Nat} (text : String) : Plain levels (.string text)
  | list {levels : Nat} {items : List Value} :
    (∀ item ∈ items, Plain levels item) → Plain (levels + 1) (.list items)
  | map {levels : Nat} {entries : List (String × Value)} :
    (∀ entry ∈ entries, Plain levels entry.2) → Plain (levels + 1) (.map entries)

theorem writtenItems_compact {items : List Value} (some : items ≠ [])
    (written : ∀ item ∈ items, Written item.compact item.node) :
    WrittenItems (compactItems items) (nodeItems items) := by
  induction items with
  | nil => contradiction
  | cons item rest ih =>
    have first := written item (by simp)
    cases rest with
    | nil =>
      simp only [compactItems, nodeItems]
      exact .last first
    | cons next rest =>
      rw [compactItems, nodeItems]
      · exact .more first (ih (by simp) fun other listed => written other (by simp [listed]))
      · simp

theorem writtenEntries_compact {entries : List (String × Value)} (some : entries ≠ [])
    (written : ∀ entry ∈ entries, Written entry.2.compact entry.2.node) :
    WrittenEntries (compactEntries entries) (nodeEntries entries) := by
  induction entries with
  | nil => contradiction
  | cons entry rest ih =>
    obtain ⟨key, value⟩ := entry
    have first : Written value.compact value.node := written (key, value) (by simp)
    cases rest with
    | nil =>
      simp only [compactEntries, nodeEntries]
      exact .last (tokens_writeString key) first
    | cons next rest =>
      rw [compactEntries, nodeEntries]
      · exact .more (tokens_writeString key) first
          (ih (by simp) fun other listed => written other (by simp [listed]))
      · simp

/-- What is written for a value without any space stands for its node. -/
theorem Plain.written {levels : Nat} {value : Value} (h : Plain levels value) :
    Written value.compact value.node := by
  induction h with
  | null => exact .null
  | boolean value => exact .boolean value
  | natural small => exact .natural small
  | string text => exact .string text
  | @list _ items _ ih =>
    rw [Value.compact, Value.node]
    cases items with
    | nil => exact .emptyList .empty
    | cons => exact .list (writtenItems_compact (by simp) ih)
  | @map _ entries _ ih =>
    rw [Value.compact, Value.node]
    cases entries with
    | nil => exact .emptyMap .empty
    | cons => exact .map (writtenEntries_compact (by simp) ih)

theorem nodeItems_values {levels : Nat} {items : List Value}
    (read : ∀ item ∈ items, item.node.value levels = .ok item) :
    (nodeItems items).values levels = .ok items := by
  induction items with
  | nil => rfl
  | cons item rest ih =>
    rw [nodeItems, Items.values, read item (by simp),
      ih fun other listed => read other (by simp [listed])]
    rfl

theorem nodeEntries_values {levels : Nat} {entries : List (String × Value)}
    (read : ∀ entry ∈ entries, entry.2.node.value levels = .ok entry.2) :
    (nodeEntries entries).values levels = .ok entries := by
  induction entries with
  | nil => rfl
  | cons entry rest ih =>
    obtain ⟨key, value⟩ := entry
    rw [nodeEntries, Entries.values, read (key, value) (by simp),
      ih fun other listed => read other (by simp [listed])]
    rfl

/-- The node of a value has that value. -/
theorem Plain.value {levels : Nat} {value : Value} (h : Plain levels value) :
    value.node.value levels = .ok value := by
  induction h with
  | null | boolean | natural | string => rfl
  | list _ ih =>
    simp only [Value.node, Node.value, enterLevel, bind, Except.bind, nodeItems_values ih]
    rfl
  | map _ ih =>
    simp only [Value.node, Node.value, enterLevel, bind, Except.bind, nodeEntries_values ih]
    rfl

end TemplateTrace.Json
