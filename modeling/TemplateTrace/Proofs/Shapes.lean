import Mathlib.Data.List.Forall2
import TemplateTrace.Proofs.Embedded

/-!
# Records in either shape

A record is read from a map of its fields or from a list of them. `Shaped parts value` says that a
value is one of the two for the parts of a record: a map with each part once, in any order, where
some may be left out, or a list of all of them in theirs. With `Held` a map may hold other entries
as well.

The state of a reading depends on nothing but the names of the fields that were read. So a shape
`Follows` parts if each field takes the state of some names to that of one more
(`Field.Reads`), and reads every value of the two shapes alike (`Follows.ofNode`,
`Follows.ofValue`).
-/

namespace TemplateTrace.Json

/-! ## Nodes and their values -/

/-- A node whose value is at least of this form: what is in a list or map has values too. -/
inductive Node.Has : Node → Value → Prop
  | null : Has .null .null
  | boolean (value : Bool) : Has (.boolean value) (.boolean value)
  | number {lexeme : Lexeme Number} {n : Number} :
    lexeme.read = .ok n → Has (.number lexeme) (.number n)
  | string {lexeme : Lexeme String} {text : String} :
    lexeme.read = .ok text → Has (.string lexeme) (.string text)
  | list {levels : Nat} {items : Items} {values : List Value} :
    items.values levels = .ok values → Has (.list items) (.list values)
  | map {levels : Nat} {entries : Entries} {values : List (String × Value)} :
    entries.values levels = .ok values → Has (.map entries) (.map values)

theorem Node.has_of_value {levels : Nat} {node : Node} {value : Value}
    (read : node.value levels = .ok value) : node.Has value := by
  cases node with
  | flawed => rw [Node.value] at read; contradiction
  | null => rw [Node.value] at read; cases read; exact .null
  | boolean => rw [Node.value] at read; cases read; exact .boolean _
  | number =>
    rw [Node.value] at read
    obtain ⟨n, found, rfl⟩ := ok_of_map read
    exact .number found
  | string =>
    rw [Node.value] at read
    obtain ⟨text, found, rfl⟩ := ok_of_map read
    exact .string found
  | list =>
    rw [Node.value] at read
    obtain ⟨_, -, read⟩ := ok_of_bind read
    obtain ⟨values, found, made⟩ := ok_of_bind read
    cases made
    exact .list found
  | map =>
    rw [Node.value] at read
    obtain ⟨_, -, read⟩ := ok_of_bind read
    obtain ⟨values, found, made⟩ := ok_of_bind read
    cases made
    exact .map found

theorem Items.closed_of_values {levels : Nat} {items : Items}
    (read : items.values levels = .ok []) : items = .closed := by
  cases items with
  | closed => rfl
  | broken => rw [Items.values] at read; contradiction
  | cons =>
    rw [Items.values] at read
    obtain ⟨_, -, read⟩ := ok_of_bind read
    obtain ⟨_, -, made⟩ := ok_of_bind read
    cases made

theorem Items.cons_of_values {levels : Nat} {items : Items} {value : Value} {values : List Value}
    (read : items.values levels = .ok (value :: values)) :
    ∃ item rest, items = .cons item rest ∧ item.Has value ∧ rest.values levels = .ok values := by
  cases items with
  | closed | broken => rw [Items.values] at read; cases read
  | cons item rest =>
    rw [Items.values] at read
    obtain ⟨_, first, read⟩ := ok_of_bind read
    obtain ⟨_, others, made⟩ := ok_of_bind read
    cases made
    exact ⟨item, rest, rfl, Node.has_of_value first, others⟩

theorem Entries.closed_of_values {levels : Nat} {entries : Entries}
    (read : entries.values levels = .ok []) : entries = .closed := by
  cases entries with
  | closed => rfl
  | broken => rw [Entries.values] at read; contradiction
  | cons =>
    rw [Entries.values] at read
    obtain ⟨_, -, read⟩ := ok_of_bind read
    obtain ⟨_, -, read⟩ := ok_of_bind read
    obtain ⟨_, -, made⟩ := ok_of_bind read
    cases made

theorem Entries.cons_of_values {levels : Nat} {entries : Entries} {name : String} {value : Value}
    {values : List (String × Value)}
    (read : entries.values levels = .ok ((name, value) :: values)) :
    ∃ key node rest, entries = .cons key node rest ∧ key.read = .ok name ∧
      node.value levels = .ok value ∧ rest.values levels = .ok values := by
  cases entries with
  | closed | broken => rw [Entries.values] at read; cases read
  | cons key node rest =>
    rw [Entries.values] at read
    obtain ⟨_, spelled, read⟩ := ok_of_bind read
    obtain ⟨_, first, read⟩ := ok_of_bind read
    obtain ⟨_, others, made⟩ := ok_of_bind read
    cases made
    exact ⟨key, node, rest, rfl, spelled, first, others⟩

/-! ## Parts of a record -/

/-- A part of a record: the name of its field, the values that stand for it, and when the field may
be left out. -/
structure Part where
  name : String
  form : Value → Prop
  optional : Prop := False

/-- Entries that hold each part of a record once, in any order and among any others. A part that may
be left out may be missing. -/
def Bears (parts : List Part) (entries : List (String × Value)) : Prop :=
  ∀ part ∈ parts,
    (∀ entry ∈ entries, entry.1 = part.name → part.form entry.2) ∧
    ((entries.map Prod.fst).count part.name = 1 ∨
      part.optional ∧ part.name ∉ entries.map Prod.fst)

/-- The two shapes of a record: a map with its parts and nothing else, or a list of all of them in
order. -/
inductive Shaped (parts : List Part) : Value → Prop
  | map {entries : List (String × Value)} :
    Bears parts entries → (∀ entry ∈ entries, entry.1 ∈ parts.map Part.name) →
    Shaped parts (.map entries)
  | list {items : List Value} :
    List.Forall₂ Part.form parts items → Shaped parts (.list items)

/-- A value of either shape, where a map may hold anything besides. -/
inductive Held (parts : List Part) : Value → Prop
  | map {entries : List (String × Value)} : Bears parts entries → Held parts (.map entries)
  | list {items : List Value} : List.Forall₂ Part.form parts items → Held parts (.list items)

theorem exists_of_forall₂ {α β : Type*} {relates : α → β → Prop} {as : List α} {bs : List β}
    (h : List.Forall₂ relates as bs) {b : β} (listed : b ∈ bs) : ∃ a ∈ as, relates a b := by
  induction h with
  | nil => contradiction
  | cons first _ ih =>
    rcases List.mem_cons.mp listed with rfl | listed
    · exact ⟨_, List.mem_cons_self, first⟩
    · obtain ⟨a, held, related⟩ := ih listed
      exact ⟨a, List.mem_cons_of_mem _ held, related⟩

theorem Shaped.plain {parts : List Part} {levels : Nat}
    (plain : ∀ part ∈ parts, ∀ value, part.form value → Plain levels value) {value : Value}
    (h : Shaped parts value) : Plain (levels + 1) value := by
  cases h with
  | map bears known =>
    apply Plain.map
    intro entry listed
    obtain ⟨part, held, named⟩ := List.mem_map.mp (known entry listed)
    exact plain part held entry.2 ((bears part held).1 entry listed named.symm)
  | list forms =>
    apply Plain.list
    intro item listed
    obtain ⟨part, held, form⟩ := exists_of_forall₂ forms listed
    exact plain part held item form

/-- Names of which each part's occurs at most once, and not if it was seen before. -/
def Fresh (parts : List Part) (seen names : List String) : Prop :=
  ∀ part ∈ parts, names.count part.name ≤ 1 ∧ (part.name ∈ seen → part.name ∉ names)

theorem Bears.fresh {parts : List Part} {entries : List (String × Value)}
    (h : Bears parts entries) : Fresh parts [] (entries.map Prod.fst) := by
  intro part held
  refine ⟨?_, by simp⟩
  rcases (h part held).2 with once | ⟨-, missing⟩
  · exact Nat.le_of_eq once
  · rw [List.count_eq_zero.mpr missing]
    exact Nat.zero_le 1

namespace Fresh

variable {parts : List Part} {seen names : List String} {name : String}

theorem head (h : Fresh parts seen (name :: names)) {part : Part} (held : part ∈ parts)
    (named : part.name = name) : part.name ∉ seen :=
  fun before => (h part held).2 before (named ▸ List.mem_cons_self)

theorem read (h : Fresh parts seen (name :: names)) : Fresh parts (name :: seen) names := by
  intro part held
  obtain ⟨once, unseen⟩ := h part held
  rw [List.count_cons] at once
  refine ⟨by omega, fun before => ?_⟩
  rcases List.mem_cons.mp before with same | before
  · rw [same, beq_self_eq_true, if_pos rfl] at once
    rw [same]
    exact List.count_eq_zero.mp (by omega)
  · exact fun later => unseen before (List.mem_cons_of_mem _ later)

theorem passed (h : Fresh parts seen (name :: names)) : Fresh parts seen names := by
  intro part held
  obtain ⟨once, unseen⟩ := h part held
  rw [List.count_cons] at once
  exact ⟨by omega, fun before later => unseen before (List.mem_cons_of_mem _ later)⟩

end Fresh

/-- The names seen in the end: those seen before, and those of the parts among the names read. -/
structure Saw (parts : List Part) (seen names last : List String) : Prop where
  kept : seen ⊆ last
  read : ∀ part ∈ parts, part.name ∈ names → part.name ∈ last

namespace Saw

variable {parts : List Part} {seen names last : List String} {name : String}

theorem nothing (parts : List Part) (seen : List String) : Saw parts seen [] seen :=
  ⟨fun _ held => held, by simp⟩

theorem next (h : Saw parts (name :: seen) names last) : Saw parts seen (name :: names) last where
  kept := fun _ before => h.kept (List.mem_cons_of_mem _ before)
  read := by
    intro part held listed
    rcases List.mem_cons.mp listed with same | listed
    · rw [same]
      exact h.kept List.mem_cons_self
    · exact h.read part held listed

theorem passed (h : Saw parts seen names last) (foreign : name ∉ parts.map Part.name) :
    Saw parts seen (name :: names) last where
  kept := h.kept
  read := by
    intro part held listed
    rcases List.mem_cons.mp listed with same | listed
    · exact absurd (List.mem_map.mpr ⟨part, held, same⟩) foreign
    · exact h.read part held listed

end Saw

/-! ## Reading field by field -/

section
variable {ν σ α : Type} (has : ν → Value → Prop) (state : List String → σ)

/-- A field is read as a part: it is not set before its name is seen, and every value of the part
takes the state of some names to that of one more. -/
structure Field.Reads (field : Field ν σ) (part : Part) : Prop where
  name : field.name = part.name
  unset : ∀ seen, part.name ∉ seen → field.isSet (state seen) = false
  set : ∀ seen source value, part.name ∉ seen → has source value → part.form value →
    field.set source (state seen) = .ok (state (part.name :: seen))

/-- A record is read as its parts: it starts with no name seen, and comes to `a` once the names of
all parts are, but for those that may be left out. -/
structure Shape.Follows (shape : Shape ν σ α) (parts : List Part) (a : α) : Prop where
  blank : shape.blank = state []
  fields : List.Forall₂ (Field.Reads has state) shape.fields parts
  distinct : (parts.map Part.name).Nodup
  build : ∀ seen, (∀ part ∈ parts, part.name ∈ seen ∨ part.optional) →
    shape.build (state seen) = .ok a

end

section
variable {ν σ : Type} {has : ν → Value → Prop} {state : List String → σ}
  {fields : List (Field ν σ)} {parts : List Part}
  (reads : List.Forall₂ (Field.Reads has state) fields parts)
include reads

theorem part_of_find? {name : String} {field : Field ν σ}
    (found : fields.find? (fun field => field.name == name) = some field) :
    ∃ part ∈ parts, part.name = name ∧ field.Reads has state part := by
  have named : field.name = name := by simpa using List.find?_some found
  obtain ⟨part, held, read⟩ := exists_of_forall₂ reads.flip (List.mem_of_find?_eq_some found)
  exact ⟨part, held, read.name.symm.trans named, read⟩

theorem not_mem_of_find? {name : String}
    (absent : fields.find? (fun field => field.name == name) = none) :
    name ∉ parts.map Part.name := by
  intro listed
  obtain ⟨part, held, rfl⟩ := List.mem_map.mp listed
  obtain ⟨field, known, read⟩ := exists_of_forall₂ reads held
  have other := List.find?_eq_none.mp absent field known
  simp [read.name] at other

end

section
variable {σ : Type} {state : List String → σ} {parts : List Part}

/-- Entries that were read before are read on their own, in whatever order: the names of the parts
among them are seen in the end. -/
theorem readEntries_of_fresh {fields : List (Field Value σ)}
    (reads : List.Forall₂ (Field.Reads Eq state) fields parts)
    {entries : List (String × Value)} {seen : List String}
    (forms : ∀ part ∈ parts, ∀ entry ∈ entries, entry.1 = part.name → part.form entry.2)
    (fresh : Fresh parts seen (entries.map Prod.fst)) :
    ∃ last, readEntries fields (state seen) entries = .ok (state last) ∧
      Saw parts seen (entries.map Prod.fst) last := by
  induction entries generalizing seen with
  | nil => exact ⟨seen, rfl, .nothing parts seen⟩
  | cons entry rest ih =>
    obtain ⟨name, value⟩ := entry
    have others := fun part held entry listed =>
      forms part held entry (List.mem_cons_of_mem _ listed)
    rw [readEntries]
    cases found : fields.find? (fun field => field.name == name) with
    | none =>
      -- The entry is of no part: the state stays, and no name is seen.
      obtain ⟨last, read, saw⟩ := ih others fresh.passed
      exact ⟨last, read, saw.passed (not_mem_of_find? reads found)⟩
    | some field =>
      obtain ⟨part, held, rfl, reading⟩ := part_of_find? reads found
      have unseen := fresh.head held rfl
      have form := forms part held _ List.mem_cons_self rfl
      obtain ⟨last, read, saw⟩ := ih others fresh.read
      refine ⟨last, ?_, saw.next⟩
      simp only [reading.unset seen unseen, reading.set seen value value unseen rfl form]
      exact read

/-- The entries of a map in a text, if all of them are parts. -/
theorem readFields_of_fresh {fields : List (Field Node σ)}
    (reads : List.Forall₂ (Field.Reads Node.Has state) fields parts) {levels : Nat}
    {entries : Entries} {values : List (String × Value)} {seen : List String}
    (values_eq : entries.values levels = .ok values)
    (forms : ∀ part ∈ parts, ∀ entry ∈ values, entry.1 = part.name → part.form entry.2)
    (known : ∀ entry ∈ values, entry.1 ∈ parts.map Part.name)
    (fresh : Fresh parts seen (values.map Prod.fst)) :
    ∃ last, entries.readFields fields (state seen) = .ok (state last) ∧
      Saw parts seen (values.map Prod.fst) last := by
  induction values generalizing entries seen with
  | nil =>
    rw [Entries.closed_of_values values_eq]
    exact ⟨seen, rfl, .nothing parts seen⟩
  | cons entry rest ih =>
    obtain ⟨name, value⟩ := entry
    obtain ⟨key, node, behind, rfl, spelled, first, after⟩ := Entries.cons_of_values values_eq
    have others := fun part held entry listed =>
      forms part held entry (List.mem_cons_of_mem _ listed)
    rw [Entries.readFields, spelled]
    cases found : fields.find? (fun field => field.name == name) with
    | none => exact absurd (known _ List.mem_cons_self) (not_mem_of_find? reads found)
    | some field =>
      obtain ⟨part, held, rfl, reading⟩ := part_of_find? reads found
      have unseen := fresh.head held rfl
      have form := forms part held _ List.mem_cons_self rfl
      obtain ⟨last, read, saw⟩ := ih after others
        (fun entry listed => known entry (List.mem_cons_of_mem _ listed)) fresh.read
      refine ⟨last, ?_, saw.next⟩
      simp only [bind, Except.bind, found, reading.unset seen unseen,
        reading.set seen node value unseen (Node.has_of_value first) form]
      exact read

/-- Parts of different names, none of which was seen. -/
def Unseen (parts : List Part) (seen : List String) : Prop :=
  (parts.map Part.name).Nodup ∧ ∀ part ∈ parts, part.name ∉ seen

theorem Unseen.start (distinct : (parts.map Part.name).Nodup) : Unseen parts [] :=
  ⟨distinct, by simp⟩

theorem Unseen.tail {part : Part} {seen : List String} (h : Unseen (part :: parts) seen) :
    Unseen parts (part.name :: seen) := by
  obtain ⟨distinct, unseen⟩ := h
  rw [List.map_cons, List.nodup_cons] at distinct
  refine ⟨distinct.2, fun other held => ?_⟩
  rw [List.mem_cons, not_or]
  exact ⟨fun same => distinct.1 (List.mem_map.mpr ⟨other, held, same⟩),
    unseen other (List.mem_cons_of_mem _ held)⟩

theorem reverse_names (part : Part) (parts : List Part) (seen : List String) :
    (parts.map Part.name).reverse ++ part.name :: seen =
      ((part :: parts).map Part.name).reverse ++ seen := by
  simp

/-- Items that were read before are read one for each part, until none is left. -/
theorem readItems_of_forms {fields : List (Field Value σ)}
    (reads : List.Forall₂ (Field.Reads Eq state) fields parts) {items : List Value}
    (forms : List.Forall₂ Part.form parts items) (short : Nat → Error) (needed count : Nat)
    {seen : List String} (unseen : Unseen parts seen) :
    readItems short needed count (state seen) fields items =
      .ok (state ((parts.map Part.name).reverse ++ seen), []) := by
  induction reads generalizing items count seen with
  | nil =>
    cases forms
    rfl
  | @cons field part fields parts reading _ ih =>
    cases forms with
    | @cons _ item _ items form forms =>
      have first := unseen.2 part List.mem_cons_self
      rw [← reverse_names, ← ih forms (count + 1) unseen.tail]
      simp only [readItems, reading.set seen item item first rfl form, bind, Except.bind]

/-- The items of a list in a text. -/
theorem readFields_of_forms {fields : List (Field Node σ)}
    (reads : List.Forall₂ (Field.Reads Node.Has state) fields parts) {levels : Nat} {items : Items}
    {values : List Value} (values_eq : items.values levels = .ok values)
    (forms : List.Forall₂ Part.form parts values) (short : Nat → Error) (count : Nat)
    {seen : List String} (unseen : Unseen parts seen) :
    Items.readFields short count (state seen) fields items =
      .ok (state ((parts.map Part.name).reverse ++ seen)) := by
  induction reads generalizing items values count seen with
  | nil =>
    cases forms
    rw [Items.closed_of_values values_eq]
    rfl
  | @cons field part fields parts reading _ ih =>
    cases forms with
    | @cons _ value _ values form forms =>
      obtain ⟨item, rest, rfl, first, after⟩ := Items.cons_of_values values_eq
      have unread := unseen.2 part List.mem_cons_self
      rw [← reverse_names, ← ih after forms (count + 1) unseen.tail]
      simp only [Items.readFields, reading.set seen item value unread first form, bind, Except.bind]

end

namespace Shape.Follows

variable {σ α : Type} {state : List String → σ} {parts : List Part} {a : α}

theorem build_of_saw {ν : Type} {has : ν → Value → Prop} {shape : Shape ν σ α}
    (h : shape.Follows has state parts a) {entries : List (String × Value)}
    (bears : Bears parts entries) {last : List String}
    (saw : Saw parts [] (entries.map Prod.fst) last) : shape.build (state last) = .ok a := by
  apply h.build
  intro part held
  rcases (bears part held).2 with once | ⟨optional, -⟩
  · exact .inl (saw.read part held (List.one_le_count_iff.mp (Nat.le_of_eq once.symm)))
  · exact .inr optional

theorem build_of_all {ν : Type} {has : ν → Value → Prop} {shape : Shape ν σ α}
    (h : shape.Follows has state parts a) :
    shape.build (state ((parts.map Part.name).reverse ++ [])) = .ok a := by
  apply h.build
  intro part held
  left
  simpa using ⟨part, held, rfl⟩

/-- Entries with the parts of a record, among any others, are read as it. -/
theorem ofEntries {shape : Shape Value σ α} (h : shape.Follows Eq state parts a)
    {entries : List (String × Value)} (bears : Bears parts entries) :
    (readEntries shape.fields shape.blank entries).bind shape.build = .ok a := by
  obtain ⟨last, read, saw⟩ :=
    readEntries_of_fresh h.fields (fun part held => (bears part held).1) bears.fresh
  rw [h.blank, read]
  exact h.build_of_saw bears saw

/-- A value of either shape is read as its record. -/
theorem ofValue {shape : Shape Value σ α} (h : shape.Follows Eq state parts a) {value : Value}
    (held : Held parts value) : shape.ofValue value = .ok a := by
  cases held with
  | map bears => exact h.ofEntries bears
  | list forms =>
    have read := readItems_of_forms h.fields forms shape.tooShort shape.fields.length 0
      (.start h.distinct)
    rw [← h.blank] at read
    rw [Shape.ofValue, read]
    simp only [bind, Except.bind, h.build_of_all, endOfItems]
    rfl

/-- So is a node with such a value. -/
theorem ofNode {shape : Shape Node σ α} (h : shape.Follows Node.Has state parts a) {node : Node}
    {value : Value} (has : node.Has value) (shaped : Shaped parts value) :
    shape.ofNode node = .ok a := by
  cases shaped with
  | map bears known =>
    cases has with
    | map values =>
      obtain ⟨last, read, saw⟩ := readFields_of_fresh h.fields values
        (fun part held => (bears part held).1) known bears.fresh
      rw [Shape.ofNode, h.blank, read]
      exact h.build_of_saw bears saw
  | list forms =>
    cases has with
    | list values =>
      have read := readFields_of_forms h.fields values forms shape.tooShort 0
        (.start h.distinct)
      rw [Shape.ofNode, h.blank, read]
      exact h.build_of_all

end Shape.Follows

/-! ## Fields in slots -/

/-- What is known of a field: nothing before its name is seen. -/
def known {α : Type} (seen : List String) (name : String) (a : α) : Option α :=
  if name ∈ seen then some a else none

theorem known_of_mem {α : Type} {seen : List String} {name : String} (listed : name ∈ seen)
    (a : α) : known seen name a = some a := if_pos listed

@[simp] theorem known_self {α : Type} (seen : List String) (name : String) (a : α) :
    known (name :: seen) name a = some a := known_of_mem List.mem_cons_self a

theorem known_other {α : Type} {name other : String} (apart : name ≠ other) (seen : List String)
    (a : α) : known (other :: seen) name a = known seen name a := by
  simp [known, apart]

/-- What may be left out comes to nothing if it is not known. -/
theorem join_known {α : Type} {seen : List String} {name : String} {a : Option α}
    (h : name ∈ seen ∨ a = none) : (known seen name a).join = a := by
  unfold known
  split
  · rfl
  · next unseen => exact (h.resolve_left unseen).symm

theorem Field.reads_slot {ν σ α : Type} {has : ν → Value → Prop} {state : List String → σ}
    {name : String} {read : ν → Except Error α} {get : σ → Option α} {put : α → σ → σ} {a : α}
    {form : Value → Prop} {optional : Prop}
    (held : ∀ seen, get (state seen) = known seen name a)
    (kept : ∀ seen, put a (state seen) = state (name :: seen))
    (back : ∀ source value, has source value → form value → read source = .ok a) :
    (Field.slot name read get put).Reads has state ⟨name, form, optional⟩ where
  name := rfl
  unset := by
    intro seen unseen
    change (get (state seen)).isSome = false
    rw [held, known, if_neg unseen]
    rfl
  set := by
    intro seen source value _ holds formed
    change (read source).map (fun a => put a (state seen)) = _
    rw [back source value holds formed, ← kept]
    rfl

/-- A slot for a part with one value. -/
theorem Field.reads_value {ν σ α : Type} {has : ν → Value → Prop} {state : List String → σ}
    {name : String} {read : ν → Except Error α} {get : σ → Option α} {put : α → σ → σ} {a : α}
    {value : Value} {optional : Prop}
    (held : ∀ seen, get (state seen) = known seen name a)
    (kept : ∀ seen, put a (state seen) = state (name :: seen))
    (back : ∀ source, has source value → read source = .ok a) :
    (Field.slot name read get put).Reads has state ⟨name, (· = value), optional⟩ := by
  apply Field.reads_slot held kept
  rintro source _ holds rfl
  exact back source holds

end TemplateTrace.Json
