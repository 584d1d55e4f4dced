import TemplateTrace.Json.Decode
import TemplateTrace.Proofs.Joints
import TemplateTrace.Proofs.Written

/-!
# Texts within texts

What is read as one value on its own is read alike wherever a value may stand. A reading of one
value never looks at what is around it: with any place put under the bottom of its stack it takes
the same steps (`Reading.step_graft`), up to the token that completes the value.

A reading that stops leaves a value that is refused, so a text with a value is read to its end. It
is then `Written` for the node it is read as on its own (`Written.ofText`), and a text of a string
is the spelling of a key (`Spelled.ofText`).
-/

namespace TemplateTrace.Json

/-! ## Readings under a place -/

/-- A place with another in place of the top of the text. -/
def Place.graft (outer : Place) : Place → Place
  | .top _ => outer
  | .item items inner => .item items (graft outer inner)
  | .entry entries key inner => .entry entries key (graft outer inner)

/-- How many values have begun at the top of the text, this one included. -/
def Place.begun : Place → Nat
  | .top done => done.length + 1
  | .item _ inner => inner.begun
  | .entry _ _ inner => inner.begun

namespace Reading

/-- A reading of at most one value, with a place in place of the top of the text. -/
def graft (outer : Place) : Reading → Reading
  | between [] => .atValue outer
  | between (node :: _) => outer.receive node
  | atValue place => .atValue (Place.graft outer place)
  | inList items inner => .inList items (Place.graft outer inner)
  | inMap entries inner => .inMap entries (Place.graft outer inner)
  | atKey entries inner => .atKey entries (Place.graft outer inner)
  | atColon entries key inner => .atColon entries key (Place.graft outer inner)
  | stopped nodes => .stopped nodes

/-- How many values have begun at the top of the text. -/
def begun : Reading → Nat
  | between done => done.length
  | atValue place | inList _ place | inMap _ place | atKey _ place | atColon _ _ place =>
    place.begun
  | stopped nodes => nodes.length

theorem graft_receive (outer place : Place) (node : Node) :
    (place.receive node).graft outer = (Place.graft outer place).receive node := by
  cases place <;> rfl

theorem begun_receive (place : Place) (node : Node) : (place.receive node).begun = place.begun := by
  cases place <;> rfl

theorem length_abandon (place : Place) (node : Node) :
    (place.abandon node).length = place.begun := by
  induction place generalizing node with
  | top => simp [Place.abandon, Place.begun]
  | item _ _ ih => exact ih _
  | entry _ _ _ ih => exact ih _

theorem begun_stepValue (place : Place) (token : Token) :
    (stepValue place token).begun = place.begun := by
  cases token with
  | openList | openMap => rfl
  | null | boolean | number | string => exact begun_receive _ _
  | misspelt | closeMap | comma | colon | stray => exact length_abandon _ _
  | closeList =>
    cases place with
    | item items outer => cases items <;> exact length_abandon _ _
    | top | entry => exact length_abandon _ _

/-- A step begins no more than one value, and does so only between values. -/
theorem begun_step (reading : Reading) (token : Token) :
    (reading.step token).begun =
      match reading with
      | between done => done.length + 1
      | _ => reading.begun := by
  unfold step
  split <;> first
    | exact begun_stepValue _ _
    | exact begun_receive _ _
    | exact length_abandon _ _
    | rfl

theorem graft_stepValue (outer place : Place) {token : Token}
    (reads : ∀ nodes, stepValue place token ≠ .stopped nodes) :
    stepValue (Place.graft outer place) token = (stepValue place token).graft outer := by
  cases token with
  | openList | openMap => rfl
  | null | boolean | number | string => exact (graft_receive _ _ _).symm
  | misspelt | closeMap | comma | colon | stray => exact absurd rfl (reads _)
  | closeList =>
    cases place with
    | item items outer => cases items <;> exact absurd rfl (reads _)
    | top | entry => exact absurd rfl (reads _)

/-- Until its first value is complete, a reading that does not stop takes the same steps under any
place. -/
theorem step_graft (outer : Place) {reading : Reading} {token : Token}
    (incomplete : ∀ node done, reading ≠ .between (node :: done))
    (reads : ∀ nodes, reading.step token ≠ .stopped nodes) :
    (reading.graft outer).step token = (reading.step token).graft outer := by
  cases reading with
  | between done =>
    cases done with
    | nil => exact graft_stepValue outer (.top []) reads
    | cons node done => exact absurd rfl (incomplete node done)
  | atValue place => exact graft_stepValue outer place reads
  | inList items place =>
    cases items with
    | nil =>
      by_cases closes : token = .closeList
      · subst closes
        exact (graft_receive _ _ _).symm
      · rw [(Expects.first place).step closes] at reads ⊢
        rw [graft, (Expects.first _).step closes]
        exact graft_stepValue outer (.item [] place) reads
    | cons =>
      cases token with
      | closeList => exact (graft_receive _ _ _).symm
      | comma => rfl
      | _ => exact absurd rfl (reads _)
  | inMap entries place =>
    cases entries with
    | nil =>
      cases token with
      | closeMap => exact (graft_receive _ _ _).symm
      | string => rfl
      | _ => exact absurd rfl (reads _)
    | cons =>
      cases token with
      | closeMap => exact (graft_receive _ _ _).symm
      | comma => rfl
      | _ => exact absurd rfl (reads _)
  | atKey =>
    cases token with
    | string => rfl
    | _ => exact absurd rfl (reads _)
  | atColon =>
    cases token with
    | colon => rfl
    | _ => exact absurd rfl (reads _)
  | stopped => exact absurd rfl (reads _)

def steps (reading : Reading) (tokens : List Token) : Reading := tokens.foldl step reading

theorem steps_cons (reading : Reading) (token : Token) (tokens : List Token) :
    reading.steps (token :: tokens) = (reading.step token).steps tokens := rfl

theorem steps_stopped (nodes : List Node) (tokens : List Token) :
    (stopped nodes).steps tokens = .stopped nodes := by
  induction tokens with
  | nil => rfl
  | cons token rest ih => exact ih

theorem begun_le_steps (reading : Reading) (tokens : List Token) :
    reading.begun ≤ (reading.steps tokens).begun := by
  induction tokens generalizing reading with
  | nil => exact Nat.le_refl _
  | cons token rest ih =>
    refine Nat.le_trans ?_ (ih (reading.step token))
    rw [begun_step]
    cases reading <;> simp [begun]

/-- What is read as one value at the top of a text goes into any other place alike. -/
theorem steps_graft (outer : Place) {reading : Reading} {tokens : List Token} {node : Node}
    (whole : reading.steps tokens = .between [node]) :
    (reading.graft outer).steps tokens = outer.receive node := by
  induction tokens generalizing reading with
  | nil =>
    rw [show reading = .between [node] from whole]
    rfl
  | cons token rest ih =>
    rw [steps_cons] at whole ⊢
    -- Another value has begun if one was complete before this token.
    have incomplete : ∀ node done, reading ≠ .between (node :: done) := by
      rintro first done rfl
      have more := begun_le_steps ((between (first :: done)).step token) rest
      rw [whole, begun_step] at more
      simp [begun] at more
    have reads : ∀ nodes, reading.step token ≠ .stopped nodes := by
      intro nodes stop
      rw [stop, steps_stopped] at whole
      contradiction
    rw [step_graft outer incomplete reads]
    exact ih whole

end Reading

/-! ## What comes of a stop -/

theorem ok_of_bind {ε α β : Type} {outcome : Except ε α} {next : α → Except ε β} {b : β}
    (h : outcome >>= next = .ok b) : ∃ a, outcome = .ok a ∧ next a = .ok b := by
  cases outcome with
  | error => contradiction
  | ok a => exact ⟨a, rfl, h⟩

/-- A node that has no value, however many levels may be opened. -/
def Node.Refused (node : Node) : Prop := ∀ levels value, node.value levels ≠ .ok value

theorem values_ofNewest (items : List Node) {tail : Items}
    (refused : ∀ levels values, tail.values levels ≠ .ok values) (levels : Nat)
    (values : List Value) : (Items.ofNewest items tail).values levels ≠ .ok values := by
  induction items generalizing tail with
  | nil => exact refused levels values
  | cons item rest ih =>
    apply ih
    intro levels values read
    rw [Items.values] at read
    obtain ⟨_, -, read⟩ := ok_of_bind read
    obtain ⟨_, read, -⟩ := ok_of_bind read
    exact refused levels _ read

theorem entries_ofNewest (entries : List (Lexeme String × Node)) {tail : Entries}
    (refused : ∀ levels values, tail.values levels ≠ .ok values) (levels : Nat)
    (values : List (String × Value)) :
    (Entries.ofNewest entries tail).values levels ≠ .ok values := by
  induction entries generalizing tail with
  | nil => exact refused levels values
  | cons entry rest ih =>
    apply ih
    intro levels values read
    rw [Entries.values] at read
    obtain ⟨_, -, read⟩ := ok_of_bind read
    obtain ⟨_, -, read⟩ := ok_of_bind read
    obtain ⟨_, read, -⟩ := ok_of_bind read
    exact refused levels _ read

theorem refused_list (items : List Node) (fault : ListFault) :
    (Node.list (.ofNewest items (.broken fault))).Refused := by
  intro levels value read
  rw [Node.value] at read
  obtain ⟨_, -, read⟩ := ok_of_bind read
  obtain ⟨_, read, -⟩ := ok_of_bind read
  exact values_ofNewest items (by simp [Items.values]) _ _ read

theorem refused_map (entries : List (Lexeme String × Node)) (fault : MapFault) :
    (Node.map (.ofNewest entries (.broken fault))).Refused := by
  intro levels value read
  rw [Node.value] at read
  obtain ⟨_, -, read⟩ := ok_of_bind read
  obtain ⟨_, read, -⟩ := ok_of_bind read
  exact entries_ofNewest entries (by simp [Entries.values]) _ _ read

theorem refused_flawed (flaw : Flaw) : (Node.flawed flaw).Refused := by
  intro levels value
  simp [Node.value]

/-- What is wrong in a place leaves a value without a value at the top of the text. -/
theorem Place.abandon_refused (place : Place) {node : Node} (refused : node.Refused) :
    ∃ other ∈ place.abandon node, other.Refused := by
  induction place generalizing node with
  | top done => exact ⟨node, by simp [abandon], refused⟩
  | item items outer ih => exact ih (refused_list _ _)
  | entry entries key outer ih => exact ih (refused_map _ _)

namespace Reading

theorem receive_ne_stopped (place : Place) (node : Node) (nodes : List Node) :
    place.receive node ≠ .stopped nodes := by
  cases place <;> nofun

theorem stepValue_stopped {place : Place} {token : Token} {nodes : List Node}
    (stop : stepValue place token = .stopped nodes) : ∃ node ∈ nodes, node.Refused := by
  cases token with
  | openList | openMap => contradiction
  | null | boolean | number | string => exact absurd stop (receive_ne_stopped _ _ _)
  | misspelt | closeMap | comma | colon | stray =>
    cases stop
    exact place.abandon_refused (refused_flawed _)
  | closeList =>
    cases place with
    | item items outer =>
      cases items <;> cases stop
      · exact Place.abandon_refused _ (refused_flawed _)
      · exact outer.abandon_refused (refused_list _ _)
    | top | entry =>
      cases stop
      exact Place.abandon_refused _ (refused_flawed _)

/-- A reading stops only with a value that is refused. -/
theorem step_stopped {reading : Reading} {token : Token} {nodes : List Node}
    (stop : reading.step token = .stopped nodes) :
    reading = .stopped nodes ∨ ∃ node ∈ nodes, node.Refused := by
  unfold step at stop
  split at stop
  -- A reading that has stopped takes no more tokens.
  case h_17 => exact .inl stop
  all_goals refine .inr ?_
  all_goals first
    | contradiction
    | exact stepValue_stopped stop
    | exact absurd stop (receive_ne_stopped _ _ _)
    | (cases stop; exact Place.abandon_refused _ (refused_list _ _))
    | (cases stop; exact Place.abandon_refused _ (refused_map _ _))
    | (cases stop; exact Place.abandon_refused _ (refused_flawed _))

theorem refused_of_steps {tokens : List Token} {reading : Reading} {nodes : List Node}
    (stop : reading.steps tokens = .stopped nodes) :
    reading = .stopped nodes ∨ ∃ node ∈ nodes, node.Refused := by
  induction tokens generalizing reading with
  | nil => exact .inl stop
  | cons token rest ih =>
    rcases ih stop with stop | refused
    · exact step_stopped stop
    · exact .inr refused

/-- A text that ends with one value read, and this one not refused, is complete there. -/
theorem steps_of_finish {tokens : List Token} {node : Node}
    (only : ((between []).steps tokens).finish = [node]) (read : ¬ node.Refused) :
    (between []).steps tokens = .between [node] := by
  have accepted : ¬ ∃ other ∈ ((between []).steps tokens).finish, other.Refused := by
    simpa [only] using read
  cases reached : (between []).steps tokens with
  | between done =>
    rw [reached, finish] at only
    rw [← List.reverse_reverse done, only]
    rfl
  | stopped nodes =>
    rw [reached, finish] at accepted
    exact absurd ((refused_of_steps reached).resolve_left nofun) accepted
  | atValue | atColon =>
    rw [reached, finish] at accepted
    exact absurd (Place.abandon_refused _ (refused_flawed _)) accepted
  | inList =>
    rw [reached, finish] at accepted
    exact absurd (Place.abandon_refused _ (refused_list _ _)) accepted
  | inMap | atKey =>
    rw [reached, finish] at accepted
    exact absurd (Place.abandon_refused _ (refused_map _ _)) accepted

/-- A token that is a value, and the node of it. -/
inductive Lone : Token → Node → Prop
  | null : Lone .null .null
  | boolean (value : Bool) : Lone (.boolean value) (.boolean value)
  | number (lexeme : Lexeme Number) : Lone (.number lexeme) (.number lexeme)
  | string (lexeme : Lexeme String) : Lone (.string lexeme) (.string lexeme)

theorem stepValue_between {place : Place} {token : Token} {node : Node} {done : List Node}
    (complete : stepValue place token = .between (node :: done)) :
    place = .top done ∧ Lone token node := by
  cases place with
  | top =>
    cases token <;> cases complete
    · exact ⟨rfl, .null⟩
    · exact ⟨rfl, .boolean _⟩
    · exact ⟨rfl, .number _⟩
    · exact ⟨rfl, .string _⟩
  | item items =>
    cases token with
    | closeList => cases items <;> contradiction
    | _ => contradiction
  | entry =>
    cases token <;> contradiction

/-- A reading that waits for the first value of a text. -/
inductive Starts : Reading → Prop
  | between : Starts (.between [])
  | atValue (done : List Node) : Starts (.atValue (.top done))

/-- All that completes a value at the top of a text: a token where a value should be, or a closing
bracket or brace. -/
theorem step_between {reading : Reading} {token : Token} {node : Node}
    (complete : reading.step token = .between [node]) :
    (reading.Starts ∧ Lone token node) ∨
      (token = .closeList ∧ ∃ items, node = .list items) ∨
      (token = .closeMap ∧ ∃ entries, node = .map entries) := by
  unfold step at complete
  split at complete
  case h_1 =>
    obtain ⟨place, lone⟩ := stepValue_between complete
    cases place
    exact .inl ⟨.between, lone⟩
  case h_2 =>
    obtain ⟨rfl, lone⟩ := stepValue_between complete
    exact .inl ⟨.atValue [], lone⟩
  case h_3 items outer =>
    cases outer <;> cases complete
    exact .inr (.inl ⟨rfl, _, rfl⟩)
  case h_4 => nomatch (stepValue_between complete).1
  case h_7 entries outer =>
    cases outer <;> cases complete
    exact .inr (.inr ⟨rfl, _, rfl⟩)
  all_goals contradiction

theorem not_starts_receive (place : Place) (node : Node) : ¬ (place.receive node).Starts := by
  cases place <;> nofun

theorem not_starts_stepValue (place : Place) (token : Token) :
    ¬ (stepValue place token).Starts := by
  cases token with
  | closeList =>
    cases place with
    | item items => cases items <;> nofun
    | top | entry => nofun
  | null | boolean | number | string => exact not_starts_receive _ _
  | _ => nofun

/-- No step leads back to the start. -/
theorem not_starts_step (reading : Reading) (token : Token) : ¬ (reading.step token).Starts := by
  unfold step
  split <;> first
    | exact not_starts_stepValue _ _
    | exact not_starts_receive _ _
    | (intro start; cases start)

theorem steps_concat (reading : Reading) (tokens : List Token) (token : Token) :
    reading.steps (tokens ++ [token]) = (reading.steps tokens).step token := by
  rw [steps, List.foldl_append]
  rfl

end Reading

/-! ## Texts read on their own -/

theorem node_of_readOne {α : Type} {read : Node → Except Error α} {text : String} {a : α}
    (accepted : readOne read text = .ok a) : ∃ node, nodes text = [node] ∧ read node = .ok a := by
  unfold readOne at accepted
  split at accepted
  · contradiction
  · next node only => exact ⟨node, only, accepted⟩
  · obtain ⟨_, -, behind⟩ := ok_of_bind accepted
    contradiction

section
variable {text : String} {node : Node} (only : nodes text = [node])
  {levels : Nat} {value : Value} (read : node.value levels = .ok value)
include only read

theorem steps_of_nodes : (Reading.between []).steps (tokens text.toList) = .between [node] :=
  Reading.steps_of_finish only fun refused => refused levels value read

/-- The last token of a text with a value is the value, or closes it. -/
theorem last_ends {more : List Char} (apart : Apart more) :
    ∀ token ∈ (tokens text.toList).getLast?, token.Ends more := by
  intro token last
  obtain ⟨front, split⟩ := List.getLast?_eq_some_iff.mp last
  have complete := steps_of_nodes only read
  rw [split, Reading.steps_concat] at complete
  rcases Reading.step_between complete with ⟨-, lone⟩ | ⟨rfl, -⟩ | ⟨rfl, -⟩
  · cases lone with
    | null | boolean => trivial
    | number lexeme =>
      rw [Node.value] at read
      obtain ⟨n, found, -⟩ := ok_of_map read
      exact ⟨⟨n, found⟩, apart⟩
    | string lexeme =>
      rw [Node.value] at read
      obtain ⟨name, found, -⟩ := ok_of_map read
      exact ⟨name, found⟩
  · trivial
  · trivial

/-- A text with a value is written for its node wherever a value may stand. -/
theorem written_of_nodes : Written text.toList node := by
  intro reading place expects rest apart
  have whole := steps_of_nodes only read
  have grafted : (Reading.atValue place).steps (tokens text.toList) = place.receive node :=
    Reading.steps_graft place whole
  have entered : reading.steps (tokens text.toList) = place.receive node := by
    rw [← grafted]
    cases listed : tokens text.toList with
    | nil =>
      rw [listed] at whole
      cases (whole : Reading.between [] = .between [node])
    | cons token others =>
      have other : token ≠ .closeList := by
        rintro rfl
        rw [listed, Reading.steps_cons] at whole
        cases (Reading.steps_stopped _ others).symm.trans whole
      rw [Reading.steps_cons, Reading.steps_cons, expects.step other]
      rfl
  rw [Reading.run, tokens_append (last_ends only read apart), List.foldl_append]
  exact congrArg (fun reading => Reading.steps reading (tokens rest)) entered

end

/-- A text of a string is one token. -/
theorem tokens_of_nodes {text : String} {lexeme : Lexeme String}
    (only : nodes text = [.string lexeme]) {name : String} (read : lexeme.read = .ok name) :
    tokens text.toList = [.string lexeme] := by
  have value : (Node.string lexeme).value 0 = .ok (.string name) := by rw [Node.value, read]; rfl
  have whole := steps_of_nodes only value
  cases last : (tokens text.toList).getLast? with
  | none =>
    rw [List.getLast?_eq_none_iff.mp last] at whole
    cases (whole : Reading.between [] = .between [_])
  | some token =>
    obtain ⟨front, split⟩ := List.getLast?_eq_some_iff.mp last
    rw [split, Reading.steps_concat] at whole
    rcases Reading.step_between whole with ⟨before, lone⟩ | ⟨-, _, other⟩ | ⟨-, _, other⟩
    · cases lone
      -- The string is the first token: a step before it would have left the start.
      rcases List.eq_nil_or_concat front with rfl | ⟨others, earlier, rfl⟩
      · rw [split, List.nil_append]
      · rw [List.concat_eq_append, Reading.steps_concat] at before
        exact absurd before (Reading.not_starts_step _ _)
    · cases other
    · cases other

/-- A text of a string spells a key. -/
theorem Spelled.ofText {text name : String} (read : readOne Node.asString text = .ok name) :
    ∃ lexeme, lexeme.read = .ok name ∧ Spelled text.toList lexeme := by
  obtain ⟨node, only, read⟩ := node_of_readOne read
  cases node with
  | string lexeme =>
    have single := tokens_of_nodes only read
    refine ⟨lexeme, read, fun rest => ?_⟩
    have ends : ∀ token ∈ (tokens text.toList).getLast?, token.Ends rest := by
      rw [single]
      rintro token ⟨⟩
      exact ⟨name, read⟩
    rw [tokens_append ends, single]
    rfl
  | flawed | null | boolean | list | map => contradiction
  | number lexeme =>
    obtain ⟨_, -, refused⟩ := ok_of_bind (show lexeme.read.map Found.number >>= _ = _ from read)
    contradiction

/-- A text with a value is written for a node that has it. -/
theorem Written.ofText {text : String} {levels : Nat} {value : Value}
    (read : readOne (Node.value levels) text = .ok value) :
    ∃ node, node.value levels = .ok value ∧ Written text.toList node := by
  obtain ⟨node, only, read⟩ := node_of_readOne read
  exact ⟨node, read, written_of_nodes only read⟩

end TemplateTrace.Json
