import PiBlocks.Proofs.Json.Members
import PiBlocks.Proofs.Json.Record

/-!
# Parts of a record

A record that could be read has the values of its fields from parts of the text : from the member
with the name of the field, or from the item in its place if the record is written as a list
(`Node.part`). A field without a part has the value of the blank record (`Record.read_part`).
Members the record does not know, and other members inside of a part, have no influence.

What is said of all members inside of a value is true inside of its parts (`Node.Every.part`).
-/

namespace PiBlocks

namespace Json

namespace Node

/-- The first member with a name. -/
def member? (name : String) (members : List (Key × Node)) : Option (Key × Node) :=
  members.find? fun member => member.1.name.toOption == some name

/-- The item in the place of a field. -/
def item? (name : String) (names : List String) (items : List Node) : Option Node :=
  ((names.zip items).find? fun entry => entry.1 == name).map Prod.snd

/-- The part of a value that a field is read from, in a record whose fields have these names. -/
def part (names : List String) (name : String) : Node → Option Node
  | .object _ members _ => (member? name members).map Prod.snd
  | .list _ items _ => item? name names items
  | _ => none

theorem Every.part {P : Key → Node → Prop} {names : List String} {name : String}
    {node found : Node} (h : node.Every P) (hpart : node.part names name = some found) :
    found.Every P := by
  cases h with
  | object _ hs =>
    obtain ⟨member, hmember, rfl⟩ := Option.map_eq_some_iff.1 hpart
    exact hs member (List.mem_of_find?_eq_some hmember)
  | list hs =>
    obtain ⟨entry, hentry, rfl⟩ := Option.map_eq_some_iff.1 hpart
    exact hs entry.2 (List.of_mem_zip (List.mem_of_find?_eq_some hentry)).2
  | _ => cases hpart

end Node

/-! ## Fields and what they set -/

namespace Field

variable {α β γ : Type} {proj : α → β} {reader : Reader β} {name : String}

/-- The field sets a value of the record if it has the name, and else leaves the value alone. -/
def Touches (name : String) (proj : α → β) (reader : Reader β) (field : Field α) : Prop :=
  field.otherName = none ∧ ∀ node change, field.read node = .ok change →
    if field.name = name then ∃ value, reader node = .ok value ∧ ∀ a, proj (change a) = value
    else ∀ a, proj (change a) = proj a

theorem touches_here {required : Bool} {set : β → α → α} (h : ∀ value a, proj (set value a) = value) :
    Touches name proj reader
      { name := name, required := required, read := fun node => do
          let value ← reader node
          return set value } := by
  refine ⟨rfl, fun node change hread => ?_⟩
  obtain ⟨value, hvalue, hchange⟩ := bind_eq_ok hread
  cases hchange
  rw [if_pos rfl]
  exact ⟨value, hvalue, h value⟩

theorem touches_elsewhere {other : String} {required : Bool} {read : Reader γ} {set : γ → α → α}
    (hname : other ≠ name) (h : ∀ value a, proj (set value a) = proj a) :
    Touches name proj reader
      { name := other, required := required, read := fun node => do
          let value ← read node
          return set value } := by
  refine ⟨rfl, fun node change hread => ?_⟩
  obtain ⟨value, -, hchange⟩ := bind_eq_ok hread
  cases hchange
  rw [if_neg hname]
  exact h value

end Field

namespace Record

variable {α β : Type} {record : Record α} {name : String} {proj : α → β} {reader : Reader β}

/-- The value was read from the part, or is the old one if there is no part. -/
def From (reader : Reader β) (old new : β) : Option Node → Prop
  | some node => reader node = .ok new
  | none => new = old

/-- The names of the fields. -/
def names (record : Record α) : List String := record.fields.map Field.name

/-- One field of the record sets a value, and no other one does. -/
structure Sets (record : Record α) (name : String) (proj : α → β) (reader : Reader β) : Prop where
  mem : name ∈ record.names
  nodup : record.names.Nodup
  touches : ∀ field ∈ record.fields, field.Touches name proj reader

variable (h : record.Sets name proj reader)
include h

/-- A member is read into the field with its name. -/
theorem Sets.name_of_find? {field : Field α} {called : String}
    (hfind : record.fields.find? (fun field => field.answers called) = some field) :
    field.name = called := by
  have hanswers := List.find?_some hfind
  simpa [Field.answers, (h.touches field (List.mem_of_find?_eq_some hfind)).1] using hanswers

theorem Sets.ne_of_find? {called : String}
    (hfind : record.fields.find? (fun field => field.answers called) = none) : called ≠ name := by
  rintro rfl
  obtain ⟨field, hfield, hname⟩ := List.mem_map.1 h.mem
  have hanswers := List.find?_eq_none.1 hfind field hfield
  simp [Field.answers, hname] at hanswers

theorem fill_part {b : α} {tail : Tail} : ∀ {members : List (Key × Node)} {a : α}
    {given : List String}, record.fill a given members tail = .ok b →
      (name ∈ given → proj b = proj a) ∧
      (name ∉ given → From reader (proj a) (proj b) ((Node.member? name members).map Prod.snd))
  | [], a, given, hfill => by
    have hsame : b = a := by
      cases tail with
      | closed stop =>
        simp only [Record.fill] at hfill
        split at hfill <;> cases hfill
        rfl
      | halted halt => cases hfill
    rw [hsame]
    exact ⟨fun _ => rfl, fun _ => rfl⟩
  | (key, node) :: members, a, given, hfill => by
    rw [Record.fill] at hfill
    obtain ⟨called, hcalled, hfill⟩ := bind_eq_ok hfill
    have hother (hname : called ≠ name) :
        Node.member? name ((key, node) :: members) = Node.member? name members := by
      simp [Node.member?, hcalled, Except.toOption, hname]
    split at hfill
    · next hfind =>
      obtain ⟨-, -, hfill⟩ := bind_eq_ok hfill
      rw [hother (h.ne_of_find? hfind)]
      exact fill_part hfill
    · next field hfind =>
      have hcalls := h.name_of_find? hfind
      split at hfill
      · cases hfill
      · next hnew =>
        obtain ⟨change, hchange, hfill⟩ := bind_eq_ok hfill
        have htouches := (h.touches field (List.mem_of_find?_eq_some hfind)).2 node change hchange
        have hrest := fill_part hfill
        rw [hcalls] at hnew hrest htouches
        split_ifs at htouches with hname
        · subst hname
          obtain ⟨value, hvalue, hset⟩ := htouches
          refine ⟨fun hgiven => absurd (by simpa using hgiven) hnew, fun _ => ?_⟩
          have hfound : Node.member? called ((key, node) :: members) = some (key, node) := by
            simp [Node.member?, hcalled, Except.toOption]
          rw [hfound, Option.map_some, From, hvalue, hrest.1 List.mem_cons_self, hset]
        · rw [hother hname, ← htouches a]
          refine ⟨fun hgiven => hrest.1 (List.mem_cons_of_mem _ hgiven), fun hgiven => hrest.2 ?_⟩
          exact List.not_mem_cons_of_ne_of_not_mem (Ne.symm hname) hgiven

theorem line_part {b : α} {tail : Tail} : ∀ {fields : List (Field α)} {items : List Node} {a : α}
    {count : Nat}, (∀ field ∈ fields, field ∈ record.fields) → (fields.map Field.name).Nodup →
      record.line a count fields items tail = .ok b →
        (name ∉ fields.map Field.name → proj b = proj a) ∧
        From reader (proj a) (proj b) (Node.item? name (fields.map Field.name) items)
  | [], [], a, count, _, _, hline => by
    cases tail with
    | closed => cases hline; exact ⟨fun _ => rfl, rfl⟩
    | halted => cases hline
  | [], _ :: _, _, _, _, _, hline => by cases hline
  | field :: fields, [], a, count, hmem, hnodup, hline => by
    cases tail with
    | closed stop =>
      rw [Record.line] at hline
      split at hline
      · cases hline
      · have hrest := line_part (fun other hother => hmem other (List.mem_cons_of_mem field hother))
          (List.nodup_cons.1 hnodup).2 hline
        have hnone : Node.item? name (fields.map Field.name) [] = none := by simp [Node.item?]
        rw [hnone] at hrest
        exact ⟨fun _ => hrest.2, hrest.2⟩
    | halted => cases hline
  | field :: fields, item :: items, a, count, hmem, hnodup, hline => by
    rw [Record.line] at hline
    obtain ⟨change, hchange, hline⟩ := bind_eq_ok hline
    obtain ⟨hnew, hnodup⟩ := List.nodup_cons.1 hnodup
    have htouches := (h.touches field (hmem field List.mem_cons_self)).2 item change hchange
    have hrest := line_part (fun other hother => hmem other (List.mem_cons_of_mem field hother))
      hnodup hline
    split_ifs at htouches with hname
    · subst hname
      obtain ⟨value, hvalue, hset⟩ := htouches
      refine ⟨fun hno => absurd List.mem_cons_self hno, ?_⟩
      have hfound : Node.item? field.name ((field :: fields).map Field.name) (item :: items) =
          some item := by simp [Node.item?]
      rw [hfound, From, hvalue, hrest.1 hnew, hset]
    · have hother : Node.item? name ((field :: fields).map Field.name) (item :: items) =
          Node.item? name (fields.map Field.name) items := by simp [Node.item?, hname]
      rw [hother, ← htouches a]
      exact ⟨fun hno => hrest.1 fun hlater => hno (List.mem_cons_of_mem _ hlater), hrest.2⟩

/-- A record that was read has the value of a field from its part. -/
theorem read_part {node : Node} {b : α} (hread : record.read node = .ok b) :
    From reader (proj record.blank) (proj b) (node.part record.names name) := by
  cases node with
  | object start members tail => exact (fill_part h hread).2 List.not_mem_nil
  | list start items tail => exact (line_part h (fun _ => id) h.nodup hread).2
  | _ => cases hread

end Record

/-! ## Values in a part -/

namespace Node

/-- A part that is not null. -/
def present : Option Node → Option Node
  | some (.null _ _) => none
  | part => part

/-- The items of a list. -/
def items : Node → List Node
  | .list _ items _ => items
  | _ => []

/-- Sets the value of a member under its name. -/
def enter (map : OrderedMap Node) (member : Key × Node) : OrderedMap Node :=
  match member.1.name with
  | .ok name => map.insert name member.2
  | .error _ => map

/-- The values of an object under their names, each name where it comes first and with the value
that comes last. -/
def entries : Node → OrderedMap Node
  | .object _ members _ => members.foldl enter []
  | _ => []

variable {P : Key → Node → Prop}

theorem Every.present {part : Option Node} {found : Node} (h : ∀ node ∈ part, node.Every P)
    (hfound : Node.present part = some found) : found.Every P := by
  cases part with
  | none => cases hfound
  | some node => cases node <;> cases hfound <;> exact h _ rfl

theorem Every.items {node item : Node} (h : node.Every P) (hitem : item ∈ node.items) :
    item.Every P := by
  cases h with
  | list hs => exact hs item hitem
  | _ => cases hitem

theorem every_insert {key : String} {node : Node} (h : node.Every P) :
    ∀ {map : OrderedMap Node}, (∀ entry ∈ map, entry.2.Every P) →
      ∀ entry ∈ map.insert key node, entry.2.Every P
  | [], _ => List.forall_mem_singleton.2 h
  | (other, old) :: map, hs => by
    obtain ⟨hold, hmap⟩ := List.forall_mem_cons.1 hs
    rw [OrderedMap.insert]
    split_ifs
    · exact List.forall_mem_cons.2 ⟨h, hmap⟩
    · exact List.forall_mem_cons.2 ⟨hold, every_insert h hmap⟩

theorem every_foldl_enter : ∀ {members : List (Key × Node)} {map : OrderedMap Node},
    (∀ member ∈ members, member.2.Every P) → (∀ entry ∈ map, entry.2.Every P) →
      ∀ entry ∈ members.foldl enter map, entry.2.Every P
  | [], _, _, hs => hs
  | (key, node) :: members, map, h, hs => by
    obtain ⟨hnode, hmembers⟩ := List.forall_mem_cons.1 h
    rw [List.foldl_cons]
    refine every_foldl_enter hmembers ?_
    rw [enter]
    split
    · exact every_insert hnode hs
    · exact hs

theorem Every.entries {node : Node} {entry : String × Node} (h : node.Every P)
    (hentry : entry ∈ node.entries) : entry.2.Every P := by
  cases h with
  | object _ hs => exact every_foldl_enter hs (List.forall_mem_nil _) entry hentry
  | _ => cases hentry

end Node

namespace Read

variable {α : Type} {reader : Reader α}

theorem map_eq_ok {ε α β : Type} {read : Except ε α} {f : α → β} {b : β}
    (h : read.map f = .ok b) : ∃ a, read = .ok a ∧ f a = b := by
  cases read with
  | error => cases h
  | ok a =>
    cases h
    exact ⟨a, rfl, rfl⟩

theorem forall₂_items {tail : Tail} : ∀ {nodes : List Node} {results : List α},
    Read.items reader nodes tail = .ok results →
      List.Forall₂ (fun node result => reader node = .ok result) nodes results
  | [], _, h => by
    obtain ⟨_, -, h⟩ := bind_eq_ok h
    cases h
    exact .nil
  | node :: nodes, _, h => by
    rw [Read.items] at h
    obtain ⟨result, hresult, h⟩ := bind_eq_ok h
    obtain ⟨results, hresults, h⟩ := bind_eq_ok h
    cases h
    exact .cons hresult (forall₂_items hresults)

/-- Items are read one by one. -/
theorem forall₂_list {node : Node} {results : List α} (h : Read.list reader node = .ok results) :
    List.Forall₂ (fun node result => reader node = .ok result) node.items results := by
  cases node with
  | list start nodes tail => exact forall₂_items h
  | _ => cases h

/-- An entry of a map was read from an entry with its name. -/
def ReadsEntry (reader : Reader α) (entry : String × Node) (result : String × α) : Prop :=
  entry.1 = result.1 ∧ reader entry.2 = .ok result.2

theorem forall₂_insert {name : String} {node : Node} {value : α} {nodes : OrderedMap Node}
    {map : OrderedMap α} (hs : List.Forall₂ (ReadsEntry reader) nodes map)
    (h : reader node = .ok value) :
    List.Forall₂ (ReadsEntry reader) (nodes.insert name node) (map.insert name value) := by
  induction hs with
  | nil => exact .cons ⟨rfl, h⟩ .nil
  | @cons entry result nodes map hentry hs ih =>
    rw [OrderedMap.insert, OrderedMap.insert, hentry.1]
    split_ifs
    · exact .cons ⟨rfl, h⟩ hs
    · exact .cons ⟨rfl, hentry.2⟩ ih

theorem forall₂_entries {tail : Tail} {result : OrderedMap α} :
    ∀ {members : List (Key × Node)} {nodes : OrderedMap Node} {map : OrderedMap α},
      List.Forall₂ (ReadsEntry reader) nodes map →
      Read.entries reader map members tail = .ok result →
        List.Forall₂ (ReadsEntry reader) (members.foldl Node.enter nodes) result
  | [], _, _, hs, h => by
    obtain ⟨_, -, h⟩ := bind_eq_ok h
    cases h
    exact hs
  | (key, node) :: members, _, _, hs, h => by
    rw [Read.entries] at h
    obtain ⟨name, hname, h⟩ := bind_eq_ok h
    obtain ⟨value, hvalue, h⟩ := bind_eq_ok h
    rw [List.foldl_cons, Node.enter, hname]
    exact forall₂_entries (forall₂_insert hs hvalue) h

/-- Values of a map are read one by one. -/
theorem forall₂_map {node : Node} {result : OrderedMap α} (h : Read.map reader node = .ok result) :
    List.Forall₂ (ReadsEntry reader) node.entries result := by
  cases node with
  | object start members tail => exact forall₂_entries .nil h
  | _ => cases h

/-- The same of a map that is empty if there is no part. -/
theorem forall₂_elim_map {part : Option Node} {new : OrderedMap α}
    (h : Record.From (Read.map reader) [] new part) :
    List.Forall₂ (ReadsEntry reader) (part.elim [] Node.entries) new := by
  cases part with
  | none =>
    cases h
    exact .nil
  | some node => exact forall₂_map h

/-- The same of a list. -/
theorem forall₂_elim_list {part : Option Node} {new : List α}
    (h : Record.From (Read.list reader) [] new part) :
    List.Forall₂ (fun node result => reader node = .ok result) (part.elim [] Node.items) new := by
  cases part with
  | none =>
    cases h
    exact .nil
  | some node => exact forall₂_list h

/-- A value that may be null is read from a part that is not. -/
theorem rel_optional {part : Option Node} {new : Option α}
    (h : Record.From (Read.optional reader) none new part) :
    Option.Rel (fun node value => reader node = .ok value) (Node.present part) new := by
  cases part with
  | none =>
    cases h
    exact .none
  | some node =>
    cases node with
    | null => cases h; exact .none
    | _ =>
      obtain ⟨value, hvalue, rfl⟩ := map_eq_ok h
      exact .some hvalue

end Read

end Json

end PiBlocks
