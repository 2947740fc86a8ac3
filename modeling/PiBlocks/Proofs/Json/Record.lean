import PiBlocks.Json.Record
import PiBlocks.Proofs.Json.Written
import PiBlocks.Proofs.Maps

/-!
# Reading what was written

A reader `Gives` a result for a value if it reads it from every located value that shows that
value. What is given for strings, numbers, lists and maps is told here once. For a record there
is `Record.Takes` : it goes through the fields in order beside the members that were written, and
says which member a field is read from, which field is left out and which member the record does
not know. It carries the record from what it is before any field is read to what was written
(`Record.Takes.gives`).

The other way round, whatever text a record is read from, it has the properties that every field
keeps (`Record.read_keeps`).
-/

namespace PiBlocks

namespace Json

theorem bind_eq_ok {ε α β : Type} {read : Except ε α} {next : α → Except ε β} {b : β}
    (h : read >>= next = .ok b) : ∃ a, read = .ok a ∧ next a = .ok b := by
  cases read with
  | error => cases h
  | ok a => exact ⟨a, rfl, h⟩

/-- The reader gives the result for every located value that shows the value. -/
def Gives {α : Type} (reader : Reader α) (value : Json) (result : α) : Prop :=
  ∀ node, Node.Shows node value → reader node = .ok result

namespace Gives

variable {α β : Type} {reader : Reader α} {value : Json} {result : α}

/-- What is read is put into a record. -/
theorem set {change : α → β → β} (h : Gives reader value result) :
    Gives (fun node => do let read ← reader node; return change read) value (change result) := by
  intro node hnode
  show (reader node >>= fun read => pure (change read)) = _
  rw [h node hnode]
  rfl

theorem text {string : String} : Gives Read.text (.text string) string
  | _, .text => rfl

theorem flag {value : Bool} : Gives Read.flag (.bool value) value
  | _, .bool => rfl

theorem real {x : Float} (h : (Number.real x).ReadsBack) : Gives Read.real (.number (.real x)) x
  | _, .number hvalue => by
    rw [hvalue h]
    rfl
  | _, .unwritten hback => absurd h hback

theorem word {n : Nat} (h : n < Nat.pow 2 32) : Gives Read.word (.number (.integer n)) n := by
  have hback : (Number.integer n).ReadsBack :=
    readsBack_natural (Nat.lt_trans h (by decide))
  rintro _ (_ | _ | hvalue | hunwritten)
  · rw [hvalue hback]
    simp only [Read.word]
    rw [if_pos ⟨by omega, by exact_mod_cast h⟩]
    rfl
  · exact absurd hback hunwritten

theorem variant {known : List (String × α)} {name : String}
    (h : OrderedMap.get? name known = some result) : Gives (Read.variant known) (.text name) result
  | _, .text => by
    simp only [Read.variant, bind, Except.bind, Read.named, h]

/-- A value that is not null is read. -/
theorem optional (h : Gives reader value result)
    (hvalue : ∀ start stop, ¬Node.Shows (.null start stop) value) :
    Gives (Read.optional reader) value (some result) := by
  intro node hnode
  have hread := h node hnode
  cases node with
  | null start stop => exact absurd hnode (hvalue start stop)
  | _ => simp only [Read.optional, hread]; rfl

theorem none : Gives (Read.optional reader) .null Option.none
  | _, .null => rfl

theorem items {write : α → Json} {stop : Nat} : ∀ {nodes : List Node} {results : List α},
    Node.ShowItems nodes (results.map write) → (∀ x ∈ results, Gives reader (write x) x) →
      Read.items reader nodes (.closed stop) = .ok results
  | _, [], .nil, _ => rfl
  | _, x :: results, .cons hx hs, h => by
    rw [Read.items, h x List.mem_cons_self _ hx,
      items hs fun y hy => h y (List.mem_cons_of_mem x hy)]
    rfl

theorem list {write : α → Json} {results : List α} (h : ∀ x ∈ results, Gives reader (write x) x) :
    Gives (Read.list reader) (.list (results.map write)) results
  | _, .list hs => items hs h

theorem entries {write : α → Json} (stop : Nat) : ∀ (results map : OrderedMap α)
    {nodes : List (Key × Node)},
    Node.ShowMembers nodes (results.map fun entry => (entry.1, write entry.2)) →
      (OrderedMap.keys (map ++ results)).Nodup →
        (∀ entry ∈ results, Gives reader (write entry.2) entry.2) →
          Read.entries reader map nodes (.closed stop) = .ok (map ++ results)
  | [], map, _, .nil, _, _ => by
    rw [List.append_nil]
    rfl
  | (key, x) :: results, map, _, .cons hkey hx hs, hnodup, h => by
    have happend := OrderedMap.insert_append hnodup
    have hrest := entries stop results (OrderedMap.insert key x map) hs (by rwa [happend])
      fun entry hentry => h entry (List.mem_cons_of_mem _ hentry)
    rw [Read.entries, hkey, h (key, x) List.mem_cons_self _ hx, ← happend, ← hrest]
    rfl

/-- A map is read back if no key comes twice. -/
theorem map {write : α → Json} {results : OrderedMap α} (hnodup : (OrderedMap.keys results).Nodup)
    (h : ∀ entry ∈ results, Gives reader (write entry.2) entry.2) :
    Gives (Read.map reader) (.object (results.map fun entry => (entry.1, write entry.2))) results
  | _, .object hs => entries _ results [] hs hnodup h

end Gives

/-! ## Records that were written -/

namespace Record

variable {α : Type} (record : Record α)

/-- Members that were written of fields, in the order of the fields, take the record from one
value to another. -/
inductive Takes : List (Field α) → List (String × Json) → α → α → Prop where
  | nil {a} : Takes [] [] a a
  | field {field fields value values change a b}
      (hfind : record.fields.find? (fun other => other.answers field.name) = some field)
      (hread : Gives field.read value change) (hs : Takes fields values (change a) b) :
      Takes (field :: fields) ((field.name, value) :: values) a b
  | absent {field fields values a b} (hfree : field.required = false)
      (hs : Takes fields values a b) : Takes (field :: fields) values a b
  | other {fields name value values a b}
      (hfind : record.fields.find? (fun other => other.answers name) = none)
      (hs : Takes fields values a b) : Takes fields ((name, value) :: values) a b

variable {record}

/-- A field that is written only if there is something. -/
theorem Takes.optional {β : Type} {reader : Reader β} {set : Option β → α → α} {name : String}
    {write : β → Json} {option : Option β} {fields : List (Field α)}
    {values : List (String × Json)} {a b : α}
    (hfind : record.fields.find? (fun field => field.answers name) = some
      { name := name, read := fun node => do
          let read ← Read.optional reader node
          return set read })
    (hnone : set none a = a)
    (hread : ∀ x ∈ option, Gives (Read.optional reader) (write x) (some x))
    (hs : record.Takes fields values (set option a) b) :
    record.Takes ({ name := name, read := fun node => do
          let read ← Read.optional reader node
          return set read } :: fields)
      ((option.map fun x => (name, write x)).toList ++ values) a b := by
  cases option with
  | none => exact .absent rfl (hnone ▸ hs)
  | some x => exact .field hfind (hread x rfl).set hs

/-- A map that is written only if it has entries. -/
theorem Takes.entries {β : Type} {reader : Reader (OrderedMap β)} {set : OrderedMap β → α → α}
    {name : String} {value : Json} {map : OrderedMap β} {fields : List (Field α)}
    {values : List (String × Json)} {a b : α}
    (hfind : record.fields.find? (fun field => field.answers name) = some
      { name := name, read := fun node => do
          let read ← reader node
          return set read })
    (hnone : set [] a = a) (hread : Gives reader value map)
    (hs : record.Takes fields values (set map a) b) :
    record.Takes ({ name := name, read := fun node => do
          let read ← reader node
          return set read } :: fields)
      ((if map.isEmpty then [] else [(name, value)]) ++ values) a b := by
  cases map with
  | nil => exact .absent rfl (hnone ▸ hs)
  | cons entry rest => exact .field hfind hread.set hs

/-- The fields that are still to come have not been read, and those that have to be there were
read or are still to come. -/
theorem Takes.fill {fields : List (Field α)} {values : List (String × Json)} {a b : α}
    (h : record.Takes fields values a b) : ∀ {nodes : List (Key × Node)} {given : List String}
      {stop : Nat}, Node.ShowMembers nodes values → (fields.map Field.name).Nodup →
        (∀ field ∈ fields, field.name ∉ given) →
        (∀ field ∈ record.fields, field.required = true → field.name ∈ given ∨ field ∈ fields) →
          record.fill a given nodes (.closed stop) = .ok b := by
  induction h with
  | nil =>
    rintro _ given stop ⟨⟩ - - hrequired
    have hmissing : record.missing given = none := by
      simp only [missing, List.find?_eq_none]
      intro field hfield
      cases hfree : field.required
      · simp
      · simpa using hrequired field hfield hfree
    simp only [Record.fill, hmissing]
  | @field field fields value values change a b hfind hread hs ih =>
    rintro _ given stop ⟨⟩ hnodup hgiven hrequired
    rename_i key node nodes hkey hnode hnodes
    obtain ⟨hname, hnodup⟩ := List.nodup_cons.1 hnodup
    have hlater (other) (hother : other ∈ fields) : other.name ∉ field.name :: given := by
      intro hmem
      rcases List.mem_cons.1 hmem with heq | hmem
      · exact hname (List.mem_map.2 ⟨other, hother, heq⟩)
      · exact hgiven other (List.mem_cons_of_mem field hother) hmem
    have hneeded (other) (hother : other ∈ record.fields) (h : other.required = true) :
        other.name ∈ field.name :: given ∨ other ∈ fields := by
      rcases hrequired other hother h with hmem | hmem
      · exact .inl (List.mem_cons_of_mem _ hmem)
      · rcases List.mem_cons.1 hmem with rfl | hmem
        · exact .inl List.mem_cons_self
        · exact .inr hmem
    have hnew : given.contains field.name = false := by
      simpa using hgiven field List.mem_cons_self
    simp only [Record.fill, hkey, bind, Except.bind, hfind, hnew, hread node hnode,
      Bool.false_eq_true, reduceIte]
    exact ih hnodes hnodup hlater hneeded
  | absent hfree hs ih =>
    intro nodes given stop hnodes hnodup hgiven hrequired
    refine ih hnodes (List.nodup_cons.1 hnodup).2
      (fun other hother => hgiven other (List.mem_cons_of_mem _ hother))
      fun other hother hneeded => (hrequired other hother hneeded).imp_right fun hmem =>
        (List.mem_cons.1 hmem).resolve_left ?_
    rintro rfl
    rw [hfree] at hneeded
    cases hneeded
  | other hfind hs ih =>
    rintro _ given stop ⟨⟩ hnodup hgiven hrequired
    rename_i key node nodes hkey hnode hnodes
    simp only [Record.fill, hkey, bind, Except.bind, hfind, hnode.skip]
    exact ih hnodes hnodup hgiven hrequired

/-- A record is read back from what was written of its fields. -/
theorem Takes.gives {values : List (String × Json)} {b : α}
    (h : record.Takes record.fields values record.blank b)
    (hnodup : (record.fields.map Field.name).Nodup) : Gives record.read (.object values) b
  | _, .object hs => h.fill hs hnodup (by simp) fun _ hfield _ => .inr hfield

/-! ## Records that were read -/

section

variable {P : α → Prop} (hfield : ∀ field ∈ record.fields, ∀ node change,
  field.read node = .ok change → ∀ a, P a → P (change a))
include hfield

theorem fill_keeps {b : α} {tail : Tail} : ∀ {nodes : List (Key × Node)} {a : α}
    {given : List String}, P a → record.fill a given nodes tail = .ok b → P b
  | [], a, given, ha, h => by
    cases tail with
    | closed stop =>
      simp only [Record.fill] at h
      split at h
      · cases h
      · cases h
        exact ha
    | halted halt => cases h
  | (key, node) :: nodes, a, given, ha, h => by
    rw [Record.fill] at h
    obtain ⟨name, -, h⟩ := bind_eq_ok h
    split at h
    · obtain ⟨-, -, h⟩ := bind_eq_ok h
      exact fill_keeps ha h
    · rename_i field hfind
      split at h
      · cases h
      · obtain ⟨change, hchange, h⟩ := bind_eq_ok h
        exact fill_keeps (hfield field (List.mem_of_find?_eq_some hfind) node change hchange a ha) h

theorem line_keeps {b : α} {tail : Tail} : ∀ {fields : List (Field α)} {nodes : List Node} {a : α}
    {count : Nat}, (∀ field ∈ fields, field ∈ record.fields) → P a →
      record.line a count fields nodes tail = .ok b → P b
  | [], [], a, count, _, ha, h => by
    cases tail with
    | closed => cases h; exact ha
    | halted => cases h
  | [], _ :: _, _, _, _, _, h => by cases h
  | field :: fields, [], a, count, hmem, ha, h => by
    cases tail with
    | closed stop =>
      rw [Record.line] at h
      split at h
      · cases h
      · exact line_keeps (fun other hother => hmem other (List.mem_cons_of_mem field hother)) ha h
    | halted => cases h
  | field :: fields, node :: nodes, a, count, hmem, ha, h => by
    rw [Record.line] at h
    obtain ⟨change, hchange, h⟩ := bind_eq_ok h
    exact line_keeps (fun other hother => hmem other (List.mem_cons_of_mem field hother))
      (hfield field (hmem field List.mem_cons_self) node change hchange a ha) h

/-- Whatever a record is read from, it has what the blank record has and every field keeps. -/
theorem read_keeps (hblank : P record.blank) {node : Node} {b : α}
    (h : record.read node = .ok b) : P b := by
  cases node with
  | object start members tail => exact fill_keeps hfield hblank h
  | list start items tail => exact line_keeps hfield (fun _ => id) hblank h
  | _ => cases h

end

end Record

theorem Read.of_optional {α : Type} {reader : Reader α} {node : Node} {result : α}
    (h : Read.optional reader node = .ok (some result)) : reader node = .ok result := by
  cases node with
  | null => cases h
  | _ =>
    simp only [Read.optional] at h
    cases hread : reader _ <;> rw [hread] at h <;> cases h
    rfl

/-- A map that was read has no key twice. -/
theorem Read.nodup_keys_entries {α : Type} {reader : Reader α} {result : OrderedMap α}
    {tail : Tail} : ∀ (nodes : List (Key × Node)) (map : OrderedMap α),
      (OrderedMap.keys map).Nodup → Read.entries reader map nodes tail = .ok result →
        (OrderedMap.keys result).Nodup
  | [], map, hmap, h => by
    obtain ⟨_, -, h⟩ := bind_eq_ok h
    cases h
    exact hmap
  | (key, node) :: nodes, map, hmap, h => by
    rw [Read.entries] at h
    obtain ⟨name, -, h⟩ := bind_eq_ok h
    obtain ⟨value, -, h⟩ := bind_eq_ok h
    exact nodup_keys_entries nodes _ (OrderedMap.nodup_keys_insert name value hmap) h

theorem Read.nodup_keys_map {α : Type} {reader : Reader α} {node : Node} {result : OrderedMap α}
    (h : Read.map reader node = .ok result) : (OrderedMap.keys result).Nodup := by
  cases node with
  | object start members tail => exact nodup_keys_entries members [] (by simp [OrderedMap.keys]) h
  | _ => cases h

end Json

end PiBlocks
