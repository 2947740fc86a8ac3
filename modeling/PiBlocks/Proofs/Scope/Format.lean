import PiBlocks.Proofs.Json.Record
import PiBlocks.Scope.Format

/-!
# Snapshots written and read

A snapshot is read back from what was written of it (`Snapshot.gives_toJson`) if no two scopes
side by side have one key, no key is the name of another member of its scope, and no two
processes have one name (`Snapshot.wellKeyed`). The scope around all others is read from its place
in the text, those inside it from values that were set aside ; both readers have to agree on what
was written (`Scope.ofJson_toJson`, `Scope.gives_toJson`).

Whatever a snapshot is read from, it is well-keyed (`Snapshot.wellKeyed_of_read`) : names that
come again were replaced, and reserved ones were passed over.
-/

namespace PiBlocks

open Json (Key Node Tail Gives bind_eq_ok)

/-! ## Keys -/

namespace Scope

mutual

/-- Scopes side by side have different keys, and none is the name of another member. -/
def wellKeyed : Scope → Bool
  | .mk _ _ children => decide (OrderedMap.keys children).Nodup && childrenWellKeyed children

/-- The keys are no names of other members, and so it is inside the scopes. -/
def childrenWellKeyed : List (String × Scope) → Bool
  | [] => true
  | (key, scope) :: rest => !isReserved key && wellKeyed scope && childrenWellKeyed rest

end

end Scope

/-- Scopes and processes are well-keyed. -/
def Snapshot.wellKeyed (snapshot : Snapshot) : Bool :=
  snapshot.global.wellKeyed && decide (OrderedMap.keys snapshot.processes).Nodup

/-! ## What was written reads back -/

theorem Json.readsBack_texts (values : List String) : (Json.texts values).ReadsBack := by
  show Json.ItemsReadBack _
  induction values with
  | nil => trivial
  | cons value values ih => exact ⟨trivial, ih⟩

theorem Json.gives_texts (values : List String) :
    Gives (Json.Read.list Json.Read.text) (Json.texts values) values :=
  .list fun _ _ => .text

theorem ScopeKind.get?_typeName (kind : ScopeKind) :
    OrderedMap.get? kind.typeName ScopeKind.named = some kind := by
  cases kind <;> decide

namespace Scope

mutual

theorem readsBack_toJson : ∀ scope : Scope, scope.toJson.ReadsBack
  | .mk _ names children => ⟨Json.readsBack_texts names, trivial, readsBack_childrenToJson children⟩

theorem readsBack_childrenToJson : ∀ children, Json.MembersReadBack (childrenToJson children)
  | [] => trivial
  | (_, scope) :: rest => ⟨readsBack_toJson scope, readsBack_childrenToJson rest⟩

end

theorem textsOfJson_map : ∀ values : List String, textsOfJson (values.map .text) = .ok values
  | [] => rfl
  | value :: values => by
    rw [List.map_cons, textsOfJson, textsOfJson_map values]
    rfl

theorem ne_of_not_isReserved {name : String} (h : (!isReserved name) = true) :
    name ≠ "names" ∧ name ≠ "type" := by
  simpa [isReserved] using h

/-- Scopes tell nothing about names and kind of the scope around them. -/
theorem headerOfJson_childrenToJson (header : ScopeHeader) : ∀ {children : List (String × Scope)},
    childrenWellKeyed children = true → headerOfJson header (childrenToJson children) = .ok header
  | [], _ => rfl
  | (key, scope) :: rest, h => by
    simp only [childrenWellKeyed, Bool.and_eq_true] at h
    obtain ⟨hnames, htype⟩ := ne_of_not_isReserved h.1.1
    rw [childrenToJson, headerOfJson, if_neg hnames, if_neg htype,
      headerOfJson_childrenToJson header h.2]

mutual

theorem ofJson_toJson : ∀ {scope : Scope}, scope.wellKeyed = true → ofJson scope.toJson = .ok scope
  | .mk kind names children, h => by
    simp only [wellKeyed, Bool.and_eq_true, decide_eq_true_eq] at h
    have hheader : headerOfJson {} (("names", Json.texts names) :: ("type", .text kind.typeName)
        :: childrenToJson children) = .ok ⟨some names, some kind⟩ := by
      rw [← headerOfJson_childrenToJson ⟨some names, some kind⟩ h.2]
      simp [headerOfJson, Json.texts, namesOfJson, textsOfJson_map, kindOfJson, kindNamed,
        kind.get?_typeName, bind, Except.bind]
    have hchildren : childrenOfJson [] (("names", Json.texts names) :: ("type", .text kind.typeName)
        :: childrenToJson children) = .ok children :=
      childrenOfJson_childrenToJson [] h.1 h.2
    rw [toJson, ofJson, hheader]
    show (childrenOfJson _ _ >>= fun children => pure (Scope.mk kind names children)) = _
    rw [hchildren]
    rfl

theorem childrenOfJson_childrenToJson : ∀ (front : List (String × Scope))
    {children : List (String × Scope)}, (OrderedMap.keys (front ++ children)).Nodup →
      childrenWellKeyed children = true →
        childrenOfJson front (childrenToJson children) = .ok (front ++ children)
  | front, [], _, _ => by rw [List.append_nil]; rfl
  | front, (key, scope) :: rest, hnodup, h => by
    simp only [childrenWellKeyed, Bool.and_eq_true] at h
    have hkey : isReserved key = false := by simpa using h.1.1
    have happend := OrderedMap.insert_append hnodup
    have hrest := childrenOfJson_childrenToJson (OrderedMap.insert key scope front)
      (by rwa [happend]) h.2
    rw [childrenToJson, childrenOfJson, hkey, ofJson_toJson h.1.2, ← happend, ← hrest]
    rfl

end

section

variable {header : ScopeHeader} {aside : List (String × Json)} {key : Key} {node : Node}
  {members : List (Key × Node)} {tail : Tail}

theorem readMembers_names {names : List String} (hkey : key.name = .ok "names")
    (hfree : header.names = none) (hread : Json.Read.list Json.Read.text node = .ok names) :
    readMembers header aside ((key, node) :: members) tail =
      readMembers { header with names := some names } aside members tail := by
  simp [readMembers, hkey, hfree, hread, bind, Except.bind]

theorem readMembers_kind {kind : ScopeKind} (hkey : key.name = .ok "type")
    (hfree : header.kind = none) (hread : Json.Read.variant ScopeKind.named node = .ok kind) :
    readMembers header aside ((key, node) :: members) tail =
      readMembers { header with kind := some kind } aside members tail := by
  simp [readMembers, hkey, hfree, hread, bind, Except.bind]

theorem readMembers_other {name : String} {value : Json} (hkey : key.name = .ok name)
    (hname : (!isReserved name) = true) (hread : node.toJson = .ok value) :
    readMembers header aside ((key, node) :: members) tail =
      readMembers header ((name, value) :: aside) members tail := by
  obtain ⟨hnames, htype⟩ := ne_of_not_isReserved hname
  simp [readMembers, hkey, hnames, htype, hread, bind, Except.bind]

end

/-- Scopes inside the outermost one are set aside. -/
theorem readMembers_childrenToJson (header : ScopeHeader) (stop : Nat) :
    ∀ (aside : List (String × Json)) {children : List (String × Scope)} {nodes : List (Key × Node)},
      Json.Node.ShowMembers nodes (childrenToJson children) → childrenWellKeyed children = true →
        readMembers header aside nodes (.closed stop) =
          .ok (header, aside.reverse ++ childrenToJson children, stop)
  | aside, [], _, .nil, _ => by
    rw [childrenToJson, List.append_nil]
    rfl
  | aside, (key, scope) :: rest, _, .cons hkey hscope hs, h => by
    simp only [childrenWellKeyed, Bool.and_eq_true] at h
    rw [readMembers_other hkey h.1.1 (hscope.toJson (readsBack_toJson scope)),
      readMembers_childrenToJson header stop _ hs h.2, List.reverse_cons, List.append_assoc]
    rfl

theorem gives_toJson : ∀ {scope : Scope}, scope.wellKeyed = true → Gives read scope.toJson scope
  | .mk kind names children, h => by
    rintro _ (_ | _ | _ | _ | _ | _ | @⟨start, stop, _, _, hs⟩)
    obtain _ | @⟨_, _, namesNode, _, _, _, hnamesKey, hnames, hs⟩ := hs
    obtain _ | @⟨_, _, kindNode, _, nodes, _, hkindKey, hkind, hs⟩ := hs
    simp only [wellKeyed, Bool.and_eq_true, decide_eq_true_eq] at h
    have hreadNames : Json.Read.list Json.Read.text namesNode = .ok names :=
      Json.gives_texts names namesNode hnames
    have hreadKind : Json.Read.variant ScopeKind.named kindNode = .ok kind :=
      Gives.variant kind.get?_typeName kindNode hkind
    rw [read, readMembers_names hnamesKey rfl hreadNames, readMembers_kind hkindKey rfl hreadKind,
      readMembers_childrenToJson _ stop [] hs h.2]
    show Except.mapError _ (childrenOfJson [] (childrenToJson children) >>= _) = _
    rw [childrenOfJson_childrenToJson [] h.1 h.2]
    rfl

end Scope

/-! ## Snapshots -/

theorem Signature.gives_toJson (signature : Signature) :
    Gives Signature.record.read signature.toJson signature := by
  refine Json.Record.Takes.gives ?_ (by decide)
  exact .field rfl Gives.text.set <| .field rfl Gives.text.set <|
    .field rfl (Json.gives_texts _).set .nil

namespace Snapshot

/-- A well-keyed snapshot is read back from what was written of it. -/
theorem gives_toJson {snapshot : Snapshot} (h : snapshot.wellKeyed = true) :
    Gives record.read snapshot.toJson snapshot := by
  simp only [wellKeyed, Bool.and_eq_true, decide_eq_true_eq] at h
  have hscopes : Gives scopesRecord.read (.object [("global", snapshot.global.toJson)])
      snapshot.global :=
    Json.Record.Takes.gives (.field rfl (Scope.gives_toJson h.1).set .nil) (by decide)
  have hprocesses : Gives (Json.Read.map Signature.record.read) (.object (snapshot.processes.map
      fun entry => (entry.1, entry.2.toJson))) snapshot.processes :=
    .map h.2 fun entry _ => entry.2.gives_toJson
  refine Json.Record.Takes.gives ?_ (by decide)
  exact .field rfl hscopes.set <| .field rfl (Json.gives_texts _).set <|
    .field rfl hprocesses.set <| .field rfl Gives.flag.set .nil

end Snapshot

/-! ## What was read is well-keyed -/

namespace Scope

theorem childrenWellKeyed_insert {key : String} {scope : Scope} (hkey : (!isReserved key) = true)
    (hscope : scope.wellKeyed = true) : ∀ {children : List (String × Scope)},
      childrenWellKeyed children = true →
        childrenWellKeyed (OrderedMap.insert key scope children) = true
  | [], _ => by simp [OrderedMap.insert, childrenWellKeyed, hkey, hscope]
  | (other, inner) :: rest, h => by
    simp only [childrenWellKeyed, Bool.and_eq_true] at h
    rw [OrderedMap.insert]
    split
    · subst_vars
      simp [childrenWellKeyed, h, hscope]
    · simp [childrenWellKeyed, h.1.1, h.1.2, childrenWellKeyed_insert hkey hscope h.2]

mutual

theorem wellKeyed_ofJson : ∀ {value : Json} {scope : Scope}, ofJson value = .ok scope →
    scope.wellKeyed = true
  | .object members, scope, h => by
    rw [ofJson] at h
    obtain ⟨header, -, h⟩ := bind_eq_ok h
    obtain ⟨kind, -, h⟩ := bind_eq_ok h
    obtain ⟨children, hchildren, h⟩ := bind_eq_ok h
    cases h
    obtain ⟨hnodup, hkeyed⟩ := wellKeyed_childrenOfJson (by simp [OrderedMap.keys]) rfl hchildren
    simp [wellKeyed, hnodup, hkeyed]
  | .null, _, h | .bool _, _, h | .number _, _, h | .text _, _, h | .list _, _, h => by cases h

theorem wellKeyed_childrenOfJson : ∀ {members : List (String × Json)}
    {front children : List (String × Scope)}, (OrderedMap.keys front).Nodup →
      childrenWellKeyed front = true → childrenOfJson front members = .ok children →
        (OrderedMap.keys children).Nodup ∧ childrenWellKeyed children = true
  | [], front, children, hnodup, hfront, h => by
    cases h
    exact ⟨hnodup, hfront⟩
  | (name, value) :: members, front, children, hnodup, hfront, h => by
    rw [childrenOfJson] at h
    split at h
    · exact wellKeyed_childrenOfJson hnodup hfront h
    · rename_i hname
      obtain ⟨scope, hscope, h⟩ := bind_eq_ok h
      exact wellKeyed_childrenOfJson (OrderedMap.nodup_keys_insert name scope hnodup)
        (childrenWellKeyed_insert (by simpa using hname) (wellKeyed_ofJson hscope) hfront) h

end

theorem wellKeyed_of_read {node : Node} {scope : Scope} (h : read node = .ok scope) :
    scope.wellKeyed = true := by
  cases node with
  | object start members tail =>
    rw [read] at h
    obtain ⟨⟨header, aside, stop⟩, -, h⟩ := bind_eq_ok h
    cases hscope : (do
      let kind ← header.kind?
      let children ← childrenOfJson [] aside
      return Scope.mk kind (header.names.getD []) children : Except Fault Scope) with
    | error fault =>
      simp only [hscope] at h
      cases h
    | ok result =>
      simp only [hscope] at h
      cases h
      obtain ⟨kind, -, hscope⟩ := bind_eq_ok hscope
      obtain ⟨children, hchildren, hscope⟩ := bind_eq_ok hscope
      cases hscope
      obtain ⟨hnodup, hkeyed⟩ := wellKeyed_childrenOfJson (by simp [OrderedMap.keys]) rfl hchildren
      simp [wellKeyed, hnodup, hkeyed]
  | _ => cases h

end Scope

namespace Snapshot

theorem wellKeyed_of_readScopes {node : Node} {global : Scope}
    (h : scopesRecord.read node = .ok global) : global.wellKeyed = true := by
  refine Json.Record.read_keeps (P := fun global => global.wellKeyed = true) ?_ (by decide) h
  intro field hfield node change hread global _
  obtain rfl := List.mem_singleton.1 hfield
  obtain ⟨scope, hscope, hread⟩ := bind_eq_ok hread
  cases hread
  exact Scope.wellKeyed_of_read hscope

/-- Whatever a snapshot was read from, it is well-keyed. -/
theorem wellKeyed_of_read {node : Node} {snapshot : Snapshot}
    (h : record.read node = .ok snapshot) : snapshot.wellKeyed = true := by
  refine Json.Record.read_keeps (P := fun snapshot => snapshot.wellKeyed = true) ?_ (by decide) h
  intro field hfield node change hread snapshot hkeyed
  simp only [wellKeyed, Bool.and_eq_true, decide_eq_true_eq] at hkeyed ⊢
  simp only [record, List.mem_cons, List.not_mem_nil, or_false] at hfield
  rcases hfield with rfl | rfl | rfl | rfl <;>
    obtain ⟨result, hresult, hread⟩ := bind_eq_ok hread <;> cases hread
  · exact ⟨wellKeyed_of_readScopes hresult, hkeyed.2⟩
  · exact hkeyed
  · exact ⟨hkeyed.1, Json.Read.nodup_keys_map hresult⟩
  · exact hkeyed

end Snapshot

end PiBlocks
