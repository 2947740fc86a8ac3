import PiBlocks.OrderedMap
import Mathlib.Data.List.Basic
import Mathlib.Data.List.Induction

/-!
# Maps and their entries

A key that is not among the keys of a map goes to its end (`insert_of_not_mem`), and what
stands in front of it is passed over (`get?_append_of_not_mem`). Entries set one after the
other, with keys that may come again, make a map that can be told without setting anything :
its keys stand where they come first and have the value that comes last (`foldl_insert_eq`).
-/

namespace PiBlocks

namespace OrderedMap

variable {α : Type} {key : String} {map : OrderedMap α}

theorem insert_of_not_mem (value : α) (h : key ∉ keys map) :
    insert key value map = map ++ [(key, value)] := by
  induction map with
  | nil => rfl
  | cons entry rest ih =>
    obtain ⟨hk, hrest⟩ : key ≠ entry.1 ∧ key ∉ keys rest := by simpa [keys] using h
    simp [insert, Ne.symm hk, ih hrest]

/-- An entry set where it stands in front of others, with a key of its own. -/
theorem insert_append {value : α} {rest : OrderedMap α}
    (h : (keys (map ++ (key, value) :: rest)).Nodup) :
    insert key value map ++ rest = map ++ (key, value) :: rest := by
  have hnew : key ∉ keys map := fun hmem =>
    (List.nodup_append.1 (by simpa [keys] using h)).2.2 key hmem key List.mem_cons_self rfl
  rw [insert_of_not_mem value hnew, List.append_assoc]
  rfl

/-- Entries with keys of their own set one after the other. -/
theorem foldl_insert_append : ∀ {entries map : OrderedMap α}, (keys (map ++ entries)).Nodup →
    entries.foldl (fun map entry => insert entry.1 entry.2 map) map = map ++ entries
  | [], map, _ => (List.append_nil map).symm
  | (key, value) :: entries, map, h => by
    have hinsert := insert_append h
    rw [List.foldl_cons, foldl_insert_append (hinsert ▸ h), hinsert]

theorem get?_append_of_not_mem (more : OrderedMap α) (h : key ∉ keys map) :
    get? key (map ++ more) = get? key more := by
  induction map with
  | nil => rfl
  | cons entry rest ih =>
    obtain ⟨hk, hrest⟩ : key ≠ entry.1 ∧ key ∉ keys rest := by simpa [keys] using h
    simp [get?, Ne.symm hk, ih hrest]

theorem get?_eq_none_iff : get? key map = none ↔ key ∉ keys map := by
  induction map with
  | nil => simp [get?, keys]
  | cons entry rest ih =>
    by_cases hk : entry.1 = key
    · simp [get?, keys, hk]
    · simpa [get?, keys, hk, Ne.symm hk] using ih

/-- If no key comes twice, every entry is found. -/
theorem get?_of_mem {value : α} (h : (keys map).Nodup) (hmem : (key, value) ∈ map) :
    get? key map = some value := by
  induction map with
  | nil => cases hmem
  | cons entry rest ih =>
    obtain ⟨hnew, hrest⟩ := List.nodup_cons.1 h
    rcases List.mem_cons.1 hmem with rfl | hmem
    · simp [get?]
    · have hkey : entry.1 ≠ key := fun heq => hnew (heq ▸ List.mem_map_of_mem hmem)
      rw [get?, if_neg hkey, ih hrest hmem]

/-- Entries in another order are found under the same keys if no key comes twice. -/
theorem get?_eq_of_perm {other : OrderedMap α} (h : map.Perm other)
    (distinct : (keys map).Nodup) (key : String) : get? key map = get? key other := by
  have distinct' : (keys other).Nodup := (h.map Prod.fst).nodup_iff.1 distinct
  cases hget : get? key map with
  | none =>
    rw [get?_eq_none_iff] at hget
    exact (get?_eq_none_iff.2 fun hmem => hget ((h.map Prod.fst).mem_iff.2 hmem)).symm
  | some value => exact (get?_of_mem distinct' (h.mem_iff.1 (mem_of_get? hget))).symm

theorem keys_insert_of_mem (value : α) (h : key ∈ keys map) :
    keys (insert key value map) = keys map := by
  induction map with
  | nil => cases h
  | cons entry rest ih =>
    by_cases hk : entry.1 = key
    · simp [insert, keys, hk]
    · have hrest : key ∈ keys rest := (List.mem_cons.1 h).resolve_left (Ne.symm hk)
      simpa [insert, keys, hk] using ih hrest

/-- No key comes twice after a value is set, if none did before. -/
theorem nodup_keys_insert (key : String) (value : α) (h : (keys map).Nodup) :
    (keys (insert key value map)).Nodup := by
  by_cases hkey : key ∈ keys map
  · rwa [keys_insert_of_mem value hkey]
  · rw [insert_of_not_mem value hkey, keys, List.map_append]
    refine List.nodup_append.2 ⟨h, by simp, fun other hmem last hlast heq => hkey ?_⟩
    obtain rfl : last = key := List.mem_singleton.1 hlast
    exact heq ▸ hmem

/-! ## Maps filled one entry after the other -/

/-- The map of entries : keys stand where they come first and have the value that comes last. -/
def ofEntries (entries : List (String × α)) : OrderedMap α :=
  (keys entries).eraseDups.filterMap fun key =>
    (get? key entries.reverse).map fun value => (key, value)

theorem nodup_eraseDups : ∀ names : List String, names.eraseDups.Nodup
  | [] => by simp
  | name :: names => by
    rw [List.eraseDups_cons, List.nodup_cons, List.mem_eraseDups]
    exact ⟨by simp, nodup_eraseDups _⟩
termination_by names => names.length
decreasing_by exact Nat.lt_succ_of_le (List.length_filter_le _ names)

/-- A value set for one of the keys of a listing takes the place of the old one. -/
theorem insert_filterMap {key : String} (value : α) {find : String → Option α} :
    ∀ {names : List String}, names.Nodup → (∀ name ∈ names, (find name).isSome) → key ∈ names →
      insert key value (names.filterMap fun name => (find name).map (name, ·)) =
        names.filterMap fun name => (if key = name then some value else find name).map (name, ·)
  | name :: names, hnodup, hfind, hkey => by
    obtain ⟨hname, hnodup⟩ := List.nodup_cons.1 hnodup
    obtain ⟨old, hold⟩ := Option.isSome_iff_exists.1 (hfind name List.mem_cons_self)
    by_cases h : key = name
    · have hrest : (names.filterMap fun name => (find name).map (name, ·)) =
          names.filterMap fun name =>
            (if key = name then some value else find name).map (name, ·) :=
        List.filterMap_congr fun other hother => by
          rw [if_neg]
          exact fun heq => hname (h ▸ heq ▸ hother)
      rw [List.filterMap_cons, List.filterMap_cons, hold, ← hrest]
      simp [insert, h]
    · have hrest := insert_filterMap value hnodup
        (fun other hother => hfind other (List.mem_cons_of_mem _ hother))
        ((List.mem_cons.1 hkey).resolve_left h)
      rw [List.filterMap_cons, List.filterMap_cons, if_neg h, hold]
      simp [insert, Ne.symm h, hrest]

theorem isSome_get?_reverse {entries : List (String × α)} {key : String}
    (h : key ∈ keys entries) : (get? key entries.reverse).isSome := by
  rw [Option.isSome_iff_ne_none, ne_eq, get?_eq_none_iff]
  simpa [keys] using h

theorem insert_ofEntries (key : String) (value : α) (entries : List (String × α)) :
    insert key value (ofEntries entries) = ofEntries (entries ++ [(key, value)]) := by
  have hfind (name) : get? name (entries ++ [(key, value)]).reverse =
      if key = name then some value else get? name entries.reverse := by
    simp [get?]
  have hkeys : keys (entries ++ [(key, value)]) = keys entries ++ [key] := by
    simp [keys]
  simp only [ofEntries, hfind, hkeys, List.eraseDups_append]
  by_cases h : key ∈ keys entries
  · have hold : [key].removeAll (keys entries) = [] := by simp [List.removeAll, h]
    rw [hold, List.eraseDups_nil, List.append_nil]
    exact insert_filterMap value (nodup_eraseDups _)
      (fun name hname => isSome_get?_reverse (List.mem_eraseDups.1 hname)) (List.mem_eraseDups.2 h)
  · have hnew : [key].removeAll (keys entries) = [key] := by simp [List.removeAll, h]
    have hrest : ((keys entries).eraseDups.filterMap fun name =>
        (get? name entries.reverse).map (name, ·)) = (keys entries).eraseDups.filterMap fun name =>
          (if key = name then some value else get? name entries.reverse).map (name, ·) :=
      List.filterMap_congr fun name hname => by
        rw [if_neg]
        exact fun heq => h (heq ▸ List.mem_eraseDups.1 hname)
    rw [hnew, insert_of_not_mem, hrest]
    · simp [List.eraseDups_cons]
    · intro hmem
      obtain ⟨entry, hentry, rfl⟩ := List.mem_map.1 hmem
      obtain ⟨name, hname, heq⟩ := List.mem_filterMap.1 hentry
      obtain ⟨found, -, rfl⟩ := Option.map_eq_some_iff.1 heq
      exact h (List.mem_eraseDups.1 hname)

/-- Entries set one after the other fill the map of entries. -/
theorem foldl_insert_eq (entries : List (String × α)) :
    entries.foldl (fun map entry => insert entry.1 entry.2 map) [] = ofEntries entries := by
  induction entries using List.reverseRecOn with
  | nil => rfl
  | append_singleton entries entry ih =>
    rw [List.foldl_append, ih, List.foldl_cons, List.foldl_nil, insert_ofEntries]

end OrderedMap

end PiBlocks
