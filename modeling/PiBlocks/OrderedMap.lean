/-!
# Maps that remember their order

An ordered map is the list of its entries. A new key goes to the end ; a key set again
keeps its place and takes the new value (`insert`), so a map read back from its own
listing is the same map. `erase` closes the gap a key leaves.

Lookups see the newest value (`get?_insert_self`) and no other key changes
(`get?_insert_of_ne`).
-/

namespace PiBlocks

/-- Entries in the order in which their keys were first set. -/
abbrev OrderedMap (α : Type) := List (String × α)

namespace OrderedMap

variable {α : Type}

/-- The value under `key`. -/
def get? (key : String) : OrderedMap α → Option α
  | [] => none
  | (k, v) :: rest => if k = key then some v else get? key rest

/-- Sets `key` to `value`, in its old place if it has one and at the end otherwise. -/
def insert (key : String) (value : α) : OrderedMap α → OrderedMap α
  | [] => [(key, value)]
  | (k, v) :: rest => if k = key then (k, value) :: rest else (k, v) :: insert key value rest

/-- Removes `key` ; the later entries move up. -/
def erase (key : String) : OrderedMap α → OrderedMap α
  | [] => []
  | (k, v) :: rest => if k = key then rest else (k, v) :: erase key rest

/-- The keys in order. -/
def keys (map : OrderedMap α) : List String := map.map Prod.fst

/-- Whether `key` is set. -/
def contains (key : String) (map : OrderedMap α) : Bool := (get? key map).isSome

@[simp] theorem get?_insert_self (key : String) (value : α) (map : OrderedMap α) :
    get? key (insert key value map) = some value := by
  induction map with
  | nil => simp [insert, get?]
  | cons entry rest ih =>
    by_cases h : entry.1 = key <;> simp [insert, get?, h, ih]

theorem get?_insert_of_ne {key other : String} (h : other ≠ key) (value : α)
    (map : OrderedMap α) : get? other (insert key value map) = get? other map := by
  induction map with
  | nil => simp [insert, get?, Ne.symm h]
  | cons entry rest ih =>
    by_cases hk : entry.1 = key
    · simp [insert, get?, hk, Ne.symm h]
    · by_cases ho : entry.1 = other
      · subst ho; simp [insert, get?, h]
      · simp [insert, get?, hk, ho, ih]

theorem mem_of_get? {key : String} {value : α} :
    ∀ {map : OrderedMap α}, get? key map = some value → (key, value) ∈ map
  | (k, v) :: rest, h => by
    by_cases hk : k = key
    · obtain rfl : v = value := by simpa [get?, hk] using h
      simp [hk]
    · exact List.mem_cons_of_mem _ (mem_of_get? (by simpa [get?, hk] using h))

end OrderedMap

end PiBlocks
