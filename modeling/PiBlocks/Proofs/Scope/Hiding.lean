import PiBlocks.Proofs.Scope.Open
import Mathlib.Data.List.Dedup
import Mathlib.Data.List.Infix

/-!
# Hidden names

The names along a path are read from the outside in, and a name that is met again has its
earlier place marked. What comes out is told here without marking anything : `Scope.declaredAlong`
is all that the scopes on the way declare, in order, and `marked` puts the mark at every place
whose name comes again further on. Each `seen` takes the marked names of a list to those of the
list with one more name (`seen_marked`), since no name that is left stands twice ; so
`namesAlong_eq` holds for every scope, also for one that has the mark among its own names.

Without the marks the list is that of the last places (`unmarked_marked`), in the order of these
places (`pairwise_dedup`).
-/

namespace PiBlocks

namespace Scope

/-- All names that the scopes along a path declare, the outermost first. The path ends where a
key is missing. -/
def declaredAlong (scope : Scope) (path : List String) : List String :=
  (path.inits.filterMap scope.at?).flatMap names

@[simp] theorem declaredAlong_nil (scope : Scope) : scope.declaredAlong [] = scope.names := by
  simp [declaredAlong, at?]

theorem declaredAlong_cons (scope : Scope) (key : String) (path : List String) :
    scope.declaredAlong (key :: path) = scope.names ++
      ((scope.child? key).map fun child => child.declaredAlong path).getD [] := by
  have hhead : scope.at? [] = some scope := rfl
  rw [declaredAlong, List.inits_cons, List.filterMap_cons_some hhead, List.flatMap_cons,
    List.filterMap_map]
  congr 1
  cases h : scope.child? key with
  | none =>
    have hnone : scope.at? ∘ List.cons key = fun _ => none := by
      funext front
      rw [Function.comp_apply, at?, h]
    rw [hnone, List.filterMap_eq_nil_iff.2 fun _ _ => rfl]
    rfl
  | some child =>
    have hinner : scope.at? ∘ List.cons key = child.at? := by
      funext front
      rw [Function.comp_apply, at?, h]
    rw [hinner]
    rfl

/-! ## Marks -/

/-- The names with the mark in place of those that come again further on. -/
def marked : List String → List String
  | [] => []
  | name :: rest => (if name ∈ rest then unresolved else name) :: marked rest

@[simp] theorem length_marked (names : List String) : (marked names).length = names.length := by
  induction names with
  | nil => rfl
  | cons name rest ih => simp [marked, ih]

theorem getElem?_marked {names : List String} {i : Nat} {name : String}
    (h : names[i]? = some name) :
    (marked names)[i]? = some (if name ∈ names.drop (i + 1) then unresolved else name) := by
  induction names generalizing i with
  | nil => simp at h
  | cons first rest ih =>
    cases i with
    | zero =>
      obtain rfl : first = name := by simpa using h
      simp [marked]
    | succ i =>
      rw [marked, List.getElem?_cons_succ, List.drop_succ_cons]
      exact ih (by simpa using h)

/-- What is left of a name is among the names, unless it is the mark. -/
theorem mem_of_mem_marked {name : String} {names : List String} (h : name ∈ marked names) :
    name = unresolved ∨ name ∈ names := by
  induction names with
  | nil => cases h
  | cons first rest ih =>
    rw [marked, List.mem_cons] at h
    rcases h with h | h
    · split_ifs at h
      · exact .inl h
      · exact .inr (h ▸ List.mem_cons_self)
    · exact (ih h).imp_right (List.mem_cons_of_mem first)

/-! ## One more name -/

theorem hide_of_not_mem {name : String} {visible : List String} (h : name ∉ visible) :
    hide name visible = visible := by
  induction visible with
  | nil => rfl
  | cons first rest ih =>
    obtain ⟨hfirst, hrest⟩ : name ≠ first ∧ name ∉ rest := by simpa using h
    rw [hide, if_neg (Ne.symm hfirst), ih hrest]

/-- Hiding the mark puts it where it stands. -/
theorem hide_unresolved (visible : List String) : hide unresolved visible = visible := by
  induction visible with
  | nil => rfl
  | cons first rest ih =>
    rw [hide]
    split_ifs with h
    · rw [h]
    · rw [ih]

/-- The marks of a list with one more name. The name stands at most once among those that are
left, so it is enough that its first place is marked. -/
theorem seen_marked (names : List String) (name : String) :
    seen (marked names) name = marked (names ++ [name]) := by
  rw [seen]
  induction names with
  | nil => simp [marked, hide]
  | cons first rest ih =>
    by_cases hrest : first ∈ rest
    · -- the place is marked already, and marking the mark changes nothing
      by_cases hname : unresolved = name
      · subst hname
        simp [marked, hrest, ← ih, hide_unresolved]
      · simp [marked, hrest, hide, hname, ← ih]
    · by_cases hfirst : first = name
      · -- this is the last place so far, so it is not found again behind it
        subst hfirst
        have hstay : hide first (marked rest) = marked rest := by
          by_cases hmark : first = unresolved
          · rw [hmark, hide_unresolved]
          · exact hide_of_not_mem fun h => (mem_of_mem_marked h).elim hmark hrest
        simp [marked, hrest, hide, ← ih, hstay]
      · simp [marked, hrest, hide, hfirst, ← ih]

theorem foldl_seen_marked (added names : List String) :
    added.foldl seen (marked names) = marked (names ++ added) := by
  induction added generalizing names with
  | nil => simp
  | cons name added ih => rw [List.foldl_cons, seen_marked, ih, List.append_assoc]; rfl

theorem namesFrom_marked (path names : List String) (scope : Scope) :
    scope.namesFrom (marked names) path = marked (names ++ scope.declaredAlong path) := by
  induction path generalizing scope names with
  | nil => rw [namesFrom, foldl_seen_marked, declaredAlong_nil]
  | cons key path ih =>
    rw [namesFrom, foldl_seen_marked, declaredAlong_cons]
    cases scope.child? key with
    | none => simp
    | some child => simp [ih]

/-- The visible names along a path are those declared along it, with the marks. -/
theorem namesAlong_eq (scope : Scope) (path : List String) :
    scope.namesAlong path = marked (scope.declaredAlong path) := by
  simpa [namesAlong, marked] using namesFrom_marked path [] scope

/-! ## Without the marks -/

/-- The names apart from the mark. -/
def unmarked (names : List String) : List String := names.filter fun name => name ≠ unresolved

theorem mem_unmarked {name : String} {names : List String} :
    name ∈ unmarked names ↔ name ∈ names ∧ name ≠ unresolved := by
  simp [unmarked]

theorem unmarked_cons (name : String) (names : List String) : unmarked (name :: names) =
    if name = unresolved then unmarked names else name :: unmarked names := by
  by_cases h : name = unresolved <;> simp [unmarked, h]

theorem unmarked_marked (names : List String) :
    unmarked (marked names) = unmarked names.dedup := by
  induction names with
  | nil => rfl
  | cons name rest ih =>
    rw [marked, unmarked_cons]
    by_cases h : name ∈ rest
    · rw [List.dedup_cons_of_mem h, if_pos h, if_pos rfl, ih]
    · rw [List.dedup_cons_of_notMem h, unmarked_cons, if_neg h, ih]

/-- The last places of the names come in the order in which the names are kept. -/
theorem pairwise_dedup (names : List String) :
    names.dedup.Pairwise fun name later =>
      names.reverse.idxOf later < names.reverse.idxOf name := by
  induction names with
  | nil => exact .nil
  | cons first rest ih =>
    have hkept : rest.dedup.Pairwise fun name later =>
        (first :: rest).reverse.idxOf later < (first :: rest).reverse.idxOf name := by
      refine ih.imp_of_mem fun hname hlater h => ?_
      rw [List.mem_dedup, ← List.mem_reverse] at hname hlater
      rwa [List.reverse_cons, List.idxOf_append_of_mem hname, List.idxOf_append_of_mem hlater]
    by_cases hmem : first ∈ rest
    · rwa [List.dedup_cons_of_mem hmem]
    · rw [List.dedup_cons_of_notMem hmem]
      refine List.pairwise_cons.2 ⟨fun later hlater => ?_, hkept⟩
      rw [List.mem_dedup, ← List.mem_reverse] at hlater
      rw [List.reverse_cons, List.idxOf_append_of_mem hlater,
        List.idxOf_append_of_notMem (by simpa using hmem)]
      exact Nat.lt_add_right _ (List.idxOf_lt_length_of_mem hlater)

/-- What is declared along a path hangs on the names of the scopes along it and on nothing else
in them. -/
theorem declaredAlong_congr {scope other : Scope} {path : List String}
    (h : ∀ front, front <+: path → (other.at? front).map names = (scope.at? front).map names) :
    other.declaredAlong path = scope.declaredAlong path := by
  have hmap (any : Scope) : any.declaredAlong path =
      (path.inits.filterMap fun front => (any.at? front).map names).flatten := by
    rw [declaredAlong, List.flatMap_def, List.map_filterMap]
  rw [hmap, hmap, List.filterMap_congr fun front hfront => h front ((List.mem_inits _ _).1 hfront)]

/-- A visible name stands at the place where the path declares it last, and the mark at every
other place. Without the marks no name comes twice, the names are those declared, in the order of
their innermost declarations, and scopes that are not on the path do not matter. -/
theorem namesAlong_exact (scope : Scope) (path : List String) :
    let declared := scope.declaredAlong path
    let visible := unmarked (scope.namesAlong path)
    (scope.namesAlong path).length = declared.length ∧
    (∀ i name, declared[i]? = some name → (scope.namesAlong path)[i]? =
      some (if name ∈ declared.drop (i + 1) then unresolved else name)) ∧
    visible.Nodup ∧
    (∀ name, name ∈ visible ↔ name ∈ declared ∧ name ≠ unresolved) ∧
    visible.Pairwise (fun name later =>
      declared.reverse.idxOf later < declared.reverse.idxOf name) ∧
    ∀ other : Scope,
      (∀ front, front <+: path → (other.at? front).map names = (scope.at? front).map names) →
        other.namesAlong path = scope.namesAlong path := by
  intro declared visible
  have hlist : scope.namesAlong path = marked declared := namesAlong_eq scope path
  have hvisible : visible = unmarked declared.dedup := by
    rw [← unmarked_marked, ← hlist]
  refine ⟨by rw [hlist, length_marked], fun i name h => by rw [hlist, getElem?_marked h], ?_,
    fun name => ?_, ?_, fun other h => ?_⟩
  · rw [hvisible]
    exact declared.nodup_dedup.filter _
  · rw [hvisible, mem_unmarked, List.mem_dedup]
  · rw [hvisible]
    exact (pairwise_dedup declared).filter _
  · rw [namesAlong_eq, namesAlong_eq, declaredAlong_congr h]

/-- Scopes three deep in which names come again, within one scope and further inside, and that
have the mark among their names. -/
def nested : Scope :=
  .mk .global ["x", unresolved, "x"]
    [("a", .mk .restrict ["y", "x"] [("b", .mk .receive ["y", unresolved] [])])]

/-- The same names on the way to the innermost scope, in scopes of other kinds and with one more
behind. -/
def nestedElsewhere : Scope :=
  .mk .main ["x", unresolved, "x"]
    [("a", .mk .process ["y", "x"] [("b", .mk .global ["y", unresolved] []),
      ("c", .mk .receive ["x", "z"] [])])]

theorem namesAlong_nested :
    nested.namesAlong ["a", "b", "c"] =
      [unresolved, unresolved, unresolved, unresolved, "x", "y", unresolved] ∧
    (unmarked (nested.namesAlong ["a", "b", "c"])).Nodup ∧
    nestedElsewhere.namesAlong ["a", "b"] = nested.namesAlong ["a", "b"] := by
  have hsame : ∀ front ∈ ["a", "b"].inits,
      (nestedElsewhere.at? front).map names = (nested.at? front).map names := by
    decide +kernel
  exact ⟨by decide +kernel, (nested.namesAlong_exact ["a", "b", "c"]).2.2.1,
    (nested.namesAlong_exact ["a", "b"]).2.2.2.2.2 nestedElsewhere fun front h =>
      hsame front ((List.mem_inits _ _).2 h)⟩

end Scope

end PiBlocks
