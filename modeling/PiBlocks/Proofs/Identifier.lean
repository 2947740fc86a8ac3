import PiBlocks.Proofs.Cleaning
import PiBlocks.Proofs.Maps
import Mathlib.Data.Bool.Basic
import Mathlib.Data.List.Nodup
import Mathlib.Data.Nat.Find
import Mathlib.Order.Bounds.Defs

/-!
# Process names that are free

A process name that another block has gets a number behind it. What comes out is a process name
again (`Identifier.isProcess`), since digits may stand behind one, and to clean it up once more
changes nothing. Different numbers make different names (`Identifier.numbered_injective`), and if
the name itself is taken, fewer other processes are left than there are numbers below the count of
all, so one of these numbers is free (`Identifier.exists_free`). The search takes the smallest one,
however far it may go on, and never ends without a number (`Identifier.uniqueProcess_free`).
-/

namespace PiBlocks

namespace Identifier

/-! ## Process names -/

/-- Whether a text is a process name : a large letter, then letters, digits and underscores. -/
def isProcess (text : String) : Bool :=
  match text.toList with
  | [] => false
  | c :: rest => c.isUpper && rest.all isPart

/-- Parts of identifiers may stand behind a process name. -/
theorem isProcess_append {name more : String} (h : isProcess name = true)
    (hmore : more.toList.all isPart = true) : isProcess (name ++ more) = true := by
  cases hname : name.toList with
  | nil => simp [isProcess, hname] at h
  | cons c rest => simpa [isProcess, hname, hmore] using h

/-- A process name stays as it is when it is cleaned up. -/
theorem processOfText_eq_self {text : String} (h : isProcess text = true) :
    processOfText text = text :=
  begins_process.cleaned_eq_self h

/-- What is left of a text that is cleaned up is a process name. -/
theorem isProcess_processOfText {raw : String} (h : processOfText raw ≠ "") :
    isProcess (processOfText raw) = true :=
  (begins_process.isWordOf_cleaned raw).resolve_left h

/-! ## Names with numbers -/

theorem all_isPart_toString (number : Nat) : (toString number).toList.all isPart = true := by
  rw [Nat.toString_eq_repr, Nat.repr_eq_ofList_toDigits, String.toList_ofList, List.all_eq_true]
  exact fun c hc => isPart_of_isDigit (Nat.isDigit_of_mem_toDigits (by decide) (by decide) hc)

/-- Different numbers make different names. -/
theorem numbered_injective (name : String) :
    Function.Injective fun number : Nat => name ++ toString number := by
  intro number other h
  have htext : toString number = toString other := (String.append_right_inj name).1 h
  have hdigits : Nat.toDigits 10 number = Nat.toDigits 10 other := by
    rw [Nat.toString_eq_ofList_toDigits, Nat.toString_eq_ofList_toDigits] at htext
    simpa using congrArg String.toList htext
  -- the digits tell the number
  rw [← @Nat.ofDigitChars_ten_toDigits number, hdigits, Nat.ofDigitChars_ten_toDigits]

theorem numbered_ne (name : String) (number : Nat) : name ++ toString number ≠ name := by
  rw [ne_eq, String.append_eq_left_iff, Nat.toString_eq_repr, Nat.repr_eq_ofList_toDigits]
  simp [Nat.toDigits_ne_nil]

variable {name : String} {snapshot : Snapshot}

theorem hasProcess_iff : snapshot.hasProcess name = true ↔ name ∈ snapshot.processNames := by
  rw [Snapshot.hasProcess, OrderedMap.contains, Option.isSome_iff_ne_none, ne_eq,
    OrderedMap.get?_eq_none_iff, not_not]
  rfl

theorem blockOf?_eq_none_iff :
    snapshot.blockOf? name = none ↔ snapshot.hasProcess name = false := by
  rw [Snapshot.blockOf?, Option.map_eq_none_iff, Snapshot.hasProcess, OrderedMap.contains,
    Option.isSome_eq_false_iff, Option.isNone_iff_eq_none]

/-- Of the numbers below the count of the processes, one is free behind a name that is taken. -/
theorem exists_free (htaken : snapshot.hasProcess name = true) :
    ∃ number < snapshot.processes.length,
      snapshot.hasProcess (name ++ toString number) = false := by
  by_contra! hall
  let numbered := (List.range snapshot.processes.length).map fun number => name ++ toString number
  have hnodup : (name :: numbered).Nodup := by
    refine List.nodup_cons.2 ⟨fun hmem => ?_, List.nodup_range.map (numbered_injective name)⟩
    obtain ⟨number, -, heq⟩ := List.mem_map.1 hmem
    exact numbered_ne name number heq
  have hsubset : name :: numbered ⊆ snapshot.processNames := by
    refine List.cons_subset.2 ⟨hasProcess_iff.1 htaken, fun other hother => ?_⟩
    obtain ⟨number, hnumber, rfl⟩ := List.mem_map.1 hother
    exact hasProcess_iff.1 (Bool.eq_true_of_not_eq_false (hall number (List.mem_range.1 hnumber)))
  have hlength : (name :: numbered).length ≤ snapshot.processNames.length :=
    hnodup.length_le_of_subset hsubset
  simp only [numbered, List.length_cons, List.length_map, List.length_range,
    Snapshot.processNames, OrderedMap.keys] at hlength
  omega

/-- A search that comes as far as the smallest free number takes it. -/
theorem freeNumber?_eq_some {number : Nat}
    (hfree : snapshot.hasProcess (name ++ toString number) = false) : ∀ {count start : Nat},
      start ≤ number → number < start + count →
      (∀ smaller < number, snapshot.hasProcess (name ++ toString smaller) = true) →
      freeNumber? name snapshot start count = some number
  | 0, start, hstart, hcount, _ => by omega
  | count + 1, start, hstart, hcount, htaken => by
    rw [freeNumber?]
    by_cases hnumber : start = number
    · rw [hnumber, hfree]
      rfl
    · have hlt : start < number := Nat.lt_of_le_of_ne hstart hnumber
      rw [if_pos (htaken start hlt)]
      exact freeNumber?_eq_some hfree hlt (by omega) htaken

/-- The smallest free number is below the count of the processes, and a search that goes further
takes it. -/
theorem exists_isLeast_free (htaken : snapshot.hasProcess name = true) :
    ∃ number < snapshot.processes.length,
      IsLeast {number | snapshot.hasProcess (name ++ toString number) = false} number ∧
      ∀ count, number < count → freeNumber? name snapshot 0 count = some number := by
  obtain ⟨bound, hbound, hfree⟩ := exists_free htaken
  have hexists : ∃ number, snapshot.hasProcess (name ++ toString number) = false := ⟨bound, hfree⟩
  have hsmaller (smaller) (h : smaller < Nat.find hexists) :
      snapshot.hasProcess (name ++ toString smaller) = true :=
    Bool.eq_true_of_not_eq_false (Nat.find_min hexists h)
  refine ⟨Nat.find hexists, Nat.lt_of_le_of_lt (Nat.find_min' hexists hfree) hbound,
    ⟨Nat.find_spec hexists, fun other hother => Nat.find_min' hexists hother⟩,
    fun count hcount => ?_⟩
  exact freeNumber?_eq_some (Nat.find_spec hexists) (Nat.zero_le _) (by omega) hsmaller

section Unique

variable {raw id : String} {snapshot : Snapshot}

theorem uniqueProcess_of_free (h : snapshot.blockOf? (processOfText raw) = none ∨
    snapshot.blockOf? (processOfText raw) = some id) :
    uniqueProcess raw id snapshot = processOfText raw := by
  rcases h with h | h <;> simp [uniqueProcess, h]

theorem uniqueProcess_of_taken {owner : String} {number : Nat}
    (howner : snapshot.blockOf? (processOfText raw) = some owner) (hother : owner ≠ id)
    (hnumber : freeNumber? (processOfText raw) snapshot 0 (snapshot.processes.length + 1) =
      some number) : uniqueProcess raw id snapshot = processOfText raw ++ toString number := by
  simp only [uniqueProcess, howner, if_neg hother, hnumber]

end Unique

/-- The name that a block gets for its process is no process of another block, and a process name
that stays as it is when it is cleaned up. It is the name that was asked for if this is free or the
block's own. Otherwise the smallest number that makes the name free stands behind it ; this number
is below the count of the processes, and however far the search would have gone on, it ends
there. -/
theorem uniqueProcess_free (raw id : String) (snapshot : Snapshot) (h : processOfText raw ≠ "") :
    let name := processOfText raw
    let result := uniqueProcess raw id snapshot
    (snapshot.blockOf? result = none ∨ snapshot.blockOf? result = some id) ∧
      processOfText result = result ∧
      (snapshot.blockOf? name = none ∨ snapshot.blockOf? name = some id → result = name) ∧
      ∀ owner, snapshot.blockOf? name = some owner → owner ≠ id →
        ∃ number < snapshot.processes.length, result = name ++ toString number ∧
          IsLeast {number | snapshot.hasProcess (name ++ toString number) = false} number ∧
          ∀ count, number < count → freeNumber? name snapshot 0 count = some number := by
  intro name result
  have hname : isProcess name = true := isProcess_processOfText h
  by_cases hfree : snapshot.blockOf? name = none ∨ snapshot.blockOf? name = some id
  · have hresult : result = name := uniqueProcess_of_free hfree
    rw [hresult]
    refine ⟨hfree, processOfText_eq_self hname, fun _ => rfl, fun owner howner hother => ?_⟩
    rw [howner] at hfree
    exact absurd (Option.some_inj.1 (hfree.resolve_left (Option.some_ne_none owner))) hother
  · rw [not_or] at hfree
    obtain ⟨owner, howner⟩ := Option.ne_none_iff_exists'.1 hfree.1
    have hother : owner ≠ id := fun heq => hfree.2 (heq ▸ howner)
    have htaken : snapshot.hasProcess name = true :=
      Bool.eq_true_of_not_eq_false fun hnot => hfree.1 (blockOf?_eq_none_iff.2 hnot)
    obtain ⟨number, hbound, hleast, hsearch⟩ := exists_isLeast_free htaken
    have hresult : result = name ++ toString number :=
      uniqueProcess_of_taken howner hother (hsearch _ (Nat.lt_succ_of_lt hbound))
    refine ⟨.inl ?_, ?_, fun hnone => absurd hnone (not_or.2 hfree),
      fun _ _ _ => ⟨number, hbound, hresult, hleast, hsearch⟩⟩
    · rw [hresult]
      exact blockOf?_eq_none_iff.2 hleast.1
    · rw [hresult]
      exact processOfText_eq_self (isProcess_append hname (all_isPart_toString number))

/-- Where other blocks have a name and that name with the numbers zero and one, the third number is
the smallest that is free. -/
theorem uniqueProcess_free_numbered :
    let snapshot : Snapshot := { processes :=
      [("Pool1", ⟨"", "pool 1", []⟩), ("Pool", ⟨"", "pool", []⟩), ("Pool0", ⟨"", "pool 0", []⟩)] }
    processOfText "_9 pool" ≠ "" ∧ snapshot.blockOf? "Pool" = some "pool" ∧ "pool" ≠ "other" ∧
      uniqueProcess "_9 pool" "other" snapshot = "Pool2" ∧ processOfText "Pool2" = "Pool2" ∧
      IsLeast {number | snapshot.hasProcess ("Pool" ++ toString number) = false} 2 := by
  intro snapshot
  have hname : processOfText "_9 pool" = "Pool" := by decide +kernel
  have hunique : uniqueProcess "_9 pool" "other" snapshot = "Pool2" := by decide +kernel
  have howner : snapshot.blockOf? "Pool" = some "pool" := by decide +kernel
  have hother : "pool" ≠ "other" := by decide
  have hnonempty : processOfText "_9 pool" ≠ "" := by decide +kernel
  obtain ⟨-, hself, -, hnumbered⟩ := uniqueProcess_free "_9 pool" "other" snapshot hnonempty
  rw [hunique] at hself
  obtain ⟨number, -, hresult, hleast, -⟩ := hnumbered "pool" (hname ▸ howner) hother
  rw [hunique, hname] at hresult
  obtain rfl : number = 2 := (numbered_injective "Pool" (hresult.symm.trans (by decide +kernel)))
  exact ⟨hnonempty, howner, hother, hunique, hself, hname ▸ hleast⟩

end Identifier

end PiBlocks
