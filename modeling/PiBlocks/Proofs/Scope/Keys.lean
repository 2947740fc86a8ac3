import PiBlocks.Proofs.Scope.Format
import PiBlocks.Proofs.Scope.History

/-!
# Keys of the scopes of a run

Whatever is done to well-keyed scopes leaves them well-keyed (`Operation.wellKeyed_apply`), so
what a run learns can be written and read back. The key of a scope is a digest of 64 characters
(`Sha256.length_hexDigest`) and so never one of the reserved names ; a key that is there already
is not set a second time.
-/

namespace PiBlocks

/-! ## Digests -/

namespace Sha256

theorem length_bigEndian : ∀ count n : Nat, (bigEndian count n).length = count
  | 0, _ => rfl
  | count + 1, n => by rw [bigEndian, List.length_append, length_bigEndian count]; rfl

theorem length_digest (message : List UInt8) : (digest message).length = 32 := by
  simp [digest, Chain.words, length_bigEndian]

theorem length_hexDigest (text : String) : (hexDigest text).toList.length = 64 := by
  simp [hexDigest, List.length_flatMap, hexByte, length_digest]

end Sha256

namespace Scope

theorem not_isReserved_key (id : String) : (!isReserved (key id)) = true := by
  have hne (name : String) (h : name.toList.length ≠ 64) : key id ≠ name := by
    rintro rfl
    exact h (Sha256.length_hexDigest id)
  simp [isReserved, hne "names" (by decide), hne "type" (by decide)]

/-! ## Changes of a scope -/

theorem wellKeyed_of_get? {key : String} {scope : Scope} : ∀ {children : List (String × Scope)},
    childrenWellKeyed children = true → OrderedMap.get? key children = some scope →
      scope.wellKeyed = true
  | [], _, h => by cases h
  | (other, inner) :: rest, hkeyed, h => by
    simp only [childrenWellKeyed, Bool.and_eq_true] at hkeyed
    rw [OrderedMap.get?] at h
    split at h
    · exact Option.some.inj h ▸ hkeyed.1.2
    · exact wellKeyed_of_get? hkeyed.2 h

theorem wellKeyed_retag (kind : ScopeKind) (scope : Scope) :
    (scope.retag kind).wellKeyed = scope.wellKeyed := by
  cases scope
  rfl

theorem wellKeyed_declare (name : String) (scope : Scope) :
    (scope.declare name).wellKeyed = scope.wellKeyed := by
  cases scope
  rfl

theorem wellKeyed_openChild (id : String) (kind : ScopeKind) {scope : Scope}
    (h : scope.wellKeyed = true) : (scope.openChild (key id) kind).wellKeyed = true := by
  obtain ⟨outer, names, children⟩ := scope
  simp only [wellKeyed, Bool.and_eq_true, decide_eq_true_eq] at h
  have hinner : ((OrderedMap.get? (key id) children).getD (empty kind)).wellKeyed = true := by
    cases hget : OrderedMap.get? (key id) children with
    | none => rfl
    | some inner => exact wellKeyed_of_get? h.2 hget
  simp only [openChild, wellKeyed, Bool.and_eq_true, decide_eq_true_eq]
  exact ⟨OrderedMap.nodup_keys_insert _ _ h.1, childrenWellKeyed_insert (not_isReserved_key id)
    ((wellKeyed_retag kind _).trans hinner) h.2⟩

theorem keys_adjust (key : String) (change : Scope → Scope) (children : List (String × Scope)) :
    OrderedMap.keys (adjust key change children) = OrderedMap.keys children := by
  induction children with
  | nil => rfl
  | cons entry rest ih =>
    rw [adjust]
    split
    · rfl
    · exact congrArg (entry.1 :: ·) ih

theorem childrenWellKeyed_adjust {key : String} {change : Scope → Scope}
    (hchange : ∀ {scope : Scope}, scope.wellKeyed = true → (change scope).wellKeyed = true) :
    ∀ {children : List (String × Scope)}, childrenWellKeyed children = true →
      childrenWellKeyed (adjust key change children) = true
  | [], _ => rfl
  | (other, scope) :: rest, h => by
    simp only [childrenWellKeyed, Bool.and_eq_true] at h
    rw [adjust]
    split
    · simp [childrenWellKeyed, h.1.1, hchange h.1.2, h.2]
    · simp [childrenWellKeyed, h.1.1, h.1.2, childrenWellKeyed_adjust hchange h.2]

/-- A change that keeps scopes well-keyed does so wherever it is made. -/
theorem wellKeyed_updateAt {change : Scope → Scope}
    (hchange : ∀ {scope : Scope}, scope.wellKeyed = true → (change scope).wellKeyed = true) :
    ∀ (path : List String) {scope : Scope}, scope.wellKeyed = true →
      (updateAt change path scope).wellKeyed = true
  | [], _, h => hchange h
  | key :: path, .mk kind names children, h => by
    simp only [wellKeyed, Bool.and_eq_true, decide_eq_true_eq] at h
    simp only [updateAt, wellKeyed, Bool.and_eq_true, decide_eq_true_eq, keys_adjust]
    exact ⟨h.1, childrenWellKeyed_adjust (fun hscope => wellKeyed_updateAt hchange path hscope) h.2⟩

end Scope

/-! ## Operations -/

namespace Snapshot

theorem wellKeyed_updateCurrent {snapshot : Snapshot} {change : Scope → Scope}
    (hchange : ∀ {scope : Scope}, scope.wellKeyed = true → (change scope).wellKeyed = true)
    (h : snapshot.wellKeyed = true) : (snapshot.updateCurrent change).wellKeyed = true := by
  obtain ⟨global, stack, processes, declaredMain⟩ := snapshot
  cases stack with
  | nil => exact h
  | cons first path =>
    simp only [updateCurrent]
    split
    · simp only [wellKeyed, Bool.and_eq_true] at h ⊢
      exact ⟨Scope.wellKeyed_updateAt hchange path h.1, h.2⟩
    · exact h

end Snapshot

namespace Scopes

variable {scopes : Scopes} (h : scopes.active.wellKeyed = true)
include h

theorem wellKeyed_enter (id : String) (kind : ScopeKind) :
    (scopes.enter id kind).active.wellKeyed = true := by
  rw [enter]
  dsimp only
  split
  · exact h
  · exact Snapshot.wellKeyed_updateCurrent (Scope.wellKeyed_openChild id kind) h

theorem wellKeyed_leave : scopes.leave.active.wellKeyed = true := by
  rw [leave]
  split <;> exact h

theorem wellKeyed_declare (name : String) : (scopes.declare name).active.wellKeyed = true := by
  rw [declare]
  split
  · exact h
  · exact Snapshot.wellKeyed_updateCurrent
      (fun hscope => (Scope.wellKeyed_declare name _).trans hscope) h

theorem wellKeyed_declareAll (names : List String) :
    (scopes.declareAll names).active.wellKeyed = true := by
  induction names generalizing scopes with
  | nil => exact h
  | cons name names ih => exact ih (wellKeyed_declare h name)

theorem wellKeyed_register (id name : String) (params : List String) :
    (scopes.register id name params).active.wellKeyed = true := by
  refine wellKeyed_declareAll (wellKeyed_enter ?_ id .process) params
  simp only [Snapshot.wellKeyed, Bool.and_eq_true, decide_eq_true_eq] at h ⊢
  exact ⟨h.1, OrderedMap.nodup_keys_insert _ _ h.2⟩

end Scopes

/-- Both snapshots are well-keyed. -/
structure Scopes.WellKeyed (scopes : Scopes) : Prop where
  active : scopes.active.wellKeyed = true
  committed : scopes.committed.wellKeyed = true

namespace Operation

/-- An operation leaves both snapshots well-keyed, if one that is restored is. -/
theorem wellKeyed_apply (op : Operation) {scopes : Scopes} (h : scopes.WellKeyed)
    (hrestored : ∀ snapshot, op = .restore snapshot → snapshot.wellKeyed = true) :
    (op.apply scopes).WellKeyed := by
  refine ⟨?_, ?_⟩
  · cases op with
    | begin => rfl
    | enter id kind => exact Scopes.wellKeyed_enter h.active id kind
    | leave => exact Scopes.wellKeyed_leave h.active
    | declare name => exact Scopes.wellKeyed_declare h.active name
    | register id name params => exact Scopes.wellKeyed_register h.active id name params
    | commit => rfl
    | restore snapshot => exact h.active
  · rw [committed_apply]
    cases op with
    | commit => exact h.active
    | restore snapshot => exact hrestored snapshot rfl
    | _ => exact h.committed

theorem wellKeyed_applyAll : ∀ {ops : List Operation},
    (∀ op ∈ ops, ∀ snapshot, op = .restore snapshot → snapshot.wellKeyed = true) →
      ∀ {scopes : Scopes}, scopes.WellKeyed → (applyAll ops scopes).WellKeyed
  | [], _, _, h => h
  | op :: _, hrestored, _, h =>
    wellKeyed_applyAll (fun other hother => hrestored other (List.mem_cons_of_mem op hother))
      (wellKeyed_apply op h (hrestored op List.mem_cons_self))

end Operation

end PiBlocks
