import PiBlocks.Proofs.Scope.History

/-!
# Kinds of open scopes

What kind a scope around the walk is of decides whether a fork is put in brackets. The open scopes
have kinds (`Scopes.Around`) that entering adds one to and leaving takes it away again, whatever
keys their blocks have : if two blocks have one key the second finds the scope of the first, with
its names, but as its own kind (`Scopes.Around.enter`). Nothing else that a walk does changes the
kind of an open scope.
-/

namespace PiBlocks

namespace Scope

/-- The kinds of the scopes on a path, the outermost first, if it leads to a scope. -/
def kindsOn (scope : Scope) : List String → Option (List ScopeKind)
  | [] => some [scope.kind]
  | key :: path => (scope.child? key).bind fun inner => (inner.kindsOn path).map (scope.kind :: ·)

theorem exists_at?_of_kindsOn {kinds : List ScopeKind} : ∀ {path : List String} {scope : Scope},
    scope.kindsOn path = some kinds →
      ∃ inner, scope.at? path = some inner ∧ kinds.getLast? = some inner.kind
  | [], scope, h => ⟨scope, rfl, by simp [← Option.some.inj h]⟩
  | key :: path, scope, h => by
    obtain ⟨child, hchild, h⟩ := Option.bind_eq_some_iff.1 h
    obtain ⟨below, hbelow, rfl⟩ := Option.map_eq_some_iff.1 h
    obtain ⟨inner, hinner, hlast⟩ := exists_at?_of_kindsOn hbelow
    refine ⟨inner, by simp [at?, hchild, hinner], ?_⟩
    simp [List.getLast?_cons, hlast]

theorem length_of_kindsOn {kinds : List ScopeKind} : ∀ {path : List String} {scope : Scope},
    scope.kindsOn path = some kinds → kinds.length = path.length + 1
  | [], _, h => by simp [← Option.some.inj h]
  | key :: path, scope, h => by
    obtain ⟨child, -, h⟩ := Option.bind_eq_some_iff.1 h
    obtain ⟨below, hbelow, rfl⟩ := Option.map_eq_some_iff.1 h
    simp [length_of_kindsOn hbelow]

theorem kindsOn_of_concat {key : String} {kinds : List ScopeKind} {kind : ScopeKind} :
    ∀ {path : List String} {scope : Scope},
      scope.kindsOn (path ++ [key]) = some (kinds ++ [kind]) → scope.kindsOn path = some kinds
  | [], scope, h => by
    obtain ⟨child, -, h⟩ := Option.bind_eq_some_iff.1 h
    obtain ⟨below, hbelow, hkinds⟩ := Option.map_eq_some_iff.1 h
    obtain rfl := Option.some.inj hbelow
    have hsplit : [scope.kind] ++ [child.kind] = kinds ++ [kind] := hkinds
    exact congrArg some (List.append_inj_left' hsplit rfl)
  | first :: path, scope, h => by
    obtain ⟨child, hchild, h⟩ := Option.bind_eq_some_iff.1 h
    obtain ⟨below, hbelow, hkinds⟩ := Option.map_eq_some_iff.1 h
    have hlength := length_of_kindsOn hbelow
    cases kinds with
    | nil =>
      obtain rfl : below = [] := (List.cons.inj hkinds).2
      simp at hlength
    | cons around kinds =>
      obtain ⟨rfl, rfl⟩ := List.cons.inj hkinds
      simp [kindsOn, hchild, kindsOn_of_concat hbelow]

theorem child?_updateAt_cons (change : Scope → Scope) (key : String) (path : List String)
    (scope : Scope) : (updateAt change (key :: path) scope).child? key =
      (scope.child? key).map (updateAt change path) := by
  cases scope
  simp [updateAt, child?, get?_adjust]

theorem kind_updateAt_cons (change : Scope → Scope) (key : String) (path : List String)
    (scope : Scope) : (updateAt change (key :: path) scope).kind = scope.kind := by
  cases scope
  rfl

/-- A name is declared at the end of a path, and the kinds on it are the same. -/
theorem kindsOn_updateAt_declare (name : String) : ∀ (path : List String) (scope : Scope),
    (updateAt (declare name) path scope).kindsOn path = scope.kindsOn path
  | [], .mk _ _ _ => rfl
  | key :: path, scope => by
    rw [kindsOn, kindsOn, child?_updateAt_cons, kind_updateAt_cons]
    cases scope.child? key with
    | none => rfl
    | some inner => simp [kindsOn_updateAt_declare name path]

/-- A scope opened at the end of a path is of its kind, also if there was one. -/
theorem kindsOn_updateAt_openChild (key : String) (kind : ScopeKind) :
    ∀ (path : List String) (scope : Scope),
      (updateAt (openChild key kind) path scope).kindsOn (path ++ [key]) =
        (scope.kindsOn path).map (· ++ [kind])
  | [], .mk around names children => by
    have hretag (scope : Scope) : (scope.retag kind).kind = kind := by
      cases scope
      rfl
    have haround (children) : (mk around names children).kind = around := rfl
    simp [updateAt, openChild, kindsOn, child?, hretag, haround]
  | first :: path, scope => by
    rw [List.cons_append, kindsOn, kindsOn, child?_updateAt_cons, kind_updateAt_cons]
    cases scope.child? first with
    | none => rfl
    | some inner =>
      simp [kindsOn_updateAt_openChild key kind path, Option.map_map, Function.comp_def]

end Scope

namespace Scopes

/-- The open scopes are of these kinds, the outermost first. -/
def Around (scopes : Scopes) (kinds : List ScopeKind) : Prop :=
  ∃ path, scopes.active.stack = Scope.globalKey :: path ∧
    scopes.active.global.kindsOn path = some kinds

namespace Around

variable {scopes : Scopes} {kinds : List ScopeKind} {kind : ScopeKind}

theorem begin (scopes : Scopes) : scopes.begin.Around [.global] := ⟨[], rfl, rfl⟩

theorem currentKind_eq (h : scopes.Around (kinds ++ [kind])) : scopes.currentKind = kind := by
  obtain ⟨path, hstack, hkinds⟩ := h
  obtain ⟨inner, hinner, hlast⟩ := Scope.exists_at?_of_kindsOn hkinds
  obtain rfl : kind = inner.kind := by simpa using hlast
  simp [currentKind, Snapshot.current?, Snapshot.scope?, hstack, hinner]

theorem enter (h : scopes.Around kinds) (id : String) (kind : ScopeKind) :
    (scopes.enter id kind).Around (kinds ++ [kind]) := by
  obtain ⟨path, hstack, hkinds⟩ := h
  obtain ⟨inner, hinner, -⟩ := Scope.exists_at?_of_kindsOn hkinds
  refine ⟨path ++ [Scope.key id], ?_, ?_⟩ <;>
    simp [Scopes.enter, Snapshot.current?, Snapshot.scope?, Snapshot.updateCurrent, hstack, hinner,
      Scope.kindsOn_updateAt_openChild, hkinds]

theorem declare (h : scopes.Around kinds) (name : String) : (scopes.declare name).Around kinds := by
  rw [Scopes.declare]
  split_ifs
  · exact h
  · obtain ⟨path, hstack, hkinds⟩ := h
    refine ⟨path, ?_, ?_⟩ <;>
      simp [Snapshot.updateCurrent, hstack, Scope.kindsOn_updateAt_declare, hkinds]

theorem declareAll (h : scopes.Around kinds) (names : List String) :
    (scopes.declareAll names).Around kinds := by
  induction names generalizing scopes with
  | nil => exact h
  | cons name names ih => exact ih (h.declare name)

/-- The outermost scope is always open. -/
theorem ne_nil (h : scopes.Around kinds) : kinds ≠ [] := by
  rintro rfl
  obtain ⟨path, -, hpath⟩ := h
  simpa using Scope.length_of_kindsOn hpath

theorem leave (h : scopes.Around (kinds ++ [kind])) (hkinds : kinds ≠ []) :
    scopes.leave.Around kinds := by
  obtain ⟨path, hstack, hpath⟩ := h
  have hlength := Scope.length_of_kindsOn hpath
  rw [List.length_append, List.length_singleton] at hlength
  have hpos := List.length_pos_iff.2 hkinds
  obtain ⟨front, key, rfl⟩ : ∃ front key, path = front ++ [key] := by
    refine ⟨path.dropLast, path.getLast ?_, (List.dropLast_append_getLast _).symm⟩
    rintro rfl
    rw [List.length_nil] at hlength
    omega
  refine ⟨front, ?_, ?_⟩
  · simp [Scopes.leave, hstack, List.dropLast_cons_of_ne_nil]
  · have hfront := Scope.kindsOn_of_concat hpath
    simpa [Scopes.leave, hstack] using hfront

end Around

end Scopes

end PiBlocks
