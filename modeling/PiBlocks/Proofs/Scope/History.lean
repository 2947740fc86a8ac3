import PiBlocks.Proofs.Scope.Open
import Mathlib.Data.List.DropRight

/-!
# Scopes and what was done to them

Whatever is done to the scopes of a run, in any order and with any arguments, the active
snapshot can be told from the list of operations (`Scopes.active_records`). Only what was done
since it was last made fresh counts (`Operation.recent`). The keys of the open scopes are those
entered and not left (`Operation.pathOf`) ; a path leads to a scope if it is a beginning of a
path that was open ; and the names there are those declared while exactly that path was open
(`Operation.namesAt`).

A snapshot that agrees with a list of operations `Records` it. The operations are taken one at
a time : entering adds one scope and no name, declaring adds names to one scope and no scope
(`isSome_at?_updateAt`, `namesOn_updateAt` tell what a change at the end of a path does
elsewhere), and the rest is induction on the list, from its end.
-/

namespace PiBlocks

/-- Something done to the scopes of a run. -/
inductive Operation where
  | begin
  | enter (id : String) (kind : ScopeKind)
  | leave
  | declare (name : String)
  | register (id name : String) (params : List String)
  | commit
  | restore (snapshot : Snapshot)
deriving DecidableEq, Repr

namespace Operation

/-- What it does to scopes. -/
def apply : Operation → Scopes → Scopes
  | .begin, scopes => scopes.begin
  | .enter id kind, scopes => scopes.enter id kind
  | .leave, scopes => scopes.leave
  | .declare name, scopes => scopes.declare name
  | .register id name params, scopes => scopes.register id name params
  | .commit, scopes => scopes.commit
  | .restore snapshot, scopes => scopes.restore snapshot

/-- Does operations one after the other. -/
def applyAll (ops : List Operation) (scopes : Scopes) : Scopes :=
  ops.foldl (fun scopes op => op.apply scopes) scopes

@[simp] theorem applyAll_nil (scopes : Scopes) : applyAll [] scopes = scopes := rfl

theorem applyAll_append (ops more : List Operation) (scopes : Scopes) :
    applyAll (ops ++ more) scopes = applyAll more (applyAll ops scopes) :=
  List.foldl_append

/-! ## What a list of operations tells -/

/-- Whether it makes the active snapshot a fresh one. -/
def refreshes : Operation → Bool
  | .begin | .commit => true
  | _ => false

/-- What was done since the active snapshot was last made fresh. -/
def recent (ops : List Operation) : List Operation := ops.rtakeWhile fun op => !op.refreshes

/-- The keys of the open scopes below the outermost one, given those before. -/
def path : Operation → List String → List String
  | .begin, _ | .commit, _ => []
  | .enter id _, keys | .register id _ _, keys => keys ++ [Scope.key id]
  | .leave, keys => keys.dropLast
  | .declare _, keys | .restore _, keys => keys

/-- The names it declares in the scope that is innermost afterwards. -/
def declared : Operation → List String
  | .declare name => Scope.declarable [name]
  | .register _ _ params => Scope.declarable params
  | _ => []

/-- The keys of the open scopes below the outermost one. -/
def pathOf (ops : List Operation) : List String := ops.foldl (fun keys op => op.path keys) []

/-- The names declared while exactly a path was open, in order, if one path is open at first. -/
def namesFrom (target : List String) : List String → List Operation → List String
  | _, [] => []
  | keys, op :: ops =>
    (if op.path keys = target then op.declared else []) ++ namesFrom target (op.path keys) ops

/-- The names declared while exactly a path was open, in order. -/
def namesAt (target : List String) (ops : List Operation) : List String := namesFrom target [] ops

/-- Whether a path is the beginning of one that was open at some time. -/
def WasOpen (target : List String) (ops : List Operation) : Prop :=
  ∃ front, front <+: ops ∧ target <+: pathOf front

theorem pathOf_concat (ops : List Operation) (op : Operation) :
    pathOf (ops ++ [op]) = op.path (pathOf ops) := by
  simp [pathOf]

theorem namesFrom_concat (target : List String) (op : Operation) : ∀ keys ops,
    namesFrom target keys (ops ++ [op]) = namesFrom target keys ops ++
      if op.path (ops.foldl (fun keys op => op.path keys) keys) = target then op.declared else []
  | _, [] => List.append_nil _
  | keys, first :: ops => by
    rw [List.cons_append, namesFrom, namesFrom_concat target op (first.path keys) ops, namesFrom,
      List.append_assoc]
    rfl

theorem namesAt_concat (target : List String) (ops : List Operation) (op : Operation) :
    namesAt target (ops ++ [op]) =
      namesAt target ops ++ if op.path (pathOf ops) = target then op.declared else [] :=
  namesFrom_concat target op [] ops

theorem wasOpen_concat (target : List String) (ops : List Operation) (op : Operation) :
    WasOpen target (ops ++ [op]) ↔ WasOpen target ops ∨ target <+: op.path (pathOf ops) := by
  simp only [WasOpen, List.prefix_concat_iff, or_and_right, exists_or, exists_eq_left,
    pathOf_concat]
  exact Or.comm

theorem wasOpen_pathOf {target : List String} {ops : List Operation}
    (h : target <+: pathOf ops) : WasOpen target ops :=
  ⟨ops, List.prefix_refl ops, h⟩

/-- A way back is no new path. -/
theorem wasOpen_concat_of_prefix {ops : List Operation} {op : Operation}
    (h : op.path (pathOf ops) <+: pathOf ops) (target : List String) :
    WasOpen target (ops ++ [op]) ↔ WasOpen target ops := by
  rw [wasOpen_concat]
  exact or_iff_left_of_imp fun htarget => wasOpen_pathOf (htarget.trans h)

/-- A scope that is entered gives one new path. -/
theorem wasOpen_concat_of_key {ops : List Operation} {op : Operation} (key : String)
    (h : op.path (pathOf ops) = pathOf ops ++ [key]) (target : List String) :
    WasOpen target (ops ++ [op]) ↔ WasOpen target ops ∨ target = pathOf ops ++ [key] := by
  rw [wasOpen_concat, h, List.prefix_concat_iff]
  constructor
  · rintro (hold | rfl | hback)
    · exact .inl hold
    · exact .inr rfl
    · exact .inl (wasOpen_pathOf hback)
  · rintro (hold | rfl)
    · exact .inl hold
    · exact .inr (.inl rfl)

theorem not_selectsNothing_of_mem_declared {name : String} {op : Operation}
    (h : name ∈ op.declared) : Block.selectsNothing name = false := by
  cases op with
  | declare _ | register _ _ _ => exact (Scope.mem_declarable.1 h).2
  | _ => simp [declared] at h

theorem not_selectsNothing_of_mem_namesFrom {name : String} {target : List String} :
    ∀ {keys ops}, name ∈ namesFrom target keys ops → Block.selectsNothing name = false
  | _, [], h => by simp [namesFrom] at h
  | keys, op :: ops, h => by
    rw [namesFrom, List.mem_append] at h
    rcases h with h | h
    · split_ifs at h with hpath
      · exact not_selectsNothing_of_mem_declared h
      · simp at h
    · exact not_selectsNothing_of_mem_namesFrom h

end Operation

/-! ## Changes at the end of a path -/

namespace Scope

/-- The names of the scope a path leads to, none if it leads to none. -/
def namesOn (scope : Scope) (path : List String) : List String :=
  ((scope.at? path).map names).getD []

theorem at?_cons (scope : Scope) (key : String) (path : List String) :
    scope.at? (key :: path) = (scope.child? key).bind fun inner => inner.at? path := by
  cases h : scope.child? key <;> simp [at?, h]

theorem get?_adjust (key other : String) (change : Scope → Scope)
    (children : List (String × Scope)) : OrderedMap.get? other (adjust key change children) =
      if other = key then (OrderedMap.get? other children).map change
      else OrderedMap.get? other children := by
  induction children with
  | nil => simp [adjust, OrderedMap.get?]
  | cons entry rest ih =>
    obtain ⟨k, scope⟩ := entry
    by_cases hk : k = key
    · by_cases ho : key = other
      · simp [adjust, OrderedMap.get?, hk, ho]
      · simp [adjust, OrderedMap.get?, hk, ho, Ne.symm ho]
    · by_cases ho : k = other
      · subst ho
        simp [adjust, OrderedMap.get?, hk]
      · simp [adjust, OrderedMap.get?, hk, ho, ih]

/-- What a change at the end of a path does to the scopes of another path, told from what it
does to those below the scope it changes. -/
theorem at?_updateAt_cons (change : Scope → Scope) (key other : String) (path rest : List String)
    (scope : Scope) : (updateAt change (key :: path) scope).at? (other :: rest) =
      if other = key then (scope.child? key).bind fun inner => (updateAt change path inner).at? rest
      else scope.at? (other :: rest) := by
  obtain ⟨kind, names, children⟩ := scope
  by_cases h : other = key
  · subst h
    cases hget : OrderedMap.get? other children <;>
      simp [updateAt, at?, child?, get?_adjust, hget]
  · simp [updateAt, at?, child?, get?_adjust, h]

section Declaring

variable {change : Scope → Scope} (hchange : ∀ scope, (change scope).children = scope.children)
include hchange

theorem at?_cons_of_children (key : String) (path : List String) (scope : Scope) :
    (change scope).at? (key :: path) = scope.at? (key :: path) := by
  simp [at?, child?, hchange]

/-- A change that keeps the scopes inside makes no path lead anywhere else. -/
theorem isSome_at?_updateAt (target : List String) : ∀ (path : List String) (scope : Scope),
    ((updateAt change path scope).at? target).isSome = (scope.at? target).isSome := by
  induction target with
  | nil => simp [at?]
  | cons other rest ih =>
    rintro (_ | ⟨key, path⟩) scope
    · simp [updateAt, at?_cons_of_children hchange]
    · rw [at?_updateAt_cons]
      split_ifs with h
      · subst h
        cases hchild : scope.child? other <;> simp [at?, hchild, ih]
      · rfl

/-- Names change at the end of the path only. -/
theorem namesOn_updateAt (target : List String) : ∀ (path : List String) (scope : Scope),
    (updateAt change path scope).namesOn target =
      if target = path then (((scope.at? path).map change).map names).getD []
      else scope.namesOn target := by
  induction target with
  | nil =>
    rintro (_ | ⟨key, path⟩) ⟨kind, names, children⟩ <;> simp [namesOn, at?, updateAt]
  | cons other rest ih =>
    rintro (_ | ⟨key, path⟩) scope
    · simp [namesOn, updateAt, at?_cons_of_children hchange]
    · rw [namesOn, at?_updateAt_cons]
      by_cases h : other = key
      · subst h
        cases hchild : scope.child? other with
        | none => simp [namesOn, at?, hchild]
        | some inner => simpa [namesOn, at?, hchild] using ih path inner
      · simp [namesOn, h]

end Declaring

section Opening

variable (key : String) (kind : ScopeKind)

theorem at?_openChild (other : String) (rest : List String) (scope : Scope) :
    (scope.openChild key kind).at? (other :: rest) =
      if other = key then (((scope.child? key).getD (empty kind)).retag kind).at? rest
      else scope.at? (other :: rest) := by
  obtain ⟨around, names, children⟩ := scope
  by_cases h : other = key
  · subst h
    simp [openChild, at?, child?]
  · simp [openChild, at?, child?, h, OrderedMap.get?_insert_of_ne h]

theorem at?_retag_cons (other : String) (rest : List String) (scope : Scope) :
    (scope.retag kind).at? (other :: rest) = scope.at? (other :: rest) := by
  cases scope
  rfl

theorem names_retag (scope : Scope) : (scope.retag kind).names = scope.names := by
  cases scope
  rfl

theorem names_openChild (scope : Scope) : (scope.openChild key kind).names = scope.names := by
  cases scope
  rfl

@[simp] theorem at?_empty_cons (other : String) (rest : List String) :
    (empty kind).at? (other :: rest) = none := rfl

theorem isSome_at?_openChild (target : List String) (scope : Scope) :
    ((scope.openChild key kind).at? target).isSome ↔
      (scope.at? target).isSome ∨ target = [key] := by
  cases target with
  | nil => simp [at?]
  | cons other rest =>
    rw [at?_openChild]
    split_ifs with h
    · subst h
      cases rest with
      | nil => simp [at?]
      | cons next rest =>
        rw [at?_retag_cons, at?_cons scope]
        cases hchild : scope.child? other <;> simp
    · simp [h]

theorem namesOn_openChild (target : List String) (scope : Scope) :
    (scope.openChild key kind).namesOn target = scope.namesOn target := by
  cases target with
  | nil => simp [namesOn, at?, names_openChild]
  | cons other rest =>
    rw [namesOn, at?_openChild, namesOn]
    split_ifs with h
    · subst h
      cases rest with
      | nil => cases hchild : scope.child? other <;> simp [at?, hchild, names_retag, empty]
      | cons next rest =>
        rw [at?_retag_cons, at?_cons scope]
        cases hchild : scope.child? other <;> simp
    · rfl

/-- A scope opened at the end of a path that leads to one is the only new one. -/
theorem isSome_at?_updateAt_openChild (target : List String) :
    ∀ {path : List String} {scope : Scope}, (scope.at? path).isSome →
      (((updateAt (openChild key kind) path scope).at? target).isSome ↔
        (scope.at? target).isSome ∨ target = path ++ [key]) := by
  induction target with
  | nil => simp [at?]
  | cons other rest ih =>
    rintro (_ | ⟨first, path⟩) scope hpath
    · simpa [updateAt] using isSome_at?_openChild key kind (other :: rest) scope
    · rw [at?_updateAt_cons]
      split_ifs with h
      · subst h
        cases hchild : scope.child? other with
        | none => simp [at?, hchild] at hpath
        | some inner =>
          have hinner : (inner.at? path).isSome := by simpa [at?, hchild] using hpath
          simpa [at?, hchild] using ih hinner
      · simp [h]

/-- Opening a scope declares nothing. -/
theorem namesOn_updateAt_openChild (target : List String) : ∀ (path : List String) (scope : Scope),
    (updateAt (openChild key kind) path scope).namesOn target = scope.namesOn target := by
  induction target with
  | nil =>
    rintro (_ | ⟨first, path⟩) ⟨around, names, children⟩ <;>
      simp [namesOn, at?, updateAt, names_openChild]
  | cons other rest ih =>
    rintro (_ | ⟨first, path⟩) scope
    · exact namesOn_openChild key kind _ scope
    · rw [namesOn, at?_updateAt_cons]
      split_ifs with h
      · subst h
        cases hchild : scope.child? other with
        | none => simp [namesOn, at?, hchild]
        | some inner => simpa [namesOn, at?, hchild] using ih path inner
      · rfl

end Opening

end Scope

/-! ## Snapshots that record operations -/

/-- A snapshot agrees with what was done since it was fresh. -/
structure Snapshot.Records (snapshot : Snapshot) (ops : List Operation) : Prop where
  stack : snapshot.stack = Scope.globalKey :: Operation.pathOf ops
  isSome_iff : ∀ path, (snapshot.global.at? path).isSome ↔ Operation.WasOpen path ops
  names : ∀ path, snapshot.global.namesOn path = Operation.namesAt path ops

namespace Snapshot.Records

open Operation (pathOf namesAt WasOpen)

variable {snapshot : Snapshot} {ops : List Operation}

/-- A fresh snapshot records that nothing was done. -/
theorem fresh : Records {} [] where
  stack := rfl
  isSome_iff path := by
    cases path with
    | nil => simp [Scope.at?, WasOpen, pathOf]
    | cons key path => simp [WasOpen, pathOf]
  names path := by
    cases path with
    | nil => rfl
    | cons key path => rfl

/-- The path of open scopes leads to a scope. -/
theorem isSome_pathOf (h : Records snapshot ops) :
    (snapshot.global.at? (pathOf ops)).isSome :=
  (h.isSome_iff _).2 (Operation.wasOpen_pathOf (List.prefix_refl _))

theorem current? (h : Records snapshot ops) :
    snapshot.current? = snapshot.global.at? (pathOf ops) := by
  simp [Snapshot.current?, scope?, h.stack]

/-- Scopes stand at the beginnings of the paths that were open. -/
theorem isSome_scope?_iff (h : Records snapshot ops) (path : List String) :
    (snapshot.scope? path).isSome ↔ path ≠ [] ∧
      ∃ front, front <+: ops ∧ path <+: Scope.globalKey :: pathOf front := by
  cases path with
  | nil => simp [scope?]
  | cons first path =>
    by_cases hfirst : first = Scope.globalKey
    · simp [scope?, hfirst, h.isSome_iff, WasOpen]
    · simp [scope?, hfirst]

/-- A name is visible if it was declared at a beginning of the open path. -/
theorem isVisible_iff {scopes : Scopes} (h : Records scopes.active ops) (name : String) :
    scopes.isVisible name ↔ ∃ path, path <+: pathOf ops ∧ name ∈ namesAt path ops := by
  by_cases hname : name = unresolved
  · subst hname
    have hnone (path) : unresolved ∉ namesAt path ops := fun hmem => by
      simpa [Block.selectsNothing] using Operation.not_selectsNothing_of_mem_namesFrom hmem
    simp [Scopes.isVisible, hnone]
  · have hnames (path) : name ∈ namesAt path ops ↔
        ∃ inner, scopes.active.global.at? path = some inner ∧ name ∈ inner.names := by
      rw [← h.names, Scope.namesOn]
      cases scopes.active.global.at? path <;> simp
    simp [Scopes.isVisible, hname, h.stack, Scope.mem_namesAlong hname, hnames]

theorem updateCurrent (h : Records snapshot ops) (change : Scope → Scope) :
    snapshot.updateCurrent change =
      { snapshot with global := snapshot.global.updateAt change (pathOf ops) } := by
  simp [Snapshot.updateCurrent, h.stack]

theorem enter {scopes : Scopes} (h : Records scopes.active ops) (id : String) (kind : ScopeKind) :
    (scopes.enter id kind).active.stack = Scope.globalKey :: (pathOf ops ++ [Scope.key id]) ∧
      (∀ path, ((scopes.enter id kind).active.global.at? path).isSome ↔
        WasOpen path ops ∨ path = pathOf ops ++ [Scope.key id]) ∧
      ∀ path, (scopes.enter id kind).active.global.namesOn path = namesAt path ops := by
  let noted : Snapshot := { scopes.active with
    declaredMain := scopes.active.declaredMain || decide (kind = .main) }
  have hnoted : Records noted ops := ⟨h.stack, h.isSome_iff, h.names⟩
  obtain ⟨inner, hinner⟩ := Option.isSome_iff_exists.1 hnoted.isSome_pathOf
  have hcurrent : noted.current? = some inner := hnoted.current?.trans hinner
  have henter : (scopes.enter id kind).active = { noted with
      global := noted.global.updateAt (Scope.openChild (Scope.key id) kind) (pathOf ops)
      stack := noted.stack ++ [Scope.key id] } := by
    rw [Scopes.enter]
    split
    · next hnone => exact absurd (hcurrent.symm.trans hnone) (Option.some_ne_none inner)
    · rw [hnoted.updateCurrent]
  rw [henter]
  refine ⟨by simp [hnoted.stack], fun path => ?_, fun path => ?_⟩
  · rw [Scope.isSome_at?_updateAt_openChild _ _ _ hnoted.isSome_pathOf, hnoted.isSome_iff]
  · rw [Scope.namesOn_updateAt_openChild, hnoted.names]

end Snapshot.Records

/-- A name is added to the innermost scope, if it is one, and nothing else changes. -/
theorem Scopes.declare_at {keys : List String} {scopes : Scopes} (name : String)
    (hstack : scopes.active.stack = Scope.globalKey :: keys)
    (hkeys : (scopes.active.global.at? keys).isSome) :
    (scopes.declare name).active.stack = scopes.active.stack ∧
      (∀ path, ((scopes.declare name).active.global.at? path).isSome =
        (scopes.active.global.at? path).isSome) ∧
      ∀ path, (scopes.declare name).active.global.namesOn path =
        scopes.active.global.namesOn path ++
          if path = keys then Scope.declarable [name] else [] := by
  by_cases hname : Block.selectsNothing name = true
  · have hdeclare : scopes.declare name = scopes := if_pos hname
    simp [hdeclare, Scope.declarable, hname]
  · have hdeclare : scopes.declare name = { scopes with active := { scopes.active with
        global := scopes.active.global.updateAt (Scope.declare name) keys } } := by
      have hif : scopes.declare name = _ := if_neg hname
      rw [hif]
      simp [Snapshot.updateCurrent, hstack]
    have hnames : Scope.declarable [name] = [name] := by simp [Scope.declarable, hname]
    have hchange : ∀ scope : Scope, (scope.declare name).children = scope.children := by
      rintro ⟨kind, own, children⟩
      rfl
    rw [hdeclare, hnames]
    refine ⟨rfl, fun path => Scope.isSome_at?_updateAt hchange path keys _, fun path => ?_⟩
    rw [Scope.namesOn_updateAt hchange]
    split_ifs with hpath
    · obtain ⟨⟨kind, own, children⟩, hinner⟩ := Option.isSome_iff_exists.1 hkeys
      simp [Scope.namesOn, hpath, hinner, Scope.declare]
    · simp

/-- So are several names, in order. -/
theorem Scopes.declareAll_at {keys : List String} : ∀ (names : List String) (scopes : Scopes),
    scopes.active.stack = Scope.globalKey :: keys → (scopes.active.global.at? keys).isSome →
    (scopes.declareAll names).active.stack = scopes.active.stack ∧
      (∀ path, ((scopes.declareAll names).active.global.at? path).isSome =
        (scopes.active.global.at? path).isSome) ∧
      ∀ path, (scopes.declareAll names).active.global.namesOn path =
        scopes.active.global.namesOn path ++ if path = keys then Scope.declarable names else []
  | [], scopes, _, _ => by simp [declareAll]
  | name :: names, scopes, hstack, hkeys => by
    have hfold : scopes.declareAll (name :: names) = (scopes.declare name).declareAll names := rfl
    have hsplit : Scope.declarable (name :: names) =
        Scope.declarable [name] ++ Scope.declarable names := Scope.declarable_append [name] names
    obtain ⟨hstack₁, hsome₁, hnames₁⟩ := declare_at name hstack hkeys
    obtain ⟨hstack₂, hsome₂, hnames₂⟩ := declareAll_at names (scopes.declare name)
      (hstack₁.trans hstack) ((hsome₁ keys).trans hkeys)
    rw [hfold]
    refine ⟨hstack₂.trans hstack₁, fun path => (hsome₂ path).trans (hsome₁ path), fun path => ?_⟩
    rw [hnames₂, hnames₁, hsplit, List.append_assoc]
    split_ifs <;> rfl

namespace Snapshot.Records

open Operation (pathOf namesAt WasOpen)

variable {scopes : Scopes} {ops : List Operation}

/-- The outermost scope is never left. -/
theorem active_leave (h : Records scopes.active ops) : scopes.leave.active =
    { scopes.active with stack := Scope.globalKey :: (pathOf ops).dropLast } := by
  rw [Scopes.leave]
  split_ifs with hlength
  · have hnil : pathOf ops = [] := by simpa [h.stack] using hlength
    have hsame : Scope.globalKey :: (pathOf ops).dropLast = scopes.active.stack := by
      simp [h.stack, hnil]
    rw [hsame]
  · obtain ⟨key, keys, hcons⟩ : ∃ key keys, pathOf ops = key :: keys :=
      List.exists_cons_of_ne_nil fun hnil => hlength (by simp [h.stack, hnil])
    simp [h.stack, hcons]

/-- Leaving a scope is recorded. -/
theorem leave (h : Records scopes.active ops) : Records scopes.leave.active (ops ++ [.leave]) := by
  have hpath : Operation.leave.path (pathOf ops) <+: pathOf ops := List.dropLast_prefix _
  rw [h.active_leave]
  refine ⟨by rw [Operation.pathOf_concat]; rfl, fun path => ?_, fun path => ?_⟩
  · rw [Operation.wasOpen_concat_of_prefix hpath, h.isSome_iff]
  · simp [Operation.namesAt_concat, Operation.declared, h.names]

/-- An operation that does not make the snapshot fresh is recorded behind the others. -/
theorem apply (h : Records scopes.active ops) {op : Operation} (hop : op.refreshes = false) :
    Records (op.apply scopes).active (ops ++ [op]) := by
  have hstay {op : Operation} (hpath : op.path (pathOf ops) = pathOf ops) (path) :
      WasOpen path (ops ++ [op]) ↔ WasOpen path ops :=
    Operation.wasOpen_concat_of_prefix (by rw [hpath]) path
  cases op with
  | begin | commit => cases hop
  | leave => exact h.leave
  | enter id kind =>
    obtain ⟨hstack, hsome, hnames⟩ := h.enter id kind
    refine ⟨by rw [Operation.pathOf_concat]; exact hstack, fun path => ?_, fun path => ?_⟩
    · exact (hsome path).trans (Operation.wasOpen_concat_of_key (Scope.key id) rfl path).symm
    · refine (hnames path).trans ?_
      simp [Operation.namesAt_concat, Operation.declared]
  | declare name =>
    obtain ⟨hstack, hsome, hnames⟩ := Scopes.declare_at name h.stack h.isSome_pathOf
    refine ⟨by rw [Operation.pathOf_concat]; exact hstack.trans h.stack, fun path => ?_,
      fun path => ?_⟩
    · rw [hstay rfl, ← h.isSome_iff, ← hsome path]
      rfl
    · refine (hnames path).trans ?_
      simp [Operation.namesAt_concat, Operation.path, Operation.declared, h.names, eq_comm]
  | register id name params =>
    let noted : Scopes := { scopes with active := { scopes.active with
      processes := scopes.active.processes.insert name ⟨Scope.key id, id, params⟩ } }
    have hnoted : Records noted.active ops := ⟨h.stack, h.isSome_iff, h.names⟩
    obtain ⟨hstack, hsome, hnames⟩ := hnoted.enter id .process
    obtain ⟨hstack', hsome', hnames'⟩ :=
      Scopes.declareAll_at params _ hstack ((hsome _).2 (.inr rfl))
    refine ⟨by rw [Operation.pathOf_concat]; exact hstack'.trans hstack, fun path => ?_,
      fun path => ?_⟩
    · rw [Operation.wasOpen_concat_of_key (Scope.key id) rfl, ← hsome path, ← hsome' path]
      rfl
    · refine (hnames' path).trans ?_
      simp [Operation.namesAt_concat, Operation.path, Operation.declared, hnames, eq_comm]
  | restore snapshot =>
    refine ⟨by rw [Operation.pathOf_concat]; exact h.stack, fun path => ?_, fun path => ?_⟩
    · rw [hstay rfl, ← h.isSome_iff]
      rfl
    · refine (h.names path).trans ?_
      simp [Operation.namesAt_concat, Operation.declared]

end Snapshot.Records

/-! ## The committed snapshot -/

namespace Scopes

variable (scopes : Scopes)

@[simp] theorem committed_enter (id : String) (kind : ScopeKind) :
    (scopes.enter id kind).committed = scopes.committed := by
  rw [enter]
  split <;> rfl

@[simp] theorem committed_leave : scopes.leave.committed = scopes.committed := by
  rw [leave]
  split <;> rfl

@[simp] theorem committed_declare (name : String) :
    (scopes.declare name).committed = scopes.committed := by
  rw [declare]
  split <;> rfl

@[simp] theorem committed_declareAll (names : List String) :
    (scopes.declareAll names).committed = scopes.committed := by
  induction names generalizing scopes with
  | nil => rfl
  | cons name names ih => exact (ih (scopes.declare name)).trans (scopes.committed_declare name)

@[simp] theorem committed_register (id name : String) (params : List String) :
    (scopes.register id name params).committed = scopes.committed := by
  simp [register]

end Scopes

namespace Operation

/-- Only committing and restoring change the committed snapshot. -/
theorem committed_apply (op : Operation) (scopes : Scopes) :
    (op.apply scopes).committed = match op with
      | .commit => scopes.active
      | .restore saved => saved
      | _ => scopes.committed := by
  cases op <;> simp [apply, Scopes.begin, Scopes.commit, Scopes.restore]

/-! ## All operations -/

theorem recent_concat (ops : List Operation) (op : Operation) :
    recent (ops ++ [op]) = if op.refreshes then [] else recent ops ++ [op] := by
  cases h : op.refreshes <;> simp [recent, h]

/-- After any operations the active snapshot records what was done since it was fresh. -/
theorem records_recent (snapshot : Snapshot) (ops : List Operation) :
    (applyAll ops (.resume snapshot)).active.Records (recent ops) := by
  induction ops using List.reverseRecOn with
  | nil => exact Snapshot.Records.fresh
  | append_singleton ops op ih =>
    rw [applyAll_append, recent_concat]
    split_ifs with hop
    · cases op with
      | begin | commit => exact Snapshot.Records.fresh
      | _ => cases hop
    · exact ih.apply (Bool.eq_false_iff.2 hop)

end Operation

/-- After any operations the open scopes are those entered and not left, and their path leads to
a scope, so a scope that is entered is always opened and the outermost one never left. The scopes
are those at the beginnings of the paths that were open since the snapshot was fresh, with the
names declared while that path was open. A name is visible if it was declared at a beginning of
the open path. The committed snapshot changes only when the active one takes its place or a saved
one is restored. -/
theorem Scopes.active_records (snapshot : Snapshot) (ops : List Operation) :
    let scopes := Operation.applyAll ops (.resume snapshot)
    let since := Operation.recent ops
    (scopes.active.stack = Scope.globalKey :: Operation.pathOf since ∧
      (scopes.active.scope? scopes.active.stack).isSome ∧
      (∀ id kind,
        (scopes.enter id kind).active.stack = scopes.active.stack ++ [Scope.key id]) ∧
      scopes.leave.active.stack = Scope.globalKey :: (Operation.pathOf since).dropLast) ∧
    (∀ path, (scopes.active.scope? path).isSome ↔ path ≠ [] ∧
      ∃ front, front <+: since ∧ path <+: Scope.globalKey :: Operation.pathOf front) ∧
    (∀ path, ((scopes.active.scope? (Scope.globalKey :: path)).map Scope.names).getD [] =
      Operation.namesAt path since) ∧
    (∀ name, scopes.isVisible name ↔
      ∃ path, path <+: Operation.pathOf since ∧ name ∈ Operation.namesAt path since) ∧
    ∀ op : Operation, (op.apply scopes).committed = match op with
      | .commit => scopes.active
      | .restore saved => saved
      | _ => scopes.committed := by
  intro scopes since
  have h : scopes.active.Records since := Operation.records_recent snapshot ops
  refine ⟨⟨h.stack, ?_, fun id kind => ?_, by rw [h.active_leave]⟩, fun path => ?_, fun path => ?_,
    fun name => ?_, fun op => ?_⟩
  · have hcurrent : scopes.active.current?.isSome := h.current? ▸ h.isSome_pathOf
    exact hcurrent
  · rw [(h.enter id kind).1, h.stack, List.cons_append]
  · exact h.isSome_scope?_iff path
  · exact h.names path
  · exact h.isVisible_iff name
  · exact op.committed_apply scopes

end PiBlocks
