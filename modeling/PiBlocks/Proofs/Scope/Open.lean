import PiBlocks.Program.Render
import PiBlocks.Proofs.Maps
import Mathlib.Data.List.Infix

/-!
# Open scopes

While scopes are being written, the ones that are open lie one inside the other. They are
written here as the innermost scope with its key and the frames around it, the nearest first :
`plug` puts them together again, and `Snapshot.opened` is the snapshot they belong to. If every
open scope has a key that is new where it was opened (`Fresh`), the operations are steps on this
list : `enter_opened` puts an empty scope in front, `leave_opened` closes the first into the
second, `declareAll_opened` adds names to the first.

`mem_namesAlong` tells which names are visible along a path, apart from the mark that hidden
names leave : those of every scope that a beginning of the path leads to.
`isVisible_opened` follows for the open scopes.
-/

namespace PiBlocks

namespace Scope

@[simp] theorem names_mk (kind : ScopeKind) (names : List String)
    (children : List (String × Scope)) : (Scope.mk kind names children).names = names := rfl

@[simp] theorem children_mk (kind : ScopeKind) (names : List String)
    (children : List (String × Scope)) : (Scope.mk kind names children).children = children := rfl

/-- The scope with names and scopes added behind its own. -/
def extend (added : List String) (inner : List (String × Scope)) : Scope → Scope
  | .mk kind names children => .mk kind (names ++ added) (children ++ inner)

theorem extend_mk (kind : ScopeKind) (names added : List String)
    (children inner : List (String × Scope)) :
    (Scope.mk kind names children).extend added inner =
      .mk kind (names ++ added) (children ++ inner) := rfl

@[simp] theorem extend_nil (scope : Scope) : scope.extend [] [] = scope := by
  cases scope
  simp [extend]

@[simp] theorem extend_extend (scope : Scope) (names more : List String)
    (inner others : List (String × Scope)) : (scope.extend names inner).extend more others =
      scope.extend (names ++ more) (inner ++ others) := by
  cases scope
  simp [extend]

@[simp] theorem names_extend (scope : Scope) (added : List String)
    (inner : List (String × Scope)) : (scope.extend added inner).names = scope.names ++ added := by
  cases scope
  rfl

@[simp] theorem children_extend (scope : Scope) (added : List String)
    (inner : List (String × Scope)) :
    (scope.extend added inner).children = scope.children ++ inner := by
  cases scope
  rfl

@[simp] theorem kind_extend (scope : Scope) (added : List String)
    (inner : List (String × Scope)) : (scope.extend added inner).kind = scope.kind := by
  cases scope
  rfl

/-! ## Visible names -/

/-- The names among those given that a scope takes up. -/
def declarable (names : List String) : List String :=
  names.filter fun name => !Block.selectsNothing name

@[simp] theorem declarable_nil : declarable [] = [] := rfl

theorem declarable_append (names more : List String) :
    declarable (names ++ more) = declarable names ++ declarable more :=
  List.filter_append names more

theorem mem_declarable {name : String} {names : List String} :
    name ∈ declarable names ↔ name ∈ names ∧ Block.selectsNothing name = false := by
  simp [declarable]

variable {name : String} (hname : name ≠ unresolved)
include hname

theorem mem_hide_of_ne {other : String} (hne : name ≠ other) (visible : List String) :
    name ∈ hide other visible ↔ name ∈ visible := by
  induction visible with
  | nil => simp [hide]
  | cons first rest ih =>
    by_cases h : first = other
    · simp [hide, h, hname, hne]
    · simp [hide, h, ih]

/-- Declaring a name again hides its place and no other name. -/
theorem mem_foldl_seen (names visible : List String) :
    name ∈ names.foldl seen visible ↔ name ∈ visible ∨ name ∈ names := by
  induction names generalizing visible with
  | nil => simp
  | cons first rest ih =>
    rw [List.foldl_cons, ih]
    by_cases h : name = first
    · simp [seen, h]
    · simp [seen, h, mem_hide_of_ne hname h]

theorem mem_namesFrom (path : List String) : ∀ (scope : Scope) (visible : List String),
    name ∈ scope.namesFrom visible path ↔
      name ∈ visible ∨ ∃ front, front <+: path ∧ ∃ inner, scope.at? front = some inner ∧
        name ∈ inner.names := by
  induction path with
  | nil => simp [namesFrom, mem_foldl_seen hname, at?]
  | cons key path ih =>
    intro scope visible
    have hfront (p : List String → Prop) : (∃ front, front <+: key :: path ∧ p front) ↔
        p [] ∨ ∃ front, front <+: path ∧ p (key :: front) := by
      constructor
      · rintro ⟨front, h, hp⟩
        rcases List.prefix_cons_iff.1 h with rfl | ⟨front, rfl, hfront⟩
        · exact .inl hp
        · exact .inr ⟨front, hfront, hp⟩
      · rintro (hp | ⟨front, h, hp⟩)
        · exact ⟨[], List.nil_prefix, hp⟩
        · exact ⟨key :: front, by simpa using h, hp⟩
    rw [hfront]
    cases h : scope.child? key with
    | none => simp [namesFrom, h, mem_foldl_seen hname, at?]
    | some child => simp [namesFrom, h, mem_foldl_seen hname, at?, ih, or_assoc]

/-- The names visible along a path are those of the scopes on the way. -/
theorem mem_namesAlong (scope : Scope) (path : List String) :
    name ∈ scope.namesAlong path ↔ ∃ front, front <+: path ∧ ∃ inner,
      scope.at? front = some inner ∧ name ∈ inner.names := by
  simp [namesAlong, mem_namesFrom hname]

/-- The names found along a path hang on the names of the scope and on what is under each key. -/
theorem mem_namesAlong_congr {scope other : Scope}
    (hnames : name ∈ scope.names ↔ name ∈ other.names)
    (hchild : ∀ key, scope.child? key = other.child? key) (path : List String) :
    name ∈ scope.namesAlong path ↔ name ∈ other.namesAlong path := by
  rw [mem_namesAlong hname, mem_namesAlong hname]
  refine exists_congr fun front => and_congr_right fun _ => ?_
  cases front with
  | nil => simpa [at?] using hnames
  | cons key front => rw [at?, at?, hchild]

end Scope

/-! ## Frames -/

/-- An open scope around others, with the key it was opened under. -/
structure Frame where
  key : String
  scope : Scope

namespace Frame

/-- The outermost scope, put together from the innermost open one and the frames around it. -/
def plug (key : String) (scope : Scope) : List Frame → Scope
  | [] => scope
  | frame :: outer => plug frame.key (frame.scope.extend [] [(key, scope)]) outer

/-- The keys of the open scopes below the outermost one. -/
def path (key : String) : List Frame → List String
  | [] => []
  | frame :: outer => path frame.key outer ++ [key]

/-- Every open scope has a key that is new in the scope around it. -/
def Fresh (key : String) : List Frame → Prop
  | [] => True
  | frame :: outer => key ∉ OrderedMap.keys frame.scope.children ∧ Fresh frame.key outer

end Frame

namespace Scope

theorem at?_append (front path : List String) (scope : Scope) :
    scope.at? (front ++ path) = (scope.at? front).bind fun inner => inner.at? path := by
  induction front generalizing scope with
  | nil => simp [at?]
  | cons key front ih => cases h : scope.child? key <;> simp [at?, h, ih]

theorem updateAt_append (change : Scope → Scope) (front path : List String) :
    updateAt change (front ++ path) = updateAt (updateAt change path) front := by
  funext scope
  induction front generalizing scope with
  | nil => simp [updateAt]
  | cons key front ih =>
    obtain ⟨kind, names, children⟩ := scope
    simp only [List.cons_append, updateAt]
    rw [show updateAt change (front ++ path) = updateAt (updateAt change path) front from
      funext ih]

theorem adjust_append_of_not_mem {key : String} (change : Scope → Scope)
    {children : List (String × Scope)} (h : key ∉ OrderedMap.keys children) (scope : Scope) :
    adjust key change (children ++ [(key, scope)]) = children ++ [(key, change scope)] := by
  induction children with
  | nil => simp [adjust]
  | cons entry rest ih =>
    obtain ⟨hk, hrest⟩ : key ≠ entry.1 ∧ key ∉ OrderedMap.keys rest := by
      simpa [OrderedMap.keys] using h
    simp [adjust, Ne.symm hk, ih hrest]

theorem openChild_of_not_mem {key : String} {scope : Scope}
    (h : key ∉ OrderedMap.keys scope.children) (kind : ScopeKind) :
    scope.openChild key kind = scope.extend [] [(key, .empty kind)] := by
  obtain ⟨around, names, children⟩ := scope
  have hnone : OrderedMap.get? key children = none := OrderedMap.get?_eq_none_iff.2 h
  have hinsert (value : Scope) : OrderedMap.insert key value children =
    children ++ [(key, value)] := OrderedMap.insert_of_not_mem value h
  simp [openChild, extend, empty, retag, hnone, hinsert]

variable {key : String} {outer : List Frame}

/-- The path of the open scopes leads to the innermost one. -/
theorem at?_plug (fresh : Frame.Fresh key outer) (scope : Scope) :
    (Frame.plug key scope outer).at? (Frame.path key outer) = some scope := by
  induction outer generalizing key scope with
  | nil => rfl
  | cons frame outer ih =>
    rw [Frame.plug, Frame.path, at?_append, ih fresh.2]
    simp [at?, child?, OrderedMap.get?_append_of_not_mem _ fresh.1, OrderedMap.get?]

/-- A change at the end of the path of the open scopes changes the innermost one. -/
theorem updateAt_plug (fresh : Frame.Fresh key outer) (change : Scope → Scope) (scope : Scope) :
    updateAt change (Frame.path key outer) (Frame.plug key scope outer) =
      Frame.plug key (change scope) outer := by
  induction outer generalizing key scope change with
  | nil => rfl
  | cons frame outer ih =>
    obtain ⟨around, kind, names, children⟩ := frame
    have hnew : key ∉ OrderedMap.keys children := fresh.1
    rw [Frame.plug, Frame.path, updateAt_append, ih fresh.2, Frame.plug]
    change Frame.plug around (.mk kind (names ++ []) (adjust key change
      (children ++ [(key, scope)]))) outer = _
    rw [adjust_append_of_not_mem change hnew, extend]

/-- The names on the way to the innermost open scope are those of the open scopes. -/
theorem exists_front_plug (fresh : Frame.Fresh key outer) (scope : Scope) (name : String) :
    (∃ front, front <+: Frame.path key outer ∧ ∃ inner,
        (Frame.plug key scope outer).at? front = some inner ∧ name ∈ inner.names) ↔
      name ∈ scope.names ∨ ∃ frame ∈ outer, name ∈ frame.scope.names := by
  induction outer generalizing key scope with
  | nil => simp [Frame.path, Frame.plug, at?]
  | cons frame outer ih =>
    have hself := at?_plug fresh scope
    have hrest := ih fresh.2 (frame.scope.extend [] [(key, scope)])
    simp only [Frame.path, List.prefix_concat_iff, Frame.plug] at hself hrest ⊢
    simp only [or_and_right, exists_or, exists_eq_left, hself, hrest]
    simp

end Scope

/-! ## Operations -/

namespace Snapshot

/-- The snapshot of open scopes. All else is as in `base`. -/
def opened (base : Snapshot) (key : String) (scope : Scope) (outer : List Frame) : Snapshot :=
  { base with
    global := Frame.plug key scope outer
    stack := Scope.globalKey :: Frame.path key outer }

variable {base : Snapshot} {key : String} {outer : List Frame}

theorem current?_opened (fresh : Frame.Fresh key outer) (scope : Scope) :
    (opened base key scope outer).current? = some scope := by
  simp [current?, scope?, opened, Scope.at?_plug fresh]

theorem updateCurrent_opened (fresh : Frame.Fresh key outer) (change : Scope → Scope)
    (scope : Scope) : (opened base key scope outer).updateCurrent change =
      opened base key (change scope) outer := by
  simp [updateCurrent, opened, Scope.updateAt_plug fresh]

end Snapshot

namespace Scopes

variable {base committed : Snapshot} {key : String} {scope : Scope} {outer : List Frame}

/-- A block whose key is new puts an empty scope in front. -/
theorem enter_opened {id : String} (fresh : Frame.Fresh key outer)
    (hid : Scope.key id ∉ OrderedMap.keys scope.children) (kind : ScopeKind) :
    enter id kind ⟨base.opened key scope outer, committed⟩ =
      ⟨Snapshot.opened { base with declaredMain := base.declaredMain || decide (kind = .main) }
        (Scope.key id) (.empty kind) (⟨key, scope⟩ :: outer), committed⟩ := by
  let noted : Snapshot := { base with declaredMain := base.declaredMain || decide (kind = .main) }
  have hcurrent : (noted.opened key scope outer).current? = some scope :=
    Snapshot.current?_opened fresh scope
  rw [enter]
  split
  · next hnone => exact absurd (hcurrent.symm.trans hnone) (Option.some_ne_none scope)
  · change Scopes.mk { (noted.opened key scope outer).updateCurrent _ with stack := _ } _ = _
    simp only [Snapshot.updateCurrent_opened fresh, Scope.openChild_of_not_mem hid]
    rfl

/-- A name is declared in the innermost scope. -/
theorem declare_opened (fresh : Frame.Fresh key outer) (name : String) :
    declare name ⟨base.opened key scope outer, committed⟩ =
      ⟨base.opened key (scope.extend (Scope.declarable [name]) []) outer, committed⟩ := by
  by_cases h : Block.selectsNothing name
  · have hdeclare : (name.isEmpty || decide (name = unresolved)) = true := h
    simp [declare, Scope.declarable, h, hdeclare]
  · have hdeclare : (name.isEmpty || decide (name = unresolved)) = false :=
      Bool.eq_false_iff.2 h
    have hscope : scope.declare name = scope.extend [name] [] := by
      obtain ⟨kind, names, children⟩ := scope
      simp [Scope.declare, Scope.extend]
    simp only [declare, hdeclare, Snapshot.updateCurrent_opened fresh, hscope]
    simp [Scope.declarable, h]

theorem declareAll_opened (fresh : Frame.Fresh key outer) : ∀ (names : List String) (scope),
    declareAll names ⟨base.opened key scope outer, committed⟩ =
      ⟨base.opened key (scope.extend (Scope.declarable names) []) outer, committed⟩
  | [], scope => by simp [declareAll, Scope.declarable]
  | name :: names, scope => by
    have hstep := declareAll_opened fresh names (scope.extend (Scope.declarable [name]) [])
    have hfold (scopes) : declareAll (name :: names) scopes =
      declareAll names (declare name scopes) := rfl
    rw [hfold, declare_opened fresh, hstep, Scope.extend_extend]
    simp [Scope.declarable, ← List.filter_append]

theorem leave_opened (around : String) (before : Scope) :
    leave ⟨base.opened key scope (⟨around, before⟩ :: outer), committed⟩ =
      ⟨base.opened around (before.extend [] [(key, scope)]) outer, committed⟩ := by
  have hpath : (Scope.globalKey :: (Frame.path around outer ++ [key])).dropLast =
      Scope.globalKey :: Frame.path around outer := by
    rw [← List.cons_append, List.dropLast_concat]
  simp [leave, Snapshot.opened, Frame.plug, Frame.path, hpath]

theorem isVisible_opened (fresh : Frame.Fresh key outer) (name : String) :
    isVisible ⟨base.opened key scope outer, committed⟩ name ↔
      name ≠ unresolved ∧ (name ∈ scope.names ∨ ∃ frame ∈ outer, name ∈ frame.scope.names) := by
  by_cases hname : name = unresolved
  · simp [isVisible, hname]
  · simp [isVisible, hname, Snapshot.opened, Scope.mem_namesAlong hname,
      Scope.exists_front_plug fresh]

end Scopes

end PiBlocks
