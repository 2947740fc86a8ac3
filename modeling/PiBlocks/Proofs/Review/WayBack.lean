import PiBlocks.Proofs.Walk.Lexical
import Mathlib.Data.List.Nodup

/-!
# The way back from a reference

The check finds the scopes of a reference on the way back from the block that holds it, and the
way back passes the blocks in front as well as the owners. Only branches in front of a branch are
passed over (`Step.passes`). So the path that the check looks up (`map_key_referenceAncestry`)
has keys of scopes in it that are not around the reference.

Along that path the scopes of a tree are found as long as it passes owners only. Past a block in
front it leads nowhere, since what comes behind a block is not in its scope (`LeadsTo`). So the
names found are those of the owners outside of the outermost block in front that opens a scope,
and those of that block (`Step.consulted`).
-/

namespace PiBlocks

open Block

/-! ## The way back -/

namespace Step

/-- Whether a step back leads to a scope that the ancestry notes. Branches in front of a branch
are passed over. -/
def passes : Step → Bool
  | .previous block => block.kind.opensScope && !block.kind.isBranch
  | .owner block => block.kind.opensScope

/-- Whether the trail passes no scope but those of owners. -/
def straight : List Step → Bool
  | [] => true
  | .previous block :: trail => !passes (.previous block) && straight trail
  | .owner _ :: trail => straight trail

/-- The blocks on a trail whose names the check finds : those passed, as long as there are only
owners further outside. -/
def consulted : List Step → List Block
  | [] => []
  | step :: trail =>
    if step.passes && straight trail then step.block :: consulted trail else consulted trail

/-- The keys of the scopes that a trail passes, the outermost first. -/
def path : List Step → List String
  | [] => []
  | step :: trail => if step.passes then path trail ++ [Scope.key step.block.id] else path trail

end Step

/-- The blocks of a chain are all no branches, or all branches of one kind. -/
def Block.Uniform (chain : List Block) : Prop :=
  (∀ block ∈ chain, block.kind.isBranch = false) ∨
    ∃ kind : Kind, kind.isBranch = true ∧ ∀ block ∈ chain, block.kind = kind

section

variable {root chain rest : List Block} {trail : List Step} {holder block : Block} {site : Site}

/-- In a chain inside are branches of one kind, if the block is a fork, or statements. -/
theorem kinds_of_body (placed : block.wellPlaced = true) :
    (∀ inner ∈ block.body, inner.kind.isStatement = true) ∨ block.kind.isBranch = false ∧
      ∃ kind : Kind, kind.isBranch = true ∧ ∀ inner ∈ block.body, inner.kind = kind := by
  cases hfork : block.kind.isFork with
  | false => exact .inl fun inner => isStatement_of_mem_body placed hfork
  | true =>
    exact .inr ⟨Kind.not_isBranch_of_isFork hfork, _, Kind.isBranch_branch _,
      fun inner => kind_of_mem_fork placed hfork⟩

theorem Reached.uniform
    (hroot : ∀ block ∈ root, block.wellPlaced = true ∧ block.kind.opensGate = true)
    (h : Reached root trail chain) : Uniform chain := by
  induction h with
  | root =>
    refine .inl fun block hb => ?_
    have hgate := (hroot block hb).2
    revert hgate
    cases block.kind <;> simp [Kind.opensGate, Kind.isBranch]
  | previous _ ih =>
    exact ih.imp (fun h block hb => h block (List.mem_cons_of_mem _ hb))
      fun ⟨kind, hkind, h⟩ => ⟨kind, hkind, fun block hb => h block (List.mem_cons_of_mem _ hb)⟩
  | owner reached _ =>
    have placed := reached.placed (fun block hb => (hroot block hb).1) _ List.mem_cons_self
    exact (kinds_of_body placed).imp
      (fun h inner hinner => Kind.not_isBranch_of_isStatement (h inner hinner)) fun h => h.2

/-- What the walk back has visited last, if it comes to a chain. -/
def Arrives (last : Option Kind) (chain : List Block) : Prop :=
  (∀ block ∈ chain, block.kind.isBranch = true → last = some block.kind) ∧
    ((∀ block ∈ chain, block.kind.isBranch = false) → ∀ kind ∈ last, kind.isBranch = false)

theorem arrives_of_uniform (h : Uniform (block :: rest)) :
    Arrives (some block.kind) (block :: rest) := by
  refine ⟨fun other hother hbranch => ?_, fun hkinds kind hkind => ?_⟩
  · rcases h with h | ⟨kind, -, h⟩
    · rw [h other hother] at hbranch
      cases hbranch
    · rw [h block List.mem_cons_self, h other hother]
  · cases hkind
    exact hkinds block List.mem_cons_self

theorem continuesRun_of_not_isBranch {kind : Kind} (h : kind.isBranch = false)
    (last : Option Kind) : Ancestry.continuesRun last kind = false := by
  cases kind <;> first | rfl | cases h

theorem continuesRun_self {kind : Kind} (h : kind.isBranch = true) :
    Ancestry.continuesRun (some kind) kind = true := by
  cases kind <;> first | rfl | cases h

theorem continuesRun_of_last {last : Option Kind} (h : ∀ kind ∈ last, kind.isBranch = false)
    (kind : Kind) : Ancestry.continuesRun last kind = false := by
  cases last with
  | none => simp [Ancestry.continuesRun]
  | some other =>
    have hother := h other rfl
    cases kind <;> cases other <;> first | rfl | cases hother

/-- The keys of the scopes along a way back, the outermost first. -/
def keysAlong (last : Option Kind) (wayBack : List Block) : List String :=
  (Ancestry.alongTrail last wayBack).reverse.map Scope.key

theorem keysAlong_cons (step : Step) {last : Option Kind}
    (h : (step.block.kind.opensScope && !Ancestry.continuesRun last step.block.kind) = step.passes)
    (wayBack : List Block) : keysAlong last (step.block :: wayBack) =
      if step.passes then keysAlong (some step.block.kind) wayBack ++ [Scope.key step.block.id]
      else keysAlong (some step.block.kind) wayBack := by
  rw [keysAlong, Ancestry.alongTrail, h]
  split_ifs <;> simp [keysAlong]

/-- From a chain that is reached, the way back passes the scopes on the path of the trail. -/
theorem keysAlong_of_reached
    (hroot : ∀ block ∈ root, block.wellPlaced = true ∧ block.kind.opensGate = true)
    (h : Reached root trail chain) : chain ≠ [] → ∀ {last : Option Kind}, Arrives last chain →
      keysAlong last (trail.map Step.block) = Step.path trail := by
  induction h with
  | root => intro _ last _; rfl
  | @previous trail block rest reached ih =>
    intro hrest last harrives
    have huniform := reached.uniform hroot
    have hpasses : (block.kind.opensScope && !Ancestry.continuesRun last block.kind) =
        (Step.previous block).passes := by
      rcases huniform with hkinds | ⟨kind, hbranch, hkinds⟩
      · have hblock := hkinds block List.mem_cons_self
        rw [continuesRun_of_not_isBranch hblock, Step.passes, hblock]
      · obtain ⟨inner, hinner⟩ := List.exists_mem_of_ne_nil rest hrest
        have hlast := harrives.1 inner hinner
        rw [hkinds inner (List.mem_cons_of_mem _ hinner)] at hlast
        rw [Step.passes, hkinds block List.mem_cons_self, hlast hbranch, continuesRun_self hbranch,
          hbranch]
    have hrest := ih (List.cons_ne_nil _ _) (arrives_of_uniform huniform)
    rw [List.map_cons, keysAlong_cons (.previous block) hpasses, Step.path, ← hrest]
    rfl
  | @owner trail block rest reached ih =>
    intro hbody last harrives
    have placed := reached.placed (fun block hb => (hroot block hb).1) _ List.mem_cons_self
    have hpasses : (block.kind.opensScope && !Ancestry.continuesRun last block.kind) =
        (Step.owner block).passes := by
      rcases kinds_of_body placed with hkinds | ⟨hblock, -⟩
      · rw [continuesRun_of_last (harrives.2 fun inner hinner =>
          Kind.not_isBranch_of_isStatement (hkinds inner hinner)), Step.passes, Bool.not_false,
          Bool.and_true]
      · rw [continuesRun_of_not_isBranch hblock, Step.passes, Bool.not_false, Bool.and_true]
    have hrest := ih (List.cons_ne_nil _ _) (arrives_of_uniform (reached.uniform hroot))
    rw [List.map_cons, keysAlong_cons (.owner block) hpasses, Step.path, ← hrest]
    rfl

/-- Blocks without scope are passed over. -/
theorem keysAlong_append {blocks : List Block}
    (hblocks : ∀ block ∈ blocks, block.kind.opensScope = false)
    (hholder : holder.kind.opensScope = false) (last : Option Kind) (wayBack : List Block) :
    keysAlong last (blocks ++ holder :: wayBack) = keysAlong (some holder.kind) wayBack := by
  induction blocks generalizing last with
  | nil => simp [keysAlong, Ancestry.alongTrail, hholder]
  | cons block blocks ih =>
    have hrest := ih (fun other hother => hblocks other (List.mem_cons_of_mem _ hother))
      (some block.kind)
    rw [← hrest]
    simp [keysAlong, Ancestry.alongTrail, hblocks block List.mem_cons_self]

theorem keysAlong_of_holder
    (hroot : ∀ block ∈ root, block.wellPlaced = true ∧ block.kind.opensGate = true)
    (h : Reached root trail (holder :: rest)) (hholder : holder.kind.isBranch = false)
    {last : Option Kind} (hlast : ∀ kind ∈ last, kind.isBranch = false) :
    keysAlong last (trail.map Step.block) = Step.path trail := by
  refine keysAlong_of_reached hroot h (List.cons_ne_nil _ _)
    ⟨fun block hb hbranch => ?_, fun _ => hlast⟩
  rcases h.uniform hroot with hkinds | ⟨kind, hkind, hkinds⟩
  · rw [hkinds block hb] at hbranch
    cases hbranch
  · rw [hkinds holder List.mem_cons_self, hkind] at hholder
    cases hholder

theorem map_key_ofBlock (block : Block) (wayBack : List Block) :
    (Ancestry.ofBlock block wayBack).map Scope.key =
      keysAlong none (if block.kind.opensScope then wayBack else block :: wayBack) := rfl

theorem not_isBranch_of_not_opensScope {kind : Kind} (h : kind.opensScope = false) :
    kind.isBranch = false := by
  cases kind <;> first | rfl | cases h

/-- Blocks without scope do not count on a trail. -/
theorem Step.consulted_previous_append {blocks : List Block}
    (hblocks : ∀ block ∈ blocks, block.kind.opensScope = false) (trail : List Step) :
    consulted (blocks.map .previous ++ trail) = consulted trail := by
  induction blocks with
  | nil => rfl
  | cons block blocks ih =>
    rw [List.map_cons, List.cons_append, consulted, passes, hblocks block List.mem_cons_self]
    exact ih fun other hother => hblocks other (List.mem_cons_of_mem _ hother)

/-- The path of the scopes in which the check resolves a reference. -/
theorem map_key_referenceAncestry
    (hroot : ∀ block ∈ root, block.wellPlaced = true ∧ block.kind.opensGate = true)
    (h : Reached root trail (holder :: rest)) (held : HeldBy holder trail site) :
    site.referenceAncestry.map Scope.key = Step.path trail := by
  have hback (hholder : holder.kind.isBranch = false) :
      keysAlong (some holder.kind) (trail.map Step.block) = Step.path trail :=
    keysAlong_of_holder hroot h hholder (by simpa using hholder)
  cases held with
  | value hholder _ _ =>
    rw [Site.referenceAncestry, List.map_cons, map_key_ofBlock]
    split_ifs with hscope
    · exact keysAlong_of_holder hroot h hholder (by simp)
    · have hskip := keysAlong_append (List.forall_mem_nil _) (Bool.eq_false_iff.2 hscope) none
        (trail.map Step.block)
      exact hskip.trans (hback hholder)
  | @item _ _ before after item reference hscope _ hitems _ _ =>
    have hbefore : ∀ block ∈ item :: before.reverse, block.kind.opensScope = false :=
      fun block hb => hitems block (by simp at hb ⊢; tauto)
    have hitem : item.kind.opensScope = false := hbefore item List.mem_cons_self
    have hskip := keysAlong_append hbefore hscope none (trail.map Step.block)
    have htrail : (before.reverse.map Step.previous ++ .owner holder :: trail).map Step.block =
        before.reverse ++ holder :: trail.map Step.block := by
      simp [Step.block, Function.comp_def]
    rw [Site.referenceAncestry, List.map_cons, map_key_ofBlock, htrail]
    simp only [Step.block, hitem, Bool.false_eq_true, if_false]
    exact hskip.trans (hback (not_isBranch_of_not_opensScope hscope))

end

/-! ## Lookups along the way back -/

namespace Block

variable {chain : List Block} {block : Block}

/-- The scope of a block with everything in it. -/
def ownScope? (block : Block) : Option Scope :=
  block.scope?.map fun kind => .mk kind block.binds (scopesIn block.body)

theorem get?_scopesIn_of_not_mem {key : String} (h : key ∉ keysOf chain) :
    OrderedMap.get? key (scopesIn chain) = none :=
  OrderedMap.get?_eq_none_iff.2 fun hmem => h ((keys_scopesIn_sublist chain).subset hmem)

theorem get?_scopesOf (block : Block) (rest : List (String × Scope)) :
    OrderedMap.get? (Scope.key block.id) (scopesOf block ++ rest) =
      block.ownScope?.or (OrderedMap.get? (Scope.key block.id) rest) := by
  cases h : block.scope? with
  | none => simp [scopesOf_of_none h, ownScope?, h]
  | some kind => simp [scopesOf_of_some h, ownScope?, h, OrderedMap.get?]

/-- Under the key of a block of a chain is the scope of the block. -/
theorem get?_scopesIn : ∀ {chain : List Block}, (keysOf chain).Nodup → ∀ block ∈ chain,
    OrderedMap.get? (Scope.key block.id) (scopesIn chain) = block.ownScope?
  | first :: rest, hnodup, block, hblock => by
    rw [keysOf_cons] at hnodup
    obtain ⟨-, hrest, hdisjoint⟩ := List.nodup_append.1 hnodup
    rcases List.mem_cons.1 hblock with rfl | hblock
    · have hnone : OrderedMap.get? (Scope.key block.id) (scopesIn rest) = none :=
        get?_scopesIn_of_not_mem fun hmem => hdisjoint _ List.mem_cons_self _ hmem rfl
      rw [scopesIn, get?_scopesOf, hnone, Option.or_none]
    · have hnot : Scope.key block.id ∉ OrderedMap.keys (scopesOf first) := fun hmem =>
        hdisjoint _ ((keys_scopesOf_sublist first).subset hmem) _ (key_mem_keysOf hblock) rfl
      rw [scopesIn, OrderedMap.get?_append_of_not_mem _ hnot, get?_scopesIn hrest block hblock]

theorem binds_of_scope?_eq_none (h : block.scope? = none) : block.binds = [] := by
  obtain ⟨id, kind, fields, slots⟩ := block
  cases kind <;> simp only [scope?, Kind.scope?, kind_mk] at h <;> (try split_ifs at h) <;>
    simp_all [binds, Scope.declarable]

end Block

/-- A name stands in a scope on the way along a path. -/
def Scope.Finds (scope : Scope) (path : List String) (name : String) : Prop :=
  ∃ front, front <+: path ∧ ∃ inner, scope.at? front = some inner ∧ name ∈ inner.names

theorem Scope.finds_concat {scope : Scope} {path : List String} {key name : String} :
    scope.Finds (path ++ [key]) name ↔
      (∃ inner, scope.at? (path ++ [key]) = some inner ∧ name ∈ inner.names) ∨
        scope.Finds path name := by
  simp only [Finds, List.prefix_concat_iff, or_and_right, exists_or, exists_eq_left]

theorem Scope.at?_concat (scope : Scope) (path : List String) (key : String) :
    scope.at? (path ++ [key]) = (scope.at? path).bind fun inner => inner.child? key := by
  rw [at?_append]
  congr 1
  funext inner
  cases h : inner.child? key <;> simp [at?, h]

section

variable {root chain : List Block} {trail : List Step} {global : Scope}

theorem Reached.nodup (hroot : (keysOf root).Nodup) (h : Reached root trail chain) :
    (keysOf chain).Nodup := by
  induction h with
  | root => exact hroot
  | previous _ ih =>
    rw [keysOf_cons] at ih
    exact ih.sublist (List.sublist_append_right _ _)
  | @owner _ block _ _ ih =>
    rw [keysOf_cons] at ih
    exact (List.nodup_cons.1 (ih.sublist (List.sublist_append_left _ _))).2.sublist
      block.keysOf_body_sublist

/-- What the path of a trail leads to in the scopes of a tree. Past owners it leads to the scope
of the nearest one ; past a block in front it leads nowhere below. -/
structure LeadsTo (global : Scope) (trail : List Step) (chain : List Block) : Prop where
  inside : Step.straight trail = true → ∃ inner, global.at? (Step.path trail) = some inner ∧
    ∀ block ∈ chain, inner.child? (Scope.key block.id) = block.ownScope?
  beside : Step.straight trail = false → ∀ key ∈ keysOf chain,
    global.at? (Step.path trail ++ [key]) = none
  finds : ∀ name, global.Finds (Step.path trail) name ↔
    name ∈ global.names ∨ ∃ block ∈ Step.consulted trail, name ∈ block.binds

theorem mem_ownScope?_names {block : Block} {name : String} :
    (∃ inner, block.ownScope? = some inner ∧ name ∈ inner.names) ↔ name ∈ block.binds := by
  cases h : block.scope? with
  | none => simp [ownScope?, h, binds_of_scope?_eq_none h]
  | some kind => simp [ownScope?, h]

theorem LeadsTo.at?_key {block : Block} {rest : List Block}
    (h : LeadsTo global trail (block :: rest)) :
    global.at? (Step.path trail ++ [Scope.key block.id]) =
      if Step.straight trail then block.ownScope? else none := by
  split_ifs with hstraight
  · obtain ⟨inner, hinner, hchild⟩ := h.inside hstraight
    rw [Scope.at?_concat, hinner, Option.bind_some, hchild block List.mem_cons_self]
  · refine h.beside (Bool.eq_false_iff.2 hstraight) _ ?_
    exact key_mem_keysOf List.mem_cons_self

/-- Once the scope of the next block is looked for as well, the names it binds are found if only
owners lie further outside. -/
theorem LeadsTo.finds_key {block : Block} {rest : List Block}
    (h : LeadsTo global trail (block :: rest)) (name : String) :
    global.Finds (Step.path trail ++ [Scope.key block.id]) name ↔
      name ∈ global.names ∨ ∃ other ∈ (if Step.straight trail then block :: Step.consulted trail
        else Step.consulted trail), name ∈ other.binds := by
  rw [Scope.finds_concat, h.at?_key, h.finds]
  split_ifs with hstraight
  · simp [mem_ownScope?_names, or_left_comm]
  · simp

/-- Nothing that comes behind a block lies in its scope. -/
theorem LeadsTo.at?_beside {block : Block} {rest : List Block}
    (hnodup : (keysOf (block :: rest)).Nodup) (h : LeadsTo global trail (block :: rest))
    {key : String} (hkey : key ∈ keysOf rest) :
    global.at? (Step.path trail ++ [Scope.key block.id] ++ [key]) = none := by
  rw [keysOf_cons] at hnodup
  have hnot : key ∉ keysOf block.body := fun hmem => (List.nodup_append.1 hnodup).2.2 _
    (List.mem_cons_of_mem _ (block.keysOf_body_sublist.subset hmem)) _ hkey rfl
  rw [Scope.at?_concat, h.at?_key]
  split_ifs
  · cases hscope : block.scope? with
    | none => simp [ownScope?, hscope]
    | some kind => simp [ownScope?, hscope, Scope.child?, get?_scopesIn_of_not_mem hnot]
  · rfl

/-- A step to a block in front that opens a scope ends the search. -/
theorem LeadsTo.previous {block : Block} {rest : List Block}
    (hnodup : (keysOf (block :: rest)).Nodup) (h : LeadsTo global trail (block :: rest)) :
    LeadsTo global (.previous block :: trail) rest := by
  cases hpasses : (Step.previous block).passes with
  | false =>
    have hpath : Step.path (.previous block :: trail) = Step.path trail := by
      simp [Step.path, hpasses]
    refine ⟨fun hstraight => ?_, fun hstraight key hkey => ?_, fun name => ?_⟩
    · obtain ⟨inner, hinner, hchild⟩ := h.inside (by simpa [Step.straight, hpasses] using hstraight)
      exact ⟨inner, hpath ▸ hinner,
        fun other hother => hchild other (List.mem_cons_of_mem _ hother)⟩
    · rw [hpath]
      refine h.beside (by simpa [Step.straight, hpasses] using hstraight) key ?_
      rw [keysOf_cons]
      exact List.mem_append_right _ hkey
    · rw [hpath, h.finds]
      simp [Step.consulted, hpasses]
  | true =>
    have hpath : Step.path (.previous block :: trail) =
        Step.path trail ++ [Scope.key block.id] := by
      simp [Step.path, hpasses, Step.block]
    refine ⟨fun hstraight => ?_, fun _ key hkey => hpath ▸ h.at?_beside hnodup hkey, fun name => ?_⟩
    · simp [Step.straight, hpasses] at hstraight
    · rw [hpath, h.finds_key]
      simp [Step.consulted, hpasses, Step.block]

/-- A step into the chain inside of a block goes on with the search. -/
theorem LeadsTo.owner {block : Block} {rest : List Block}
    (hnodup : (keysOf (block :: rest)).Nodup) (h : LeadsTo global trail (block :: rest))
    (hbody : block.body ≠ []) : LeadsTo global (.owner block :: trail) block.body := by
  have hpasses : (Step.owner block).passes = true := by
    rw [Step.passes, ← Bool.not_eq_false]
    refine fun hkind => hbody ?_
    simp [body, Kind.bodySlot_eq_none hkind]
  have hpath : Step.path (.owner block :: trail) = Step.path trail ++ [Scope.key block.id] := by
    simp [Step.path, hpasses, Step.block]
  rw [keysOf_cons] at hnodup
  have hinside : (keysOf block.body).Nodup :=
    (List.nodup_cons.1 (List.nodup_append.1 hnodup).1).2.sublist block.keysOf_body_sublist
  refine ⟨fun hstraight => ?_, fun hstraight key hkey => ?_, fun name => ?_⟩
  · have hat := h.at?_key
    rw [if_pos (show Step.straight trail = true from hstraight)] at hat
    cases hscope : block.scope? with
    | none => exact absurd (body_of_scope?_eq_none hscope) hbody
    | some kind =>
      rw [hpath, hat, ownScope?, hscope]
      exact ⟨_, rfl, get?_scopesIn hinside⟩
  · have hat := h.at?_key
    rw [if_neg (Bool.eq_false_iff.1 (show Step.straight trail = false from hstraight))] at hat
    rw [hpath, Scope.at?_concat, hat, Option.bind_none]
  · rw [hpath, h.finds_key]
    simp [Step.consulted, hpasses, Step.block]

theorem Reached.leadsTo (hroot : (keysOf root).Nodup)
    (hglobal : ∀ block ∈ root, global.child? (Scope.key block.id) = block.ownScope?)
    (h : Reached root trail chain) : chain ≠ [] → LeadsTo global trail chain := by
  induction h with
  | root =>
    intro _
    refine ⟨fun _ => ⟨global, rfl, hglobal⟩, fun h => (Bool.true_eq_false.mp h).elim,
      fun name => ?_⟩
    simp [Scope.Finds, Step.path, Step.consulted, Scope.at?]
  | previous reached ih => exact fun _ => (ih (List.cons_ne_nil _ _)).previous (reached.nodup hroot)
  | owner reached ih => exact (ih (List.cons_ne_nil _ _)).owner (reached.nodup hroot)

theorem HeldBy.consulted {holder : Block} {site : Site} (held : HeldBy holder trail site) :
    Step.consulted site.trail.tail = Step.consulted trail := by
  cases held with
  | value _ _ _ => rfl
  | item hholder _ hitems _ _ =>
    have hbefore := fun block hb => hitems block (List.mem_append_left _ (List.mem_reverse.1 hb))
    rw [List.tail_cons, Step.consulted_previous_append hbefore, Step.consulted, Step.passes,
      hholder]
    rfl

end

/-! ## Scopes of the top level -/

namespace Root

theorem keys_flatMap_scopes_sublist : ∀ roots : List Root,
    (OrderedMap.keys (roots.flatMap scopes)).Sublist (roots.flatMap fun root => keysOf root.chain)
  | [] => by simp [OrderedMap.keys]
  | root :: roots => by
    rw [List.flatMap_cons, List.flatMap_cons, OrderedMap.keys, List.map_append]
    exact root.keys_scopes_sublist.append (keys_flatMap_scopes_sublist roots)

theorem get?_flatMap_scopes : ∀ {roots : List Root},
    (roots.flatMap fun root => keysOf root.chain).Nodup → ∀ root ∈ roots,
      root.head.kind.opensGate = true →
      OrderedMap.get? (Scope.key root.head.id) (roots.flatMap scopes) = root.head.ownScope?
  | first :: roots, hnodup, root, hroot, hgate => by
    rw [List.flatMap_cons] at hnodup
    obtain ⟨-, hrest, hdisjoint⟩ := List.nodup_append.1 hnodup
    have hhead (other : Root) : Scope.key other.head.id ∈ keysOf other.chain :=
      key_mem_keysOf List.mem_cons_self
    rw [List.flatMap_cons]
    rcases List.mem_cons.1 hroot with rfl | hroot
    · have hnone : OrderedMap.get? (Scope.key root.head.id) (roots.flatMap scopes) = none :=
        OrderedMap.get?_eq_none_iff.2 fun hmem =>
          hdisjoint _ (hhead root) _ ((keys_flatMap_scopes_sublist roots).subset hmem) rfl
      rw [scopes, if_pos hgate, get?_scopesOf, hnone, Option.or_none]
    · have hnot : Scope.key root.head.id ∉ OrderedMap.keys first.scopes := fun hmem =>
        hdisjoint _ (first.keys_scopes_sublist.subset hmem) _
          (List.mem_flatMap.2 ⟨root, hroot, hhead root⟩) rfl
      rw [OrderedMap.get?_append_of_not_mem _ hnot, get?_flatMap_scopes hrest root hroot hgate]

end Root

end PiBlocks
