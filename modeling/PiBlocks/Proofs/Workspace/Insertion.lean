import PiBlocks.Proofs.Workspace.Numbering
import PiBlocks.Workspace.Arena

/-!
# Filling an arena

What insertions come to is told without a run of them (`Arena.Outcome`) : the first id that comes
a second time, or else an arena with more nodes, whose links are the numbers of the blocks they
lead to (`Block.nodesOf`). The outcomes of two steps make that of both (`Outcome.bind`), so a
write into a node that is there already and the nodes that are added in between can be looked at
one by one.
-/

namespace PiBlocks

open Arena

/-! ## Ids that come a second time -/

theorem firstRepeated_congr : ∀ (ids : List String) {seen other : List String},
    (∀ id, id ∈ seen ↔ id ∈ other) → firstRepeated seen ids = firstRepeated other ids
  | [], _, _, _ => rfl
  | id :: ids, seen, other, h => by
    have hrest : firstRepeated (id :: seen) ids = firstRepeated (id :: other) ids :=
      firstRepeated_congr ids fun name => by rw [List.mem_cons, List.mem_cons, h name]
    simp only [firstRepeated, List.contains_iff_mem, h id, hrest]

theorem firstRepeated_append : ∀ (ids more seen : List String),
    firstRepeated seen (ids ++ more) =
      (firstRepeated seen ids).or (firstRepeated (seen ++ ids) more)
  | [], more, seen => by rw [List.append_nil]; rfl
  | id :: ids, more, seen => by
    rw [List.cons_append, firstRepeated, firstRepeated]
    split
    · rfl
    · rw [firstRepeated_append ids more (id :: seen)]
      congr 1
      exact firstRepeated_congr more fun name => by simp [or_left_comm]

/-- Ids have numbers that count on from a given one. -/
def Numbers (number : String → Nat) (index : Nat) (ids : List String) : Prop :=
  ids.map number = List.range' index ids.length

section

variable {number : String → Nat} {index : Nat}

theorem numbers_cons {id : String} {ids : List String} :
    Numbers number index (id :: ids) ↔ number id = index ∧ Numbers number (index + 1) ids := by
  simp [Numbers, List.range'_succ]

theorem numbers_append : ∀ {ids more : List String} {index : Nat},
    Numbers number index (ids ++ more) ↔
      Numbers number index ids ∧ Numbers number (index + ids.length) more
  | [], more, index => by simp [Numbers]
  | id :: ids, more, index => by
    rw [List.cons_append, numbers_cons, numbers_cons, numbers_append, List.length_cons,
      Nat.add_right_comm, and_assoc]
    rfl

end

/-! ## Writes into a list -/

section

variable {α : Type} (change : α → α)

theorem modify_append_of_lt : ∀ {entries : List α} (more : List α) {place : Nat},
    place < entries.length →
      (entries ++ more).modify place change = entries.modify place change ++ more
  | _ :: _, _, 0, _ => rfl
  | _ :: _, more, _ + 1, h => by
    simp [List.modify_succ_cons, modify_append_of_lt more (Nat.lt_of_succ_lt_succ h)]

theorem modify_length_append : ∀ (entries : List α) (entry : α) (more : List α),
    (entries ++ entry :: more).modify entries.length change = entries ++ change entry :: more
  | [], _, _ => rfl
  | _ :: entries, entry, more => by
    simp [List.modify_succ_cons, modify_length_append entries entry more]

end

/-! ## Nodes -/

/-- Where a chain of the top level comes in reading order. -/
def SavedBlock.key (block : SavedBlock) : Float :=
  let (x, y) := block.place.getD (0.0, 0.0)
  y + rowSlant * x

namespace Block

/-- The heads of the chains in slots, by the numbers of their ids. -/
def headsOf (number : String → Nat) (slots : List (String × List Block)) : OrderedMap Nat :=
  slots.filterMap fun slot => slot.2.head?.map fun head => (slot.1, number head.id)

mutual

/-- The nodes of everything that hangs off a block. -/
def nodesBelow (number : String → Nat) : Block → List Node
  | .mk id _ _ slots => nodesInSlots number (some (number id)) slots

/-- The nodes of the chains in slots of an owner. -/
def nodesInSlots (number : String → Nat) (owner : Option Nat) :
    List (String × List Block) → List Node
  | [] => []
  | (_, chain) :: slots => nodesOf number owner none chain ++ nodesInSlots number owner slots

/-- The nodes of a chain behind a node, their links being the numbers of ids. -/
def nodesOf (number : String → Nat) (owner previous : Option Nat) : List Block → List Node
  | [] => []
  | block :: rest =>
    { id := block.id
      kind := block.kind
      fields := block.fields
      slots := headsOf number block.slots
      owner := owner
      previous := previous
      next := rest.head?.map fun next => number next.id } ::
      (nodesBelow number block ++ nodesOf number owner (some (number block.id)) rest)

end

end Block

namespace Arena.Node

/-- The node with a link to the next one, if there is one. -/
def withNext (next : Option Nat) (node : Node) : Node := { node with next := next.or node.next }

/-- The node with more slots. -/
def withSlots (slots : OrderedMap Nat) (node : Node) : Node :=
  { node with
    slots := slots.foldl (fun map entry => OrderedMap.insert entry.1 entry.2 map) node.slots }

end Arena.Node

namespace Block

variable (number : String → Nat) (owner : Option Nat)

/-- Nodes when chains have been added as slots of one of them. -/
def addSlots (node : Nat) (slots : List (String × List Block)) (nodes : List Node) : List Node :=
  nodes.modify node (Node.withSlots (headsOf number slots)) ++
    nodesInSlots number (some node) slots

/-- Nodes when the rest of a chain has been added behind one of them. -/
def addBehind (previous : Nat) (rest : List Block) (nodes : List Node) : List Node :=
  nodes.modify previous (Node.withNext (rest.head?.map fun next => number next.id)) ++
    nodesOf number owner (some previous) rest

/-- The node of a block to which nothing has been linked. -/
def bareNode (previous : Option Nat) (block : Block) : Node where
  id := block.id
  kind := block.kind
  fields := block.fields
  owner := owner
  previous := previous

theorem addSlots_nil (node : Nat) (nodes : List Node) : addSlots number node [] nodes = nodes := by
  have hsame : nodes.modify node (Node.withSlots []) = nodes := List.modify_id node nodes
  simp [addSlots, headsOf, nodesInSlots, hsame]

theorem addSlots_cons {node : Nat} {nodes : List Node} (h : node < nodes.length) (slot : String)
    (head : Block) (rest : List Block) (slots : List (String × List Block)) :
    addSlots number node ((slot, head :: rest) :: slots) nodes =
      addSlots number node slots
        ((nodes ++ nodesOf number (some node) none (head :: rest)).modify node
          (Node.withSlots [(slot, number head.id)])) := by
  have hheads : headsOf number ((slot, head :: rest) :: slots) =
    (slot, number head.id) :: headsOf number slots := rfl
  have hslots : Node.withSlots (headsOf number slots) ∘ Node.withSlots [(slot, number head.id)] =
    Node.withSlots ((slot, number head.id) :: headsOf number slots) := rfl
  rw [addSlots, addSlots, List.modify_modify_eq, modify_append_of_lt _ _ h, hheads, hslots,
    nodesInSlots, List.append_assoc]

theorem addBehind_nil (previous : Nat) (nodes : List Node) :
    addBehind number owner previous [] nodes = nodes := by
  have hsame : nodes.modify previous (Node.withNext none) = nodes := List.modify_id previous nodes
  simp [addBehind, nodesOf, hsame]

theorem keys_headsOf_sublist : ∀ slots : List (String × List Block),
    (OrderedMap.keys (headsOf number slots)).Sublist (OrderedMap.keys slots)
  | [] => .slnil
  | (_, []) :: slots => .cons _ (keys_headsOf_sublist slots)
  | (slot, _ :: _) :: slots => .cons_cons slot (keys_headsOf_sublist slots)

theorem addSlots_concat (nodes : List Node) (node : Node) (slots : List (String × List Block)) :
    addSlots number nodes.length slots (nodes ++ [node]) =
      nodes ++ node.withSlots (headsOf number slots) ::
        nodesInSlots number (some nodes.length) slots := by
  rw [addSlots, modify_length_append, List.append_assoc]
  rfl

theorem modify_addSlots {nodes : List Node} {place : Nat} (h : place < nodes.length)
    (change : Node → Node) (node : Node) (slots : List (String × List Block)) :
    (addSlots number nodes.length slots (nodes ++ [node])).modify place change =
      addSlots number nodes.length slots (nodes.modify place change ++ [node]) := by
  have hchanged := addSlots_concat number (nodes.modify place change) node slots
  rw [List.length_modify] at hchanged
  rw [addSlots_concat, modify_append_of_lt _ _ h, hchanged]

theorem addBehind_append_cons (nodes more : List Node) (node : Node) (rest : List Block) :
    addBehind number owner nodes.length rest (nodes ++ node :: more) =
      nodes ++ node.withNext (rest.head?.map fun next => number next.id) ::
        (more ++ nodesOf number owner (some nodes.length) rest) := by
  rw [addBehind, modify_length_append, List.append_assoc]
  rfl

/-- A block whose slots have been added, and then what is behind it, has all its links. -/
theorem addBehind_addSlots (nodes : List Node) (block : Block) (rest : List Block)
    (previous : Option Nat) (hkeys : (OrderedMap.keys block.slots).Nodup)
    (hnumber : number block.id = nodes.length) :
    addBehind number owner nodes.length rest
        (addSlots number nodes.length block.slots (nodes ++ [bareNode owner previous block])) =
      nodes ++ nodesOf number owner previous (block :: rest) := by
  obtain ⟨id, kind, fields, slots⟩ := block
  have hheads := OrderedMap.foldl_insert_append
    (hkeys.sublist (keys_headsOf_sublist number slots) : (OrderedMap.keys
      (([] : OrderedMap Nat) ++ headsOf number slots)).Nodup)
  have hnode : ((bareNode owner previous (.mk id kind fields slots)).withSlots
      (headsOf number slots)).withNext (rest.head?.map fun next => number next.id) = {
        id := id
        kind := kind
        fields := fields
        slots := headsOf number slots
        owner := owner
        previous := previous
        next := rest.head?.map fun next => number next.id } := by
    simp only [bareNode, Node.withSlots, Node.withNext, hheads]
    simp
  rw [addSlots_concat, addBehind_append_cons, nodesOf, nodesBelow]
  simp only [slots_mk, id_mk] at hnumber ⊢
  rw [hnode, hnumber]
  rfl

/-- The same behind a node, to which the link is written in between. -/
theorem addBehind_modify_addSlots {nodes : List Node} {place : Nat} (h : place < nodes.length)
    (block : Block) (rest : List Block) (hkeys : (OrderedMap.keys block.slots).Nodup)
    (hnumber : number block.id = nodes.length) :
    addBehind number owner nodes.length rest
        ((addSlots number nodes.length block.slots
          (nodes ++ [bareNode owner (some place) block])).modify place
            (Node.withNext (some nodes.length))) =
      addBehind number owner place (block :: rest) nodes := by
  have hlinked : (nodes.modify place (Node.withNext (some nodes.length))).length = nodes.length :=
    List.length_modify ..
  have hbehind := addBehind_addSlots number owner
    (nodes.modify place (Node.withNext (some nodes.length))) block rest (some place) hkeys
    (hnumber.trans hlinked.symm)
  rw [modify_addSlots number h]
  rw [hlinked] at hbehind
  rw [hbehind, addBehind, List.head?_cons, Option.map_some, hnumber]

end Block

namespace Arena

open SavedBlock

/-! ## Outcomes -/

/-- An arena has become one that knows more ids, and places on the canvas. -/
structure Grown (arena : Arena) (ids : List String) (places : List (Nat × Float × Float))
    (nodes : (String → Nat) → List Node) (after : Arena) : Prop where
  size : after.nodes.size = arena.nodes.size + ids.length
  byId : after.byId = arena.byId ++ ids.zipIdx arena.nodes.size
  places : after.places = places ++ arena.places
  /-- its nodes are told by numbers that count the ids on -/
  nodes : ∀ number, Numbers number arena.nodes.size ids → after.nodes.toList = nodes number

/-- What comes of adding blocks with given ids : the first that comes a second time, or else a value
and an arena that has grown. -/
structure Outcome {α : Type} (arena : Arena) (ids : List String)
    (places : List (Nat × Float × Float)) (nodes : (String → Nat) → List Node) (value : α)
    (result : Except String (α × Arena)) : Prop where
  refused : ∀ id, firstRepeated (OrderedMap.keys arena.byId) ids = some id → result = .error id
  added : firstRepeated (OrderedMap.keys arena.byId) ids = none →
    ∃ after, result = .ok (value, after) ∧ Grown arena ids places nodes after

variable {α β : Type} {arena after : Arena} {ids more : List String}
  {places morePlaces : List (Nat × Float × Float)} {nodes nodes' : (String → Nat) → List Node}
  {value : α} {other : β}

theorem Grown.keys (h : Grown arena ids places nodes after) :
    OrderedMap.keys after.byId = OrderedMap.keys arena.byId ++ ids := by
  simp [OrderedMap.keys, h.byId]

theorem Grown.trans {grow : (String → Nat) → List Node → List Node} {last : Arena}
    (h : Grown arena ids places nodes after)
    (hlast : Grown after more morePlaces (fun number => grow number after.nodes.toList) last) :
    Grown arena (ids ++ more) (morePlaces ++ places) (fun number => grow number (nodes number))
      last where
  size := by rw [hlast.size, h.size, List.length_append, Nat.add_assoc]
  byId := by rw [hlast.byId, h.byId, h.size, List.zipIdx_append, List.append_assoc]
  places := by rw [hlast.places, h.places, List.append_assoc]
  nodes number hnumber := by
    obtain ⟨hids, hmore⟩ := numbers_append.1 hnumber
    rw [hlast.nodes number (h.size ▸ hmore), h.nodes number hids]

section

variable {step : Build α} {rest : α → Build β}

/-- One step and then another : both have been made, or the first id that is refused is that of the
first step which refuses one. -/
theorem Outcome.andThen (grow : (String → Nat) → List Node → List Node)
    (h : Outcome arena ids places nodes value (step.run arena))
    (hrest : ∀ after, Grown arena ids places nodes after →
      Outcome after more morePlaces (fun number => grow number after.nodes.toList) other
        ((rest value).run after)) :
    Outcome arena (ids ++ more) (morePlaces ++ places) (fun number => grow number (nodes number))
      other ((step >>= rest).run arena) := by
  rw [StateT.run_bind]
  cases hfirst : firstRepeated (OrderedMap.keys arena.byId) ids with
  | some first =>
    rw [h.refused first hfirst]
    constructor
    · intro id hid
      rw [firstRepeated_append, hfirst, Option.some_or] at hid
      exact congrArg Except.error (Option.some.inj hid)
    · intro hnone
      rw [firstRepeated_append, hfirst] at hnone
      cases hnone
  | none =>
    obtain ⟨after, hrun, hgrown⟩ := h.added hfirst
    obtain ⟨hrefused, hadded⟩ := hrest after hgrown
    rw [hgrown.keys] at hrefused hadded
    rw [hrun]
    constructor
    · intro id hid
      rw [firstRepeated_append, hfirst, Option.none_or] at hid
      exact hrefused id hid
    · intro hnone
      rw [firstRepeated_append, hfirst, Option.none_or] at hnone
      obtain ⟨last, hlast, hmore⟩ := hadded hnone
      exact ⟨last, hlast, hgrown.trans hmore⟩

/-- The same if the first step notes no places. -/
theorem Outcome.bind (grow : (String → Nat) → List Node → List Node)
    (h : Outcome arena ids [] nodes value (step.run arena))
    (hrest : ∀ after, Grown arena ids [] nodes after →
      Outcome after more places (fun number => grow number after.nodes.toList) other
        ((rest value).run after)) :
    Outcome arena (ids ++ more) places (fun number => grow number (nodes number)) other
      ((step >>= rest).run arena) :=
  places.append_nil ▸ h.andThen grow hrest

/-- A step that changes nodes only, and then another. -/
theorem Outcome.of_write {changed : Array Node}
    (hstep : step.run arena = .ok (value, { arena with nodes := changed }))
    (hsize : changed.size = arena.nodes.size)
    (h : Outcome { arena with nodes := changed } ids places nodes other
      ((rest value).run { arena with nodes := changed })) :
    Outcome arena ids places nodes other ((step >>= rest).run arena) := by
  rw [StateT.run_bind, hstep]
  refine ⟨h.refused, fun hnone => ?_⟩
  obtain ⟨after, hrun, hgrown⟩ := h.added hnone
  exact ⟨after, hrun, hsize ▸ hgrown.size, hsize ▸ hgrown.byId, hgrown.places,
    hsize ▸ hgrown.nodes⟩

end

theorem Outcome.map {step : Build α} (give : α → β)
    (h : Outcome arena ids places nodes value (step.run arena)) :
    Outcome arena ids places nodes (give value)
      ((step >>= fun value => pure (give value)).run arena) := by
  rw [StateT.run_bind]
  refine ⟨fun id hid => by rw [h.refused id hid]; rfl, fun hnone => ?_⟩
  obtain ⟨after, hrun, hgrown⟩ := h.added hnone
  exact ⟨after, by rw [hrun]; rfl, hgrown⟩

theorem Outcome.congr {result : Except String (α × Arena)}
    (h : Outcome arena ids places nodes value result)
    (hnodes : ∀ number, Numbers number arena.nodes.size ids → nodes number = nodes' number) :
    Outcome arena ids places nodes' value result where
  refused := h.refused
  added hnone := by
    obtain ⟨after, hrun, hgrown⟩ := h.added hnone
    exact ⟨after, hrun, { hgrown with
      nodes := fun number hnumber => (hgrown.nodes number hnumber).trans (hnodes number hnumber) }⟩

theorem outcome_pure (arena : Arena) (value : α) :
    Outcome arena [] [] (fun _ => arena.nodes.toList) value ((pure value : Build α).run arena) where
  refused _ h := by cases h
  added _ := ⟨arena, rfl, by simp, by simp, rfl, fun _ _ => rfl⟩

theorem run_setNext (arena : Arena) (node next : Nat) : (setNext node next).run arena =
    .ok ((), { arena with nodes := arena.nodes.modify node (Node.withNext (some next)) }) := rfl

theorem run_setSlot (arena : Arena) (node : Nat) (slot : String) (head : Nat) :
    (setSlot node slot head).run arena = .ok ((), { arena with
      nodes := arena.nodes.modify node (Node.withSlots [(slot, head)]) }) := rfl

/-- A node as it is when it is added. -/
def freshNode (saved : SavedBlock) (owner previous : Option Nat) (index : Nat) : Node where
  id := idFrom (saved, index)
  kind := saved.kind
  fields := saved.fields
  owner := owner
  previous := previous

theorem run_addNode (saved : SavedBlock) (owner previous : Option Nat) (arena : Arena) :
    (addNode saved owner previous).run arena =
      let id := idFrom (saved, arena.nodes.size)
      if OrderedMap.contains id arena.byId then .error id
      else .ok (arena.nodes.size, { arena with
        nodes := arena.nodes.push (freshNode saved owner previous arena.nodes.size)
        byId := OrderedMap.insert id arena.nodes.size arena.byId }) := by
  by_cases h : OrderedMap.contains (idFrom (saved, arena.nodes.size)) arena.byId = true
  · rw [if_pos h]
    exact congrFun (if_pos h) arena
  · rw [if_neg h]
    exact congrFun (if_neg h) arena

theorem outcome_addNode (saved : SavedBlock) (owner previous : Option Nat) (arena : Arena) :
    Outcome arena [idFrom (saved, arena.nodes.size)] []
      (fun _ => arena.nodes.toList ++ [freshNode saved owner previous arena.nodes.size])
      arena.nodes.size ((addNode saved owner previous).run arena) := by
  have hknown : OrderedMap.contains (idFrom (saved, arena.nodes.size)) arena.byId = true ↔
      idFrom (saved, arena.nodes.size) ∈ OrderedMap.keys arena.byId := by
    rw [OrderedMap.contains, Option.isSome_iff_ne_none, ne_eq, OrderedMap.get?_eq_none_iff, not_not]
  rw [run_addNode]
  by_cases h : idFrom (saved, arena.nodes.size) ∈ OrderedMap.keys arena.byId
  · rw [if_pos (hknown.2 h)]
    constructor
    · intro id hid
      simp only [firstRepeated, List.contains_iff_mem, h, if_true] at hid
      exact congrArg Except.error (Option.some.inj hid)
    · intro hnone
      simp [firstRepeated, h] at hnone
  · rw [if_neg (mt hknown.1 h)]
    constructor
    · intro id hid
      simp [firstRepeated, h] at hid
    · intro _
      exact ⟨_, rfl, by simp, by simp [OrderedMap.insert_of_not_mem _ h], rfl, by simp⟩

/-! ## Insertions -/

section Steps

variable (owner : Option Nat) (node previous : Nat) (slot : String)
  (inputs : List (String × Link SavedBlock))

/-- Adds a saved block and what hangs at its inputs. -/
def insertBlock (saved : SavedBlock) (owner previous : Option Nat) : Build Nat := do
  let node ← addNode saved owner previous
  insertInputs node saved.inputs
  return node

theorem insertChain_eq (saved : SavedBlock) : insertChain owner saved = (do
    let head ← insertBlock saved owner none
    insertBehind owner head saved.next
    return head) := by
  obtain ⟨kind, id, x, y, fields, inputs, next⟩ := saved
  rw [insertChain]
  simp [insertBlock]

theorem insertNext_eq (saved : SavedBlock) : insertNext owner previous saved = (do
    let node ← insertBlock saved owner (some previous)
    setNext previous node
    insertBehind owner node saved.next) := by
  obtain ⟨kind, id, x, y, fields, inputs, next⟩ := saved
  rw [insertNext]
  simp [insertBlock]

theorem insertBehind_of_target {link : Link SavedBlock} {block : SavedBlock}
    (h : link.target = some block) :
    insertBehind owner previous (some link) = insertNext owner previous block := by
  obtain ⟨_ | attached, _ | shadow⟩ := link <;> cases h <;> rw [insertBehind]

theorem insertBehind_of_none {link : Link SavedBlock} (h : link.target = none) :
    insertBehind owner previous (some link) = pure () := by
  obtain ⟨_ | attached, _ | shadow⟩ := link <;> cases h
  rw [insertBehind]

theorem insertInputs_of_target {link : Link SavedBlock} {block : SavedBlock}
    (h : link.target = some block) : insertInputs node ((slot, link) :: inputs) = (do
    let head ← insertChain (some node) block
    setSlot node slot head
    insertInputs node inputs) := by
  obtain ⟨_ | attached, _ | shadow⟩ := link <;> cases h <;> rw [insertInputs]

theorem insertInputs_of_none {link : Link SavedBlock} (h : link.target = none) :
    insertInputs node ((slot, link) :: inputs) = insertInputs node inputs := by
  obtain ⟨_ | attached, _ | shadow⟩ := link <;> cases h
  rw [insertInputs]

end Steps

/-- What comes of adding a chain. -/
def ChainOutcome (block : SavedBlock) : Prop :=
  ∀ (owner : Option Nat) {arena : Arena} {index : Nat}, arena.nodes.size = index →
    Outcome arena (idsFrom index block.reached) []
      (fun number => arena.nodes.toList ++ Block.nodesOf number owner none (block.build index).1)
      index ((insertChain owner block).run arena)

/-- What comes of adding a chain behind a node. -/
def NextOutcome (block : SavedBlock) : Prop :=
  ∀ (owner : Option Nat) (previous : Nat) {arena : Arena} {index : Nat},
    arena.nodes.size = index → previous < index →
      Outcome arena (idsFrom index block.reached) []
        (fun number =>
          Block.addBehind number owner previous (block.build index).1 arena.nodes.toList)
        () ((insertNext owner previous block).run arena)

theorem length_idsFrom (index : Nat) (blocks : List SavedBlock) :
    (idsFrom index blocks).length = blocks.length := by
  simp [idsFrom]

theorem number_head {block : SavedBlock} {index : Nat} {number : String → Nat}
    (h : Numbers number index (idsFrom index block.reached)) :
    number ((toChain block).run index).1.1.id = index := by
  obtain ⟨kind, id, x, y, fields, inputs, next⟩ := block
  rw [reached] at h
  rw [run_toChain_mk]
  exact (numbers_cons.1 h).1

theorem outcome_insertInputs (node : Nat) : ∀ {inputs : List (String × Link SavedBlock)},
    (∀ input ∈ inputs, ∀ block ∈ Link.target input.2, ChainOutcome block) →
    ∀ {arena : Arena} {index : Nat}, arena.nodes.size = index → node < index →
      Outcome arena (idsFrom index (reachedInside inputs)) []
        (fun number => Block.addSlots number node ((toSlots inputs).run index).1 arena.nodes.toList)
        () ((insertInputs node inputs).run arena)
  | [], _, arena, index, _, _ => by
    rw [insertInputs, toSlots]
    exact (outcome_pure arena ()).congr fun number _ => (Block.addSlots_nil number node _).symm
  | (slot, link) :: inputs, h, arena, index, hsize, hnode => by
    obtain ⟨hlink, hinputs⟩ := List.forall_mem_cons.1 h
    rw [reachedInside_cons]
    cases htarget : link.target with
    | none =>
      rw [insertInputs_of_none _ _ _ htarget, run_toSlots_of_none _ htarget]
      exact outcome_insertInputs node hinputs hsize hnode
    | some block =>
      have hcount : ((toChain block).run index).2 = index + block.reached.length :=
        (counts_toChain block index).count
      rw [insertInputs_of_target _ _ _ htarget, run_toSlots_of_target _ link htarget,
        Option.elim_some, idsFrom_append]
      simp only [hcount]
      refine Outcome.congr (.bind (fun number nodes =>
          Block.addSlots number node ((toSlots inputs).run (index + block.reached.length)).1
            (nodes.modify node (Node.withSlots [(slot, index)])))
        (hlink block htarget (some node) hsize) fun after hafter => ?_) fun number hnumber => ?_
      · refine .of_write (run_setSlot after node slot index) Array.size_modify ?_
        have hafter : (after.nodes.modify node (Node.withSlots [(slot, index)])).size =
            index + block.reached.length := by
          rw [Array.size_modify, hafter.size, hsize, length_idsFrom]
        exact (outcome_insertInputs node hinputs hafter (by omega)).congr fun number _ => by
          rw [Array.toList_modify]
      · have hhead := number_head (numbers_append.1 (hsize ▸ hnumber)).1
        rw [Block.addSlots_cons number (by simpa [hsize] using hnode), hhead]
        rfl

/-- What is behind a node is added if the chain that begins there is. -/
theorem outcome_insertBehind (owner : Option Nat) {previous : Nat}
    {next : Option (Link SavedBlock)}
    (h : ∀ link ∈ next, ∀ block ∈ Link.target link, NextOutcome block) {arena : Arena}
    {index : Nat} (hsize : arena.nodes.size = index) (hprevious : previous < index) :
    Outcome arena (idsFrom index (reachedBehind next)) []
      (fun number =>
        Block.addBehind number owner previous ((toRest next).run index).1 arena.nodes.toList)
      () ((insertBehind owner previous next).run arena) := by
  have hnone (number : String → Nat) : arena.nodes.toList =
      Block.addBehind number owner previous [] arena.nodes.toList :=
    (Block.addBehind_nil number owner previous _).symm
  cases next with
  | none =>
    rw [insertBehind, toRest]
    exact (outcome_pure arena ()).congr fun number _ => hnone number
  | some link =>
    rw [reachedBehind_some]
    cases htarget : link.target with
    | none =>
      rw [insertBehind_of_none _ _ htarget, run_toRest_of_none _ htarget]
      exact (outcome_pure arena ()).congr fun number _ => hnone number
    | some block =>
      rw [insertBehind_of_target _ _ htarget, run_toRest_of_target _ link htarget]
      exact h link rfl block htarget owner previous hsize hprevious

/-- A block is added with what hangs at its inputs. -/
theorem outcome_insertBlock (saved : SavedBlock) (owner previous : Option Nat)
    (h : ∀ input ∈ saved.inputs, ∀ block ∈ Link.target input.2, ChainOutcome block) {arena : Arena}
    {index : Nat} (hsize : arena.nodes.size = index) :
    Outcome arena (idFrom (saved, index) :: idsFrom (index + 1) (reachedInside saved.inputs)) []
      (fun number => Block.addSlots number index ((toSlots saved.inputs).run (index + 1)).1
        (arena.nodes.toList ++ [freshNode saved owner previous index]))
      index ((insertBlock saved owner previous).run arena) := by
  subst hsize
  rw [insertBlock]
  refine .bind (fun number nodes => Block.addSlots number arena.nodes.size
    ((toSlots saved.inputs).run (arena.nodes.size + 1)).1 nodes)
    (outcome_addNode saved owner previous arena) fun after hafter => ?_
  exact (outcome_insertInputs arena.nodes.size h hafter.size (Nat.lt_succ_self _)).map
    fun _ => arena.nodes.size

section Links

variable {kind : Kind} {id : Option String} {x y : Option Float} {fields : OrderedMap String}
  {inputs : List (String × Link SavedBlock)} {next : Option (Link SavedBlock)}

theorem idsFrom_reached (index : Nat) :
    idsFrom index (reached ⟨kind, id, x, y, fields, inputs, next⟩) =
      (idFrom (⟨kind, id, x, y, fields, inputs, next⟩, index) ::
        idsFrom (index + 1) (reachedInside inputs)) ++
        idsFrom (index + 1 + (reachedInside inputs).length) (reachedBehind next) := by
  rw [reached, List.cons_append, ← idsFrom_append]
  rfl

variable (hkeys : (OrderedMap.keys inputs).Nodup)
  (hfilled : ∀ index, BuildsSlots index inputs ((toSlots inputs).run index))
  (hinputs : ∀ input ∈ inputs, ∀ block ∈ Link.target input.2, ChainOutcome block)
  (hnext : ∀ link ∈ next, ∀ block ∈ Link.target link, NextOutcome block)
include hkeys hfilled hinputs hnext

theorem chainOutcome_mk : ChainOutcome ⟨kind, id, x, y, fields, inputs, next⟩ := by
  intro owner arena index hsize
  have hcount := (hfilled (index + 1)).count
  have hslots : (OrderedMap.keys ((toSlots inputs).run (index + 1)).1).Nodup :=
    (hfilled (index + 1)).keys ▸ nodup_keys_filter hkeys
  rw [insertChain_eq, idsFrom_reached, build, run_toChain_mk]
  simp only [hcount]
  refine Outcome.congr (.bind (fun number nodes => Block.addBehind number owner index
      ((toRest next).run (index + 1 + (reachedInside inputs).length)).1 nodes)
    (outcome_insertBlock ⟨kind, id, x, y, fields, inputs, next⟩ owner none hinputs hsize)
    fun after hafter => ?_) fun number hnumber => ?_
  · have hafter : after.nodes.size = index + 1 + (reachedInside inputs).length := by
      rw [hafter.size, hsize, List.length_cons, length_idsFrom]
      omega
    exact (outcome_insertBehind owner hnext hafter (by omega)).map fun _ => index
  · have hid := (numbers_cons.1 (numbers_append.1 hnumber).1).1
    subst hsize
    exact Block.addBehind_addSlots number owner arena.nodes.toList
      (.mk _ kind fields ((toSlots inputs).run (arena.nodes.size + 1)).1) _ none hslots hid

theorem nextOutcome_mk : NextOutcome ⟨kind, id, x, y, fields, inputs, next⟩ := by
  intro owner previous arena index hsize hprevious
  have hcount := (hfilled (index + 1)).count
  have hslots : (OrderedMap.keys ((toSlots inputs).run (index + 1)).1).Nodup :=
    (hfilled (index + 1)).keys ▸ nodup_keys_filter hkeys
  rw [insertNext_eq, idsFrom_reached, build, run_toChain_mk]
  simp only [hcount]
  refine Outcome.congr (.bind (fun number nodes => Block.addBehind number owner index
      ((toRest next).run (index + 1 + (reachedInside inputs).length)).1
      (nodes.modify previous (Node.withNext (some index))))
    (outcome_insertBlock ⟨kind, id, x, y, fields, inputs, next⟩ owner (some previous) hinputs hsize)
    fun after hafter => ?_) fun number hnumber => ?_
  · refine .of_write (run_setNext after previous index) Array.size_modify ?_
    have hafter : (after.nodes.modify previous (Node.withNext (some index))).size =
        index + 1 + (reachedInside inputs).length := by
      rw [Array.size_modify, hafter.size, hsize, List.length_cons, length_idsFrom]
      omega
    exact (outcome_insertBehind owner hnext hafter (by omega)).congr fun number _ => by
      rw [Array.toList_modify]
  · have hid := (numbers_cons.1 (numbers_append.1 hnumber).1).1
    subst hsize
    exact Block.addBehind_modify_addSlots number owner hprevious
      (.mk _ kind fields ((toSlots inputs).run (arena.nodes.size + 1)).1) _ hslots hid

end Links

/-- A chain is added as it is built, at the top level or in a slot, and behind a node. -/
theorem outcomes (block : SavedBlock) (keyed : block.wellKeyed = true) :
    ChainOutcome block ∧ NextOutcome block := by
  induction block using SavedBlock.induction with
  | mk kind id x y fields inputs next ihinputs ihnext =>
    simp only [wellKeyed, Bool.and_eq_true, decide_eq_true_eq] at keyed
    obtain ⟨⟨⟨-, hkeys⟩, hkeyed⟩, hnext⟩ := keyed
    have hkeyed := wellKeyed_of_input hkeyed
    have hfilled (index : Nat) := buildsSlots_toSlots index hkeys fun input hinput block hblock =>
      builds_toChain block (hkeyed input hinput block hblock)
    have hinputs := fun input hinput block hblock =>
      (ihinputs input hinput block hblock (hkeyed input hinput block hblock)).1
    have hbehind := fun link hlink block hblock => (ihnext link hlink block hblock (by
      rw [Option.mem_def.1 hlink] at hnext
      exact wellKeyed_of_target hnext block hblock)).2
    exact ⟨chainOutcome_mk hkeys hfilled hinputs hbehind,
      nextOutcome_mk hkeys hfilled hinputs hbehind⟩

/-! ## The top level -/

/-- The entries of chains of the top level, the first being one of a given number in the file and
its head having a given place. -/
def entriesFrom : Nat → Nat → List SavedBlock → List Entry
  | _, _, [] => []
  | order, index, block :: blocks =>
    ⟨block.key, order, index⟩ :: entriesFrom (order + 1) (index + block.reached.length) blocks

/-- Where the heads of chains of the top level stand, the last chain first. -/
def placesFrom : Nat → List SavedBlock → List (Nat × Float × Float)
  | _, [] => []
  | index, block :: blocks =>
    placesFrom (index + block.reached.length) blocks ++
      (block.place.map fun place => (index, place)).toList

theorem fst_of_mem_place {block : SavedBlock} {index : Nat} {entry : Nat × Float × Float}
    (h : entry ∈ (block.place.map fun place => (index, place)).toList) : entry.1 = index := by
  obtain ⟨place, -, rfl⟩ := Option.map_eq_some_iff.1 (Option.mem_toList.1 h)
  rfl

theorem outcome_setPlace (arena : Arena) (head : Nat) (place : Option (Float × Float)) :
    Outcome arena [] (place.map fun place => (head, place)).toList (fun _ => arena.nodes.toList) ()
      ((setPlace head place).run arena) := by
  cases place with
  | none => exact outcome_pure arena ()
  | some place =>
    exact {
      refused := fun _ h => by cases h
      added := fun _ => ⟨_, rfl, by simp, by simp, rfl, fun _ _ => rfl⟩ }

theorem lookup_eq_none {places : List (Nat × Float × Float)} {head : Nat}
    (h : ∀ entry ∈ places, entry.1 ≠ head) : places.lookup head = none :=
  List.lookup_eq_none_iff.2 fun entry hentry => bne_iff_ne.2 (h entry hentry).symm

/-- A head that has just been added is known to stand where its chain was saved, if anywhere. -/
theorem key_eq {index : Nat} {block : SavedBlock}
    (hplaces : arena.places =
      (block.place.map fun place => (index, place)).toList ++ places)
    (hold : ∀ entry ∈ places, entry.1 < index) : arena.key index = block.key := by
  have hlookup : arena.places.lookup index = block.place := by
    rw [hplaces]
    cases block.place with
    | some place => simp
    | none => exact lookup_eq_none fun entry hentry => (hold entry hentry).ne
  rw [key, hlookup]
  rfl

/-- Chains of the top level are built one behind the other. -/
theorem run_ofSaved_cons (block : SavedBlock) (blocks : List SavedBlock) (index : Nat) :
    ((Root.ofSaved (block :: blocks)).run index).1 =
      ⟨(block.toChain.run index).1.1, (block.toChain.run index).1.2, block.place⟩ ::
        ((Root.ofSaved blocks).run (index + block.reached.length)).1 := by
  rw [Root.run_ofSaved_cons]
  exact congrArg (fun count => _ :: ((Root.ofSaved blocks).run count).1)
    (counts_toChain block index).count

theorem length_reached_pos (block : SavedBlock) : 0 < block.reached.length := by
  obtain ⟨kind, id, x, y, fields, inputs, next⟩ := block
  simp [reached]

theorem insertRoots_cons (order : Nat) (block : SavedBlock) (blocks : List SavedBlock) :
    insertRoots order (block :: blocks) = (do
      let head ← insertChain none block
      setPlace head block.place
      let arena ← get
      let entries ← insertRoots (order + 1) blocks
      return ⟨arena.key head, order, head⟩ :: entries) := rfl

theorem outcome_insertRoots {blocks : List SavedBlock}
    (keyed : ∀ block ∈ blocks, block.wellKeyed = true) (order : Nat) {arena : Arena} {index : Nat}
    (hsize : arena.nodes.size = index) (hplaces : ∀ entry ∈ arena.places, entry.1 < index) :
    Outcome arena (idsFrom index (blocks.flatMap reached)) (placesFrom index blocks)
      (fun number => arena.nodes.toList ++
        ((Root.ofSaved blocks).run index).1.flatMap fun root =>
          Block.nodesOf number none none root.chain)
      (entriesFrom order index blocks) ((insertRoots order blocks).run arena) := by
  induction blocks generalizing order arena index with
  | nil => exact (outcome_pure arena []).congr fun _ _ => (List.append_nil _).symm
  | cons block blocks ih =>
    obtain ⟨hblock, hblocks⟩ := List.forall_mem_cons.1 keyed
    rw [run_ofSaved_cons, List.flatMap_cons, idsFrom_append, insertRoots_cons]
    refine Outcome.congr (.bind (fun number nodes => nodes ++
        ((Root.ofSaved blocks).run (index + block.reached.length)).1.flatMap fun root =>
          Block.nodesOf number none none root.chain)
      ((outcomes block hblock).1 none hsize) fun after hafter => ?_) fun number _ => by
        rw [List.flatMap_cons, List.append_assoc]
        rfl
    refine .andThen (fun number nodes => nodes ++
      ((Root.ofSaved blocks).run (index + block.reached.length)).1.flatMap fun root =>
        Block.nodesOf number none none root.chain) (outcome_setPlace after index block.place)
      fun last hlast => ?_
    have hlook : last.places =
        (block.place.map fun place => (index, place)).toList ++ arena.places := by
      rw [hlast.places, hafter.places, List.nil_append]
    have hsize : last.nodes.size = index + block.reached.length := by
      rw [hlast.size, hafter.size, hsize, length_idsFrom, List.length_nil, Nat.add_zero]
    have hsmall : ∀ entry ∈ last.places, entry.1 < index + block.reached.length := by
      have hpos := length_reached_pos block
      rw [hlook]
      intro entry hentry
      rcases List.mem_append.1 hentry with hnew | hold
      · rw [fst_of_mem_place hnew]
        omega
      · have hlt := hplaces entry hold
        omega
    rw [entriesFrom, ← key_eq hlook hplaces, StateT.run_bind, StateT.run_get, pure_bind]
    exact (ih hblocks (order + 1) hsize hsmall).map fun entries =>
      (⟨last.key index, order, index⟩ :: entries : List Entry)

section Filled

variable {blocks : List SavedBlock} (keyed : ∀ block ∈ blocks, block.wellKeyed = true)
include keyed

/-- What comes of adding all chains to an arena without nodes. -/
theorem outcome_insertRoots_empty :
    Outcome {} (idsFrom 0 (blocks.flatMap reached)) (placesFrom 0 blocks)
      (fun number => ((Root.ofSaved blocks).run 0).1.flatMap fun root =>
        Block.nodesOf number none none root.chain)
      (entriesFrom 0 0 blocks) ((insertRoots 0 blocks).run {}) :=
  outcome_insertRoots keyed 0 rfl (List.forall_mem_nil _)

/-- Saved blocks are refused for the first id that comes a second time. -/
theorem ofSaved_eq_error {id : String}
    (h : firstRepeated [] (idsFrom 0 (blocks.flatMap reached)) = some id) :
    ofSaved blocks = .error id := by
  rw [ofSaved, (outcome_insertRoots_empty keyed).refused id h]
  rfl

/-- Without such an id all chains are added, and then put in order. -/
theorem exists_ofSaved_eq_ok
    (h : firstRepeated [] (idsFrom 0 (blocks.flatMap reached)) = none) :
    ∃ filled : Arena, Grown {} (idsFrom 0 (blocks.flatMap reached)) (placesFrom 0 blocks)
        (fun number => ((Root.ofSaved blocks).run 0).1.flatMap fun root =>
          Block.nodesOf number none none root.chain) filled ∧
      ofSaved blocks = .ok { filled with
        roots := ((entriesFrom 0 0 blocks).mergeSort Entry.le).map Entry.head } := by
  obtain ⟨filled, hrun, hgrown⟩ := (outcome_insertRoots_empty keyed).added h
  rw [ofSaved, hrun]
  exact ⟨filled, hgrown, rfl⟩

end Filled

end Arena

end PiBlocks
