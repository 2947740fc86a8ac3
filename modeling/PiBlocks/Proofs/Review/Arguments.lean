import PiBlocks.Proofs.Block.Links
import PiBlocks.Proofs.Review.Calls
import PiBlocks.Proofs.Walk.Bound
import PiBlocks.Proofs.Walk.Inside

/-!
# Arguments and their labels

An editor labels each argument of a call, and the check counts the arguments. Both read the
signature of the process that the call selects, so they agree : the labels run through the
parameters, what is left over is surplus, and the check reports a call if and only if a parameter
or an argument is left over (`Tree.labels_and_arity`). They differ in when a process is selected.
For the check, the field has to hold more than nothing and other than the sign of an invalid name ;
for a label it has to be there. So a call with such a field has labels, and the check says that no
process is selected.
-/

namespace PiBlocks

open Block

/-! ## Labels by index -/

namespace ArgumentLabel

/-- The label of the argument at an index. -/
def ofIndex (params : List String) (index : Nat) : ArgumentLabel :=
  match params[index]? with
  | some name => .parameter name
  | none => .surplus (index + 1) params.length

/-- Whether the label names a parameter. -/
def isParameter : ArgumentLabel → Bool
  | .parameter _ => true
  | .surplus _ _ => false

variable {params : List String} {index : Nat}

theorem ofIndex_of_lt (h : index < params.length) :
    ofIndex params index = .parameter params[index] := by
  rw [ofIndex, List.getElem?_eq_getElem h]

theorem ofIndex_of_le (h : params.length ≤ index) :
    ofIndex params index = .surplus (index + 1) params.length := by
  rw [ofIndex, List.getElem?_eq_none h]

theorem isParameter_ofIndex :
    (ofIndex params index).isParameter = decide (index < params.length) := by
  by_cases h : index < params.length
  · simp [ofIndex_of_lt h, isParameter, h]
  · simp [ofIndex_of_le (not_lt.1 h), isParameter, h]

end ArgumentLabel

theorem countP_range_lt (bound : Nat) : ∀ count : Nat,
    (List.range count).countP (fun index => index < bound) = min bound count
  | 0 => by simp
  | count + 1 => by
    rw [List.range_succ, List.countP_append, countP_range_lt bound count, List.countP_singleton]
    split_ifs with h
    · have hlt : count < bound := by simpa using h
      omega
    · have hle : ¬count < bound := by simpa using h
      omega

/-! ## Arguments of a call -/

theorem Block.sitesAlong_sublist_sitesOf : ∀ (trail : List Step) (chain : List Block),
    (sitesAlong trail chain).Sublist (sitesOf trail chain)
  | _, [] => List.nil_sublist _
  | trail, block :: rest => by
    rw [sitesAlong, sitesOf]
    exact ((sitesAlong_sublist_sitesOf _ rest).trans (List.sublist_append_right _ _)).cons_cons _

theorem Block.findIdx?_of_nodup {chain : List Block} (distinct : (chain.map Block.id).Nodup)
    {index : Nat} {block : Block} (h : chain[index]? = some block) :
    chain.findIdx? (fun other => other.id = block.id) = some index := by
  obtain ⟨hindex, rfl⟩ := List.getElem?_eq_some_iff.1 h
  refine List.findIdx?_eq_some_iff_getElem.2 ⟨hindex, by simp, fun place hlt => ?_⟩
  have hne := List.pairwise_iff_getElem.1 distinct place index (by simpa using hlt.trans hindex)
    (by simpa using hindex) hlt
  simpa using hne

namespace Site

/-- The arguments of a call in their places. -/
def argumentSites (call : Site) : List Site :=
  sitesAlong (.owner call.block :: call.trail) (call.block.chain SlotName.args)

/-- The site is an argument of the call. -/
structure Passes (call site : Site) : Prop where
  kind : call.block.kind = .call
  mem : site ∈ call.argumentSites

variable {call site : Site}

theorem map_block_argumentSites (call : Site) :
    call.argumentSites.map Site.block = call.block.chain SlotName.args :=
  map_block_sitesAlong _ _

theorem length_argumentSites (call : Site) :
    call.argumentSites.length = (call.block.chain SlotName.args).length := by
  rw [← map_block_argumentSites, List.length_map]

theorem owner_of_mem_argumentSites (h : site ∈ call.argumentSites) :
    site.owner = some call.block :=
  owner_of_mem_sitesAlong _ _ _ h

end Site

namespace Tree

variable {tree : Tree}

theorem argumentSites_sublist {call : Site} (h : call ∈ tree.sites) :
    call.argumentSites.Sublist tree.sites :=
  ((sitesAlong_sublist_sitesOf _ _).trans (sitesOf_chain_sublist _ _ _)).trans
    (sitesBelow_sublist h)

section Distinct

variable (distinct : tree.ids.Nodup) {call site : Site} (snapshot : Snapshot)
include distinct

theorem nodup_argument_ids (h : call ∈ tree.sites) :
    ((call.block.chain SlotName.args).map Block.id).Nodup := by
  rw [← call.map_block_argumentSites, List.map_map]
  exact distinct.sublist ((argumentSites_sublist h).map _)

/-- The label of an argument, if the call has a field for its process. -/
theorem argumentLabel_eq (h : call ∈ tree.sites) (hkind : call.block.kind = .call) {index : Nat}
    (hsite : call.argumentSites[index]? = some site) :
    site.argumentLabel snapshot = (call.block.field? FieldName.processName).map fun process =>
      .ofIndex (snapshot.params process) index := by
  have howner := Site.owner_of_mem_argumentSites (List.mem_of_getElem? hsite)
  have hblock : (call.block.chain SlotName.args)[index]? = some site.block := by
    rw [← call.map_block_argumentSites, List.getElem?_map, hsite, Option.map_some]
  have hindex := findIdx?_of_nodup (nodup_argument_ids distinct h) hblock
  rw [Site.argumentLabel, howner]
  cases hfield : call.block.field? FieldName.processName with
  | none => simp [hkind, hfield]
  | some process =>
    simp only [Option.bind_eq_bind, Option.bind_some, hkind, hfield, hindex]
    simp only [ne_eq, not_true_eq_false, if_false, Option.map_some, ArgumentLabel.ofIndex]
    cases (snapshot.params process)[index]? <;> rfl

/-- A site that has a label is an argument of a call with a field for its process. -/
theorem exists_call_of_label (h : site ∈ tree.sites)
    (hlabel : (site.argumentLabel snapshot).isSome = true) : ∃ call ∈ tree.sites,
      call.Passes site ∧ (call.block.field? FieldName.processName).isSome = true := by
  obtain ⟨label, hlabel⟩ := Option.isSome_iff_exists.1 hlabel
  rw [Site.argumentLabel] at hlabel
  obtain ⟨owner, howner, hrest⟩ := Option.bind_eq_some_iff.1 hlabel
  split_ifs at hrest with hkind
  obtain ⟨process, hfield, hrest⟩ := Option.bind_eq_some_iff.1 hrest
  obtain ⟨index, hfound, -⟩ := Option.bind_eq_some_iff.1 hrest
  obtain ⟨hindex, hid, -⟩ := List.findIdx?_eq_some_iff_getElem.1 hfound
  obtain ⟨place, hplace⟩ := List.getElem?_of_mem h
  obtain ⟨before, -, hbefore⟩ := exists_owner_lt hplace howner
  obtain ⟨call, hcall, rfl⟩ := Option.map_eq_some_iff.1 hbefore
  have hmem := List.mem_of_getElem? hcall
  -- the block found in the chain is the one at the site, for it has its id
  obtain ⟨found, hargument, hblock⟩ : ∃ found ∈ call.argumentSites,
      found.block = (call.block.chain SlotName.args)[index] := by
    rw [← List.mem_map, call.map_block_argumentSites]
    exact List.getElem_mem hindex
  obtain rfl : found = site :=
    List.inj_on_of_nodup_map distinct ((argumentSites_sublist hmem).subset hargument) h
      (by simpa [hblock] using hid)
  exact ⟨call, hmem, ⟨not_not.1 hkind, hargument⟩, by simp [hfield]⟩

theorem passes_unique {other : Site} (h : call ∈ tree.sites) (h' : other ∈ tree.sites)
    (hpasses : call.Passes site) (hpasses' : other.Passes site) : call = other := by
  refine eq_of_block_eq distinct h h' (Option.some.inj ?_)
  rw [← Site.owner_of_mem_argumentSites hpasses.mem, Site.owner_of_mem_argumentSites hpasses'.mem]

/-- An argument has a label if and only if the call has a field for its process. -/
theorem isSome_argumentLabel_iff (h : site ∈ tree.sites) :
    (site.argumentLabel snapshot).isSome = true ↔ ∃ call ∈ tree.sites, call.Passes site ∧
      (call.block.field? FieldName.processName).isSome = true := by
  refine ⟨exists_call_of_label distinct snapshot h, ?_⟩
  rintro ⟨call, hcall, ⟨hkind, hmem⟩, hfield⟩
  obtain ⟨index, hindex⟩ := List.getElem?_of_mem hmem
  rw [argumentLabel_eq distinct snapshot hcall hkind hindex, Option.isSome_map, hfield]

end Distinct

/-! ## Selected processes -/

/-- The check does not miss a process if the field is there and selects something. -/
theorem problem_ne_noProcessSelected_iff {call : Site} (hkind : call.block.kind = .call)
    (snapshot : Snapshot) : call.problem snapshot ≠ some .noProcessSelected ↔
      ∃ process, call.block.field? FieldName.processName = some process ∧
        selectsNothing process = false := by
  have hproblem : call.problem snapshot = some .noProcessSelected ↔
      selectsNothing (call.block.field FieldName.processName) = true := by
    rw [Site.problem, hkind]
    change (if selectsNothing (call.block.field FieldName.processName) = true then _ else _) =
      _ ↔ _
    split_ifs with hnothing hknown <;> simp [hnothing]
  rw [ne_eq, hproblem, Bool.not_eq_true, field]
  cases call.block.field? FieldName.processName <;> simp [selectsNothing]

section Selected

variable (distinct : tree.ids.Nodup) {call : Site} (h : call ∈ tree.sites)
  (hkind : call.block.kind = .call) {process : String}
  (hfield : call.block.field? FieldName.processName = some process) (snapshot : Snapshot)
include distinct h hkind hfield

/-- The label of an argument is that of its index. -/
theorem argumentLabel_ofIndex {index : Nat} {site : Site}
    (hsite : call.argumentSites[index]? = some site) :
    site.argumentLabel snapshot = some (.ofIndex (snapshot.params process) index) := by
  rw [argumentLabel_eq distinct snapshot h hkind hsite, hfield, Option.map_some]

/-- As many arguments have the label of a parameter as there are parameters and arguments. -/
theorem countP_isParameter :
    (call.argumentSites.countP fun site =>
        (site.argumentLabel snapshot).any ArgumentLabel.isParameter) =
      min (snapshot.params process).length (call.block.chain SlotName.args).length := by
  have hlabels : (call.argumentSites.map fun site => site.argumentLabel snapshot) =
      (List.range call.argumentSites.length).map fun index =>
        some (.ofIndex (snapshot.params process) index) := by
    refine List.ext_getElem (by simp) fun index hindex _ => ?_
    have hsite : call.argumentSites[index]? = some _ :=
      List.getElem?_eq_getElem (by simpa using hindex)
    simpa using argumentLabel_ofIndex distinct h hkind hfield snapshot hsite
  calc (call.argumentSites.countP fun site =>
          (site.argumentLabel snapshot).any ArgumentLabel.isParameter)
    _ = (call.argumentSites.map fun site => site.argumentLabel snapshot).countP
          (fun label => label.any ArgumentLabel.isParameter) := by
      rw [List.countP_map]
      rfl
    _ = (List.range call.argumentSites.length).countP
          (fun index => index < (snapshot.params process).length) := by
      rw [hlabels, List.countP_map]
      simp [Function.comp_def, ArgumentLabel.isParameter_ofIndex]
    _ = min (snapshot.params process).length (call.block.chain SlotName.args).length := by
      rw [countP_range_lt, Site.length_argumentSites]

/-- Some argument is surplus if and only if there are more of them than parameters. -/
theorem exists_surplus_iff :
    (∃ site ∈ call.argumentSites, ∃ position expected,
        site.argumentLabel snapshot = some (.surplus position expected)) ↔
      (snapshot.params process).length < (call.block.chain SlotName.args).length := by
  rw [← Site.length_argumentSites]
  constructor
  · rintro ⟨site, hsite, position, expected, hlabel⟩
    obtain ⟨index, hindex, rfl⟩ := List.getElem_of_mem hsite
    rw [argumentLabel_ofIndex distinct h hkind hfield snapshot
      (List.getElem?_eq_getElem hindex), Option.some.injEq] at hlabel
    by_contra hle
    rw [ArgumentLabel.ofIndex_of_lt (by omega)] at hlabel
    cases hlabel
  · intro hlt
    have hlabel := argumentLabel_ofIndex distinct h hkind hfield snapshot
      (List.getElem?_eq_getElem hlt)
    rw [ArgumentLabel.ofIndex_of_le le_rfl] at hlabel
    exact ⟨_, List.getElem_mem hlt, _, _, hlabel⟩

/-- There is a warning about the number of arguments if and only if it is not that of the
parameters. -/
theorem arityMismatch_mem_warnings_iff (hsome : selectsNothing process = false)
    (hknown : snapshot.hasProcess process = true) :
    (⟨.arityMismatch process (snapshot.params process).length
        (call.block.chain SlotName.args).length, call.block.id⟩ : Warning) ∈
        tree.warnings snapshot ↔
      (snapshot.params process).length ≠ (call.block.chain SlotName.args).length := by
  have hname : call.block.field FieldName.processName = process := by
    rw [field, hfield, Option.getD_some]
  have hproblem : call.problem snapshot = if (snapshot.params process).length =
      (call.block.chain SlotName.args).length then none else some (.arityMismatch process
        (snapshot.params process).length (call.block.chain SlotName.args).length) := by
    obtain ⟨hempty, hmark⟩ := selectsNothing_eq_false_iff.1 hsome
    simp [Site.problem, hkind, Site.callProblem, hname, hempty, hmark, hknown]
  rw [warnings, List.mem_filterMap]
  constructor
  · rintro ⟨site, hsite, hwarning⟩ heq
    obtain ⟨problem, hfound, hpair⟩ := Option.map_eq_some_iff.1 hwarning
    obtain rfl : site = call :=
      List.inj_on_of_nodup_map distinct hsite h (congrArg Warning.block hpair)
    rw [hproblem, if_pos heq] at hfound
    cases hfound
  · intro hne
    exact ⟨call, h, by rw [hproblem, if_neg hne, Option.map_some]⟩

end Selected

/-- Labels tell for which calls the check misses no process if and only if the fields of the calls
select something. -/
theorem labelled_as_selected_iff (distinct : tree.ids.Nodup) (snapshot : Snapshot) {site : Site}
    (h : site ∈ tree.sites) :
    ((site.argumentLabel snapshot).isSome = true ↔ ∃ call ∈ tree.sites, call.Passes site ∧
        call.problem snapshot ≠ some .noProcessSelected) ↔
      ∀ call ∈ tree.sites, call.Passes site →
        ∀ process ∈ call.block.field? FieldName.processName, process ≠ "" ∧
          process ≠ unresolved := by
  rw [isSome_argumentLabel_iff distinct snapshot h]
  constructor
  · intro hiff call hcall hpasses process hprocess
    have hfield : (call.block.field? FieldName.processName).isSome = true :=
      Option.isSome_iff_exists.2 ⟨process, hprocess⟩
    obtain ⟨other, hother, hpasses', hproblem⟩ := hiff.1 ⟨call, hcall, hpasses, hfield⟩
    obtain rfl := passes_unique distinct hcall hother hpasses hpasses'
    obtain ⟨found, hfound, hsome⟩ :=
      (problem_ne_noProcessSelected_iff hpasses.kind snapshot).1 hproblem
    obtain rfl := Option.some.inj (hfound.symm.trans hprocess)
    exact selectsNothing_eq_false_iff.1 hsome
  · intro hselects
    refine exists_congr fun call => and_congr_right fun hcall => and_congr_right fun hpasses => ?_
    rw [problem_ne_noProcessSelected_iff hpasses.kind, Option.isSome_iff_exists]
    refine exists_congr fun process => ⟨fun hfield => ⟨hfield, ?_⟩, And.left⟩
    exact selectsNothing_eq_false_iff.2 (hselects call hcall hpasses process hfield)

/-- A block has a label if and only if it is an argument of a call with a field for its process, so
labels go with processes that are selected if and only if such fields select something. If a process
is selected, the labels of the arguments run through its parameters and the others are surplus, and
if it is known, the check reports the number of arguments if and only if an argument is surplus or
a parameter is no label. -/
theorem labels_and_arity (distinct : tree.ids.Nodup) (snapshot : Snapshot) :
    (∀ site ∈ tree.sites,
      ((site.argumentLabel snapshot).isSome = true ↔ ∃ call ∈ tree.sites, call.Passes site ∧
        (call.block.field? FieldName.processName).isSome = true) ∧
      (((site.argumentLabel snapshot).isSome = true ↔ ∃ call ∈ tree.sites, call.Passes site ∧
          call.problem snapshot ≠ some .noProcessSelected) ↔
        ∀ call ∈ tree.sites, call.Passes site →
          ∀ process ∈ call.block.field? FieldName.processName, process ≠ "" ∧
            process ≠ unresolved)) ∧
    ∀ call ∈ tree.sites, call.block.kind = .call →
      call.problem snapshot ≠ some .noProcessSelected →
        ∃ process, call.block.field? FieldName.processName = some process ∧
          (∀ (index : Nat) (site : Site), call.argumentSites[index]? = some site →
            site.argumentLabel snapshot = some
              (if h : index < (snapshot.params process).length
                then .parameter (snapshot.params process)[index]
                else .surplus (index + 1) (snapshot.params process).length)) ∧
          (snapshot.hasProcess process = true →
            ((⟨.arityMismatch process (snapshot.params process).length
                (call.block.chain SlotName.args).length, call.block.id⟩ : Warning) ∈
                tree.warnings snapshot ↔
              (∃ site ∈ call.argumentSites, ∃ position expected,
                site.argumentLabel snapshot = some (.surplus position expected)) ∨
              (call.argumentSites.countP fun site =>
                (site.argumentLabel snapshot).any ArgumentLabel.isParameter) <
                (snapshot.params process).length)) := by
  refine ⟨fun site hsite => ⟨isSome_argumentLabel_iff distinct snapshot hsite,
    labelled_as_selected_iff distinct snapshot hsite⟩, fun call h hkind hproblem => ?_⟩
  obtain ⟨process, hfield, hsome⟩ := (problem_ne_noProcessSelected_iff hkind snapshot).1 hproblem
  refine ⟨process, hfield, fun index site hsite => ?_, fun hknown => ?_⟩
  · rw [argumentLabel_ofIndex distinct h hkind hfield snapshot hsite]
    split_ifs with hindex
    · rw [ArgumentLabel.ofIndex_of_lt hindex]
    · rw [ArgumentLabel.ofIndex_of_le (not_lt.1 hindex)]
  · rw [arityMismatch_mem_warnings_iff distinct h hkind hfield snapshot hsome hknown,
      exists_surplus_iff distinct h hkind hfield snapshot,
      countP_isParameter distinct h hkind hfield snapshot]
    omega

/-- A call in a chain, with arguments that pass nothing. -/
def callWith (process : String) (arguments : List String) : Block :=
  .mk "call" .call [(FieldName.processName, process)]
    [(SlotName.args, arguments.map fun id => .mk id .argument [] [])]

/-- A definition with one parameter that calls itself with two arguments. -/
def overcalled : Tree := defining [parameter] [callWith "P" ["first", "second"]]

theorem labels_and_arity_overcalled : overcalled.ids.Nodup ∧
    ∃ call ∈ overcalled.sites, call.block.id = "call" ∧
      call.argumentSites.map (fun site => site.block.id) = ["first", "second"] ∧
      (∀ site, call.argumentSites[0]? = some site →
        site.argumentLabel (overcalled.pass {} true).2.committed = some (.parameter "x")) ∧
      (∀ site, call.argumentSites[1]? = some site →
        site.argumentLabel (overcalled.pass {} true).2.committed = some (.surplus 2 1)) ∧
      (⟨.arityMismatch "P" 1 2, "call"⟩ : Warning) ∈ (overcalled.pass {} true).1.warnings := by
  have distinct : overcalled.ids.Nodup := by decide
  have hparams : (overcalled.pass {} true).2.committed.params "P" = ["x"] := by decide +kernel
  have hcall : overcalled.sites[2]? = some _ := rfl
  have hmem := List.mem_of_getElem? hcall
  obtain ⟨process, hfield, hlabels, harity⟩ := (labels_and_arity distinct
    (overcalled.pass {} true).2.committed).2 _ hmem rfl (by decide +kernel)
  obtain rfl : "P" = process := Option.some.inj hfield
  rw [hparams] at hlabels harity
  refine ⟨distinct, _, hmem, rfl, by decide, fun site hsite => hlabels 0 site hsite,
    fun site hsite => hlabels 1 site hsite, (harity (by decide +kernel)).2 (.inl ?_)⟩
  exact ⟨_, List.mem_of_getElem? (i := 1) rfl, 2, 1, hlabels 1 _ rfl⟩

/-- An argument of a call has a label though the check says that no process is selected. -/
theorem labelled_without_process :
    ∃ tree, tree = program [callWith "" ["argument"]] ∧ tree.ids.Nodup ∧
      ∃ call ∈ tree.sites, ∃ site ∈ tree.sites, call.Passes site ∧
        (tree.pass {} true).1.warnings = [⟨.noProcessSelected, "call"⟩] ∧
        site.argumentLabel (tree.pass {} true).2.committed = some (.surplus 1 0) ∧
        ¬∃ other ∈ tree.sites, other.Passes site ∧
          other.problem (tree.pass {} true).2.committed ≠ some .noProcessSelected := by
  have hunselected : ∀ other ∈ (program [callWith "" ["argument"]]).sites,
      other.block.kind = .call → other.problem
        ((program [callWith "" ["argument"]]).pass {} true).2.committed =
          some .noProcessSelected := by
    decide +kernel
  refine ⟨_, rfl, by decide, _, List.mem_of_getElem? (i := 1) rfl, _,
    List.mem_of_getElem? (i := 2) rfl, ⟨rfl, List.mem_of_getElem? (i := 0) rfl⟩,
    by decide +kernel, by decide +kernel, ?_⟩
  rintro ⟨other, hother, hpasses, hproblem⟩
  exact hproblem (hunselected other hother hpasses.kind)

end Tree

end PiBlocks
