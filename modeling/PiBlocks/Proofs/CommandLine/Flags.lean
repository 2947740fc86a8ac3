import PiBlocks.CommandLine.Program
import PiBlocks.Proofs.CommandLine.Files
import PiBlocks.Proofs.Debounce

/-!
# Flags and what becomes of them

A run over a workspace that loads ends in one of three ways (`Program.exit_generate`). If its
options ask a question that is answered, it ends well and leaves the files as they are, whatever the
check finds and wherever it should save. If they ask for the names at a block that is not there, it
ends badly and leaves the files as they are. Otherwise the combined document is written where it
should be, and the run ends badly if that goes wrong or the check counts and finds something.

Everything else a run does is printing, and that leaves the files alone (`Program.KeepsFiles`).
-/

namespace PiBlocks

namespace GenerateOptions

/-- Whether a question is asked that is answered : for the processes, or for the names at a block
that is there. -/
def asks (options : GenerateOptions) (tree : Tree) : Bool :=
  options.listProcesses || options.names.any fun id => (tree.find? id).isSome

/-- The files after a text is saved where it should be. -/
def saved (options : GenerateOptions) (disk : Disk) (text : String) : Except FileError Disk :=
  match options.save with
  | none => .ok disk
  | some path => disk.withText path text

/-- A text that is saved can be read again. -/
theorem text_of_saved {options : GenerateOptions} {disk left : Disk} {path text : String}
    (h : options.saved disk text = .ok left) (hpath : options.save = some path) :
    left.text path = .ok text := by
  rw [saved, hpath] at h
  exact Disk.text_of_withText h

end GenerateOptions

namespace Program

/-! ## Printing -/

/-- Whatever the machine, the files are the same after an action. -/
def KeepsFiles {α : Type} (action : StateM Machine α) : Prop :=
  ∀ machine : Machine, (action.run machine).2.disk = machine.disk

namespace KeepsFiles

variable {α β : Type}

theorem pure (value : α) : KeepsFiles (Pure.pure value) := fun _ => rfl

theorem bind {action : StateM Machine α} {next : α → StateM Machine β} (h : KeepsFiles action)
    (hnext : ∀ value, KeepsFiles (next value)) : KeepsFiles (action >>= next) := fun machine =>
  (hnext _ _).trans (h machine)

theorem printLine (line : String) : KeepsFiles (PiBlocks.printLine line) := fun _ => rfl

theorem report (text : String) : KeepsFiles (PiBlocks.report text) := fun _ => rfl

theorem reportLine (line : String) : KeepsFiles (PiBlocks.reportLine line) := fun _ => rfl

/-- So are they after an action for each of some values. -/
theorem forEach {action : α → StateM Machine Unit} (h : ∀ value, KeepsFiles (action value)) :
    ∀ values : List α, KeepsFiles (forIn values PUnit.unit fun value _ => do
      action value
      Pure.pure (ForInStep.yield PUnit.unit))
  | [] => fun _ => rfl
  | value :: values => by
    rw [List.forIn_cons]
    refine ((h value).bind fun _ => .pure (ForInStep.yield PUnit.unit)).bind fun step => ?_
    cases step with
    | done => exact .pure _
    | yield => exact forEach h values

end KeepsFiles

theorem keepsFiles_emit (name source : String) (diagnostics : List Diagnostic) :
    KeepsFiles (emit name source diagnostics) :=
  (KeepsFiles.forEach (fun _ => .report _) _).bind fun _ => .pure _

theorem keepsFiles_printProcesses (snapshot : Snapshot) : KeepsFiles (printProcesses snapshot) :=
  (KeepsFiles.forEach (fun _ => .printLine _) _).bind fun _ => .pure _

theorem keepsFiles_printResult (options : GenerateOptions) (generation : Generation)
    (snapshot : Snapshot) : KeepsFiles (printResult options generation snapshot) := by
  rw [printResult]
  split_ifs
  · exact .printLine _
  · exact .printLine _
  · exact .pure _

theorem keepsFiles_restored (source : String) : KeepsFiles (restored source) := by
  rw [restored]
  split
  · exact .pure _
  · exact .bind (.reportLine _) fun _ => .pure _

/-! ## The end of a run -/

/-- On files, whatever was printed before, an action comes to a value and leaves files. -/
def Ends {α : Type} (disk : Disk) (action : StateM Machine α) (value : α) (left : Disk) : Prop :=
  ∀ machine : Machine, machine.disk = disk →
    (action.run machine).1 = value ∧ (action.run machine).2.disk = left

namespace Ends

variable {α β : Type} {disk between left : Disk} {action : StateM Machine α}
  {next : α → StateM Machine β} {value : α} {result : β}

theorem pure (disk : Disk) (value : α) : Ends disk (Pure.pure value) value disk :=
  fun _ h => ⟨rfl, h⟩

theorem bind (h : Ends disk action value between) (hnext : Ends between (next value) result left) :
    Ends disk (action >>= next) result left := by
  intro machine hdisk
  obtain ⟨hvalue, hbetween⟩ := h machine hdisk
  have hend := hnext (action.run machine).2 hbetween
  rwa [← hvalue] at hend

/-- Printing goes before the end and does not change it. -/
theorem after (h : KeepsFiles action) (hnext : ∀ value, Ends disk (next value) result left) :
    Ends disk (action >>= next) result left :=
  fun machine hdisk => hnext _ _ ((h machine).trans hdisk)

end Ends

section Runs

variable {options : GenerateOptions} {settings : Settings} {source : String} {tree : Tree}
  {scopes : Scopes} {disk : Disk}

theorem ends_read (path : String) : Ends disk (Host.read path) (disk.text path) disk := by
  rintro machine rfl
  exact ⟨rfl, rfl⟩

theorem ends_write_of_ok {path text : String} {written : Disk}
    (h : disk.withText path text = .ok written) :
    Ends disk (Host.write path text) (.ok ()) written := by
  rintro machine rfl
  simp only [Host.write, StateT.run_bind, StateT.run_get, pure_bind, h]
  exact ⟨rfl, rfl⟩

theorem ends_write_of_error {path text : String} {error : FileError}
    (h : disk.withText path text = .error error) :
    Ends disk (Host.write path text) (.error error) disk := by
  rintro machine rfl
  simp only [Host.write, StateT.run_bind, StateT.run_get, pure_bind, h]
  exact ⟨rfl, rfl⟩

theorem ends_saveResult_of_ok {left : Disk} (h : options.saved disk (tree.save scopes) = .ok left) :
    Ends disk (saveResult options tree scopes) true left := by
  rw [saveResult]
  rw [GenerateOptions.saved] at h
  cases hsave : options.save with
  | none =>
    rw [hsave] at h
    obtain rfl := Except.ok.inj h
    exact .pure _ _
  | some path =>
    rw [hsave] at h
    exact .bind (ends_write_of_ok h) (.pure _ _)

theorem ends_saveResult_of_error {error : FileError}
    (h : options.saved disk (tree.save scopes) = .error error) :
    Ends disk (saveResult options tree scopes) false disk := by
  rw [saveResult]
  rw [GenerateOptions.saved] at h
  cases hsave : options.save with
  | none => simp [hsave] at h
  | some path =>
    rw [hsave] at h
    exact .bind (ends_write_of_error h) (.after (.reportLine _) fun _ => .pure _ _)

theorem ends_printNames_of_isSome {id : String} (h : (tree.find? id).isSome) (snapshot : Snapshot) :
    Ends disk (printNames tree snapshot id) 0 disk := by
  obtain ⟨site, hsite⟩ := Option.isSome_iff_exists.mp h
  rw [printNames, hsite]
  exact .after (.forEach (fun _ => .printLine _) _) fun _ => .pure _ _

theorem ends_printNames_of_none {id : String} (h : tree.find? id = none) (snapshot : Snapshot) :
    Ends disk (printNames tree snapshot id) 1 disk := by
  rw [printNames, h]
  exact .after (.reportLine _) fun _ => .pure _ _

/-- A question that is answered ends a run well and leaves the files as they are. -/
theorem ends_finish_of_asks (h : options.asks tree = true) :
    Ends disk (finish options settings source tree scopes) 0 disk := by
  rw [finish]
  cases hlist : options.listProcesses with
  | true => exact .after (keepsFiles_printProcesses _) fun _ => .pure _ _
  | false =>
    cases hnames : options.names with
    | none => simp [GenerateOptions.asks, hlist, hnames] at h
    | some id =>
      have hfound : (tree.find? id).isSome = true := by
        simpa [GenerateOptions.asks, hlist, hnames] using h
      exact ends_printNames_of_isSome hfound _

/-- A question for the names at a block that is not there ends it badly. -/
theorem ends_finish_of_names {id : String} (h : options.asks tree = false)
    (hnames : options.names = some id) :
    Ends disk (finish options settings source tree scopes) 1 disk := by
  obtain ⟨hlist, hfound⟩ : options.listProcesses = false ∧ tree.find? id = none := by
    simpa [GenerateOptions.asks, hnames] using h
  rw [finish, hlist, hnames]
  exact ends_printNames_of_none hfound _

/-- Without a question a run ends with saving, and badly if that goes wrong or the check counts and
finds something. -/
theorem exists_ends_finish {generation : Generation} {after : Scopes} {saved : Bool} {left : Disk}
    (h : options.asks tree = false) (hnames : options.names = none)
    (hpass : tree.pass scopes (settings.canonical && !options.raw) = (generation, after))
    (hsave : Ends disk (saveResult options tree after) saved left) :
    ∃ code, Ends disk (finish options settings source tree scopes) code left ∧
      (code ≠ 0 ↔ saved = false ∨ (options.check = true ∧ generation.warnings ≠ [])) := by
  have hlist : options.listProcesses = false := by simpa [GenerateOptions.asks, hnames] using h
  rw [finish, hlist, hnames, hpass]
  cases saved with
  | false =>
    exact ⟨1, .after (keepsFiles_printResult _ _ _) fun _ => .after (keepsFiles_emit _ _ _)
      fun _ => .bind hsave (.pure _ _), by simp⟩
  | true =>
    exact ⟨_, .after (keepsFiles_printResult _ _ _) fun _ => .after (keepsFiles_emit _ _ _)
      fun _ => .bind hsave (.pure _ _), by simp⟩

/-- The saved state does not matter : the outcome of the pass hangs on the tree alone. -/
theorem ends_generate {code : Nat} {left : Disk} (hread : disk.text options.file = .ok source)
    (hload : Source.load { text := source } = .ok tree)
    (h : Ends disk (finish options settings source tree scopes) code left) :
    Ends disk (generate options settings) code left := by
  rw [generate]
  refine .bind (ends_read _) ?_
  rw [hread]
  dsimp only
  rw [hload]
  refine .after (keepsFiles_restored _) fun restored => ?_
  rw [finish, tree.pass_congr restored scopes]
  exact h

end Runs

/-- A run over a workspace that loads ends well and leaves the files as they are if it asks a
question that is answered, whatever its other options. It ends badly and leaves the files as they
are if it asks for the names at a block that is not there. Otherwise the combined document is saved
where it should be, and can be read there again, and the run ends badly if and only if that goes
wrong or the check counts and the pass has warnings. -/
theorem exit_generate (options : GenerateOptions) (settings : Settings) (machine : Machine)
    (scopes : Scopes) {source : String} {tree : Tree}
    (hread : machine.disk.text options.file = .ok source)
    (hload : Source.load { text := source } = .ok tree) :
    let outcome := tree.pass scopes (settings.canonical && !options.raw)
    let ended := (generate options settings : StateM Machine Nat).run machine
    (options.asks tree = true → ended.1 = 0 ∧ ended.2.disk = machine.disk) ∧
    (options.asks tree = false → options.names.isSome →
      ended.1 ≠ 0 ∧ ended.2.disk = machine.disk) ∧
    (options.asks tree = false → options.names = none →
      match options.saved machine.disk (tree.save outcome.2) with
      | .error _ => ended.1 ≠ 0 ∧ ended.2.disk = machine.disk
      | .ok left => (ended.1 ≠ 0 ↔ options.check = true ∧ outcome.1.warnings ≠ []) ∧
        ended.2.disk = left ∧
        ∀ path, options.save = some path → left.text path = .ok (tree.save outcome.2)) := by
  intro outcome ended
  have hends {code : Nat} {left : Disk}
      (h : Ends machine.disk (finish options settings source tree scopes) code left) :
      ended.1 = code ∧ ended.2.disk = left := ends_generate hread hload h machine rfl
  refine ⟨fun hasks => hends (ends_finish_of_asks hasks), fun hasks hnames => ?_,
    fun hasks hnames => ?_⟩
  · obtain ⟨id, hid⟩ := Option.isSome_iff_exists.mp hnames
    obtain ⟨hcode, hdisk⟩ := hends (ends_finish_of_names hasks hid)
    exact ⟨hcode ▸ Nat.one_ne_zero, hdisk⟩
  · cases hsaved : options.saved machine.disk (tree.save outcome.2) with
    | error error =>
      obtain ⟨code, hfinish, hcode⟩ :=
        exists_ends_finish hasks hnames rfl (ends_saveResult_of_error hsaved)
      obtain ⟨rfl, hdisk⟩ := hends hfinish
      exact ⟨hcode.mpr (.inl rfl), hdisk⟩
    | ok left =>
      obtain ⟨code, hfinish, hcode⟩ :=
        exists_ends_finish hasks hnames rfl (ends_saveResult_of_ok hsaved)
      obtain ⟨rfl, hdisk⟩ := hends hfinish
      exact ⟨hcode.trans (or_iff_right nofun), hdisk, fun _ => GenerateOptions.text_of_saved hsaved⟩

/-! ## A call of no process -/

/-- A program that calls no process. -/
def uncalled : SavedWorkspace where
  blocks := [{
    kind := .main
    id := some "main"
    inputs := [(SlotName.main, { block := some { kind := .call, id := some "call" } })] }]

/-- Files with nothing but a workspace. -/
def beginning (source : String) : Machine where
  disk := { files := [(["w.json"], source.toUTF8)] }

/-- A run over them. -/
def generated (options : GenerateOptions) (source : String) : Nat × Machine :=
  (generate options {} : StateM Machine Nat).run (beginning source)

theorem text_beginning (source : String) :
    (beginning source).disk.text "w.json" = .ok source := by
  have hlocate : (beginning source).disk.locate "w.json" = .ok ["w.json"] := by rfl
  exact Disk.text_of_bytes (Disk.bytes_of_locate hlocate (by decide +kernel) (by rfl))

/-- A document can be saved next to it. -/
theorem exists_withText_beginning (source text : String) :
    ∃ written, (beginning source).disk.withText "out.json" text = .ok written :=
  ⟨{ files := [(["w.json"], source.toUTF8), (["out.json"], text.toUTF8)] }, by rfl⟩

theorem exists_load_uncalled : ∃ tree, Source.load { text := uncalled.toJson.compact } = .ok tree ∧
    (tree.find? "call").isSome = true ∧ (tree.find? "other").isSome = false ∧
    (tree.pass {} true).1.warnings ≠ [] := by
  have hload : (Source.load { text := uncalled.toJson.compact }).toOption.map (fun tree =>
      ((tree.find? "call").isSome, (tree.find? "other").isSome,
        (tree.pass {} true).1.warnings.length)) = some (true, false, 1) := by decide +kernel
  cases htree : Source.load { text := uncalled.toJson.compact } with
  | error error =>
    rw [htree] at hload
    cases hload
  | ok tree =>
    rw [htree] at hload
    simp only [Except.toOption, Option.map_some, Option.some.injEq, Prod.mk.injEq] at hload
    obtain ⟨hcall, hother, hwarnings⟩ := hload
    exact ⟨tree, rfl, hcall, hother, List.ne_nil_of_length_eq_add_one hwarnings⟩

/-- Asked for the names at the call, a run ends well ; asked for those at a block that is not there,
badly. If nothing is asked, the check makes it end badly, and the document is saved all the same. -/
theorem exit_generate_uncalled :
    let source := uncalled.toJson.compact
    let options : GenerateOptions := { file := "w.json", check := true, save := some "out.json" }
    ∃ tree, (beginning source).disk.text options.file = .ok source ∧
      Source.load { text := source } = .ok tree ∧
      (generated { options with names := some "call" } source).1 = 0 ∧
      (generated { options with names := some "other" } source).1 ≠ 0 ∧
      (generated options source).1 ≠ 0 ∧
      (generated options source).2.disk.text "out.json" =
        .ok (tree.save (tree.pass {} true).2) := by
  obtain ⟨tree, hload, hcall, hother, hwarnings⟩ := exists_load_uncalled
  intro source options
  have hread : (beginning source).disk.text options.file = .ok source := text_beginning source
  obtain ⟨left, hleft⟩ := exists_withText_beginning source (tree.save (tree.pass {} true).2)
  refine ⟨tree, hread, hload, ?_, ?_, ?_⟩
  · exact ((exit_generate { options with names := some "call" } {} (beginning source) {} hread
      hload).1 hcall).1
  · exact ((exit_generate { options with names := some "other" } {} (beginning source) {} hread
      hload).2.1 hother rfl).1
  · have hsaved : options.saved (beginning source).disk
        (tree.save (tree.pass {} (({} : Settings).canonical && !options.raw)).2) = .ok left := hleft
    have hrun := (exit_generate options {} (beginning source) {} hread hload).2.2 rfl rfl
    rw [hsaved] at hrun
    obtain ⟨hcode, hdisk, htext⟩ := hrun
    refine ⟨hcode.mpr ⟨rfl, hwarnings⟩, ?_⟩
    rw [generated, hdisk]
    exact htext "out.json" rfl

/-- Asked for the processes, a run ends well and saves nothing, though the check counts, the pass
has a warning and the document could be saved. -/
theorem unsaved_of_question :
    let source := uncalled.toJson.compact
    let options : GenerateOptions :=
      { file := "w.json", listProcesses := true, check := true, save := some "out.json" }
    ∃ tree, (beginning source).disk.text options.file = .ok source ∧
      Source.load { text := source } = .ok tree ∧ (tree.pass {} true).1.warnings ≠ [] ∧
      (∃ written, (beginning source).disk.withText "out.json"
        (tree.save (tree.pass {} true).2) = .ok written) ∧
      (generated options source).1 = 0 ∧
      (generated options source).2.disk.text "out.json" = .error .notFound := by
  obtain ⟨tree, hload, -, -, hwarnings⟩ := exists_load_uncalled
  intro source options
  have hread : (beginning source).disk.text options.file = .ok source := text_beginning source
  have hfinish : Ends (beginning source).disk (finish options {} source tree {}) 0
      (beginning source).disk := ends_finish_of_asks rfl
  obtain ⟨hcode, hdisk⟩ : (generated options source).1 = 0 ∧
      (generated options source).2.disk = (beginning source).disk :=
    ends_generate hread hload hfinish _ rfl
  refine ⟨tree, hread, hload, hwarnings, exists_withText_beginning _ _, hcode, ?_⟩
  rw [hdisk]
  rfl

end Program

end PiBlocks
