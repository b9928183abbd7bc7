import TextPool.Proofs.CommandLine.Arguments
import TextPool.Proofs.CommandLine.Packing
import TextPool.Proofs.Image.Rewriting

/-!
# How a run ends

A table file that is read can be loaded, wherever its parts stand: the load reads the same sections
again, and a new pool has room for the entries (`Pool.exists_load_of_parse`). So a run fails only
for its command line, for a file that cannot be read or written, or for a file that holds no table
(`Directory.verdict`), in this order. This is so whatever lies outside the directory.
-/

namespace TextPool

/-! ### Table files that can be read can be loaded -/

theorem Pool.exists_load_of_parse {file : Bytes} {image : Image}
    (hparse : Image.parse file = .ok image)
    (hmemory : ({} : Config).grants image.table.size = true) :
    ∃ left, (ofConfig {}).perform (.loadSections file image.header.sections)
      = (.ok (.range ⟨⟨1⟩, ⟨1 + image.table.size⟩⟩), left) := by
  obtain ⟨left, hload, _⟩ := exists_first_load (Image.storedAt_of_parse hparse).1 hmemory
  have hsections := (Image.parse_eq_ok_iff.mp hparse).2.2.2
  exact ⟨left, (perform_loadSections _ hsections).trans hload⟩

theorem LoadedImage.exists_of_parse {file : Bytes} {image : Image}
    (hparse : Image.parse file = .ok image)
    (hmemory : ({} : Config).grants image.table.size = true) (path : String) :
    ∃ loaded, ofFile path file = .ok loaded := by
  obtain ⟨left, hload, _⟩ := Pool.exists_first_load (Image.storedAt_of_parse hparse).1 hmemory
  exact ⟨_, ofFile_eq_ok hparse hload⟩

theorem LoadedImage.ofFile_of_rejected {file : Bytes} {fault : FormatError}
    (hparse : Image.parse file = .error fault) (path : String) :
    ofFile path file = .error (.rejected path fault) := by
  rw [ofFile, hparse]
  rfl

namespace Directory

variable {σ : Type} {around : Surroundings σ} {directory left : Directory σ}

/-- There is memory for the table of every table file, here and outside. -/
def Loadable (around : Surroundings σ) (directory : Directory σ) : Prop :=
  ∀ path file image, directory.read around path = .ok file → Image.parse file = .ok image →
    ({} : Config).grants image.table.size = true

/-- Where nothing is found outside, what is read is one of the files at hand. -/
theorem mem_of_read (haround : ∀ directory path file, around.read directory path ≠ .ok file)
    {path : String} {file : Bytes} (hread : directory.read around path = .ok file) :
    file ∈ directory.files.map Prod.snd := by
  obtain ⟨target, _, hfound⟩ := bind_eq_ok_iff.mp hread
  cases target with
  | directory => cases hfound
  | outside => exact absurd hfound (haround directory path file)
  | entry name =>
    dsimp only at hfound
    split at hfound
    · cases hfound
    · next content hlookup =>
      split at hfound
      · cases hfound
      · obtain rfl := pure_eq_ok_iff.mp hfound
        obtain ⟨before, behind, hfiles, _⟩ := List.lookup_eq_some_iff.mp hlookup
        rw [hfiles, List.map_append, List.map_cons]
        exact List.mem_append_right _ List.mem_cons_self

theorem loadable_of_forall (haround : ∀ directory path file, around.read directory path ≠ .ok file)
    (hfiles : ∀ file ∈ directory.files.map Prod.snd, ∀ image, Image.parse file = .ok image →
      ({} : Config).grants image.table.size = true) : directory.Loadable around :=
  fun _ file image hread => hfiles file (mem_of_read haround hread) image

/-! ### What the outcome depends on -/

/-- How a run ends that was asked for a command, or for none: the directory it leaves. -/
def verdict (around : Surroundings σ) (directory : Directory σ) :
    Except UsageError Command → Except Failure (Directory σ)
  | .error error => .error (.usage error)
  | .ok command =>
    match directory.read around command.source with
    | .error fault => .error (.unreadable command.source fault.message)
    | .ok file =>
      match command with
      | .pack _ output =>
        (directory.write around output (Image.ofTable (.ofStrings file.lines)).encode).mapError
          fun fault => .unwritable output fault.message
      | .dump _ | .stats _ _ =>
        match Image.parse file with
        | .error fault => .error (.rejected command.source fault)
        | .ok _ => .ok directory

theorem verdict_map_plain (asked : Except UsageError Command) :
    directory.verdict around (asked.map Command.plain) = directory.verdict around asked := by
  cases asked with
  | error error => rfl
  | ok command => cases command <;> rfl

theorem run_of_usage (directory : Directory σ) {arguments : List String} {error : UsageError}
    (herror : Command.ofArguments arguments = .error error) :
    directory.run around arguments = (⟨2, "", error.message ++ "\n"⟩, directory) := by
  rw [run, Session.run_carryOut, herror]
  rfl

/-- The status, the complaint and the directory left, as they follow from the verdict. -/
theorem run_eq_of_verdict (hmemory : directory.Loadable around) (arguments : List String) :
    ((directory.run around arguments).1.status, (directory.run around arguments).1.complaint,
        (directory.run around arguments).2) =
      match directory.verdict around (Command.ofArguments arguments) with
      | .ok left => (0, "", left)
      | .error failure => (failure.status, failure.message ++ "\n", directory) := by
  rw [run, Session.run_carryOut]
  cases Command.ofArguments arguments with
  | error error => rfl
  | ok command =>
    rw [verdict]
    dsimp only
    cases hread : directory.read around command.source with
    | error fault => rfl
    | ok file =>
      cases command with
      | pack input output =>
        dsimp only [Command.process]
        cases directory.write around output _ with
        | error fault => rfl
        | ok left => rfl
      | dump image | stats image =>
        cases hparse : Image.parse file with
        | error fault =>
          simp only [Command.process, LoadedImage.ofFile_of_rejected hparse, hparse]
          rfl
        | ok read =>
          -- The one other way to fail is the load, and that succeeds.
          obtain ⟨loaded, hloaded⟩ :=
            LoadedImage.exists_of_parse hparse (hmemory _ _ _ hread hparse) image
          simp only [Command.process, hloaded, hparse]
          rfl

/-- A file that a write has changed is the one that was named, unless the path leads outside. -/
theorem entry_of_write {path name : String} {content : Bytes}
    (hwrite : directory.write around path content = .ok left)
    (hchanged : left.files.lookup name ≠ directory.files.lookup name) :
    Target.ofPath directory.isFile path = .ok (.entry name) ∨
      Target.ofPath directory.isFile path = .ok .outside ∧
        around.write directory path content = .ok left := by
  obtain ⟨target, htarget, hwritten⟩ := bind_eq_ok_iff.mp hwrite
  cases target with
  | directory => cases hwritten
  | outside => exact .inr ⟨htarget, hwritten⟩
  | entry written =>
    dsimp only at hwritten
    split at hwritten
    · cases hwritten
    · obtain rfl := pure_eq_ok_iff.mp hwritten
      by_cases hname : name = written
      · exact .inl (hname ▸ htarget)
      · have hsame : (name == written) = false := beq_false_of_ne hname
        rw [List.lookup_cons, hsame] at hchanged
        exact absurd rfl hchanged

/-! ### When it fails -/

/-- The command line is at fault, or it names what cannot be read or written. -/
inductive Misused {σ : Type} (around : Surroundings σ) (directory : Directory σ) :
    List String → Prop
  | empty : Misused around directory []
  | option {command word : String} {words : List String} (hword : word ∈ words)
      (hdashes : Command.Dashed word) : Misused around directory (command :: words)
  | command {command : String} {words : List String}
      (hcommand : command ≠ "pack" ∧ command ≠ "dump" ∧ command ≠ "stats") :
      Misused around directory (command :: words)
  | packCount {command : String} {words : List String} (hcommand : command = "pack")
      (hcount : (Command.operands words).length ≠ 2) : Misused around directory (command :: words)
  | lookCount {command : String} {words : List String}
      (hcommand : command = "dump" ∨ command = "stats")
      (hcount : (Command.operands words).length ≠ 1) : Misused around directory (command :: words)
  | unreadable {command source : String} {words rest : List String} {fault : FileFault}
      (hoperands : Command.operands words = source :: rest)
      (hread : directory.read around source = .error fault) :
      Misused around directory (command :: words)
  | unwritable {command input output : String} {words : List String} {file : Bytes}
      {fault : FileFault} (hcommand : command = "pack")
      (hoperands : Command.operands words = [input, output])
      (hread : directory.read around input = .ok file)
      (hwrite : directory.write around output (Image.ofTable (.ofStrings file.lines)).encode
        = .error fault) : Misused around directory (command :: words)

/-- A table file is to be looked at, and the file that is read holds no table. -/
inductive Rejects {σ : Type} (around : Surroundings σ) (directory : Directory σ) :
    List String → Prop
  | intro {command path : String} {words : List String} {file : Bytes} {fault : FormatError}
      (hcommand : command = "dump" ∨ command = "stats")
      (hplain : ∀ word ∈ words, ¬Command.Dashed word)
      (hoperands : Command.operands words = [path]) (hread : directory.read around path = .ok file)
      (hparse : Image.parse file = .error fault) : Rejects around directory (command :: words)

theorem misused_of_usage (directory : Directory σ) {arguments : List String} {error : UsageError}
    (herror : Command.ofArguments arguments = .error error) :
    directory.Misused around arguments := by
  by_contra hnot
  cases arguments with
  | nil => exact hnot .empty
  | cons command words =>
    have hplain : ∀ word ∈ words, ¬Command.Dashed word :=
      fun word hword hdashes => hnot (.option hword hdashes)
    have hcommand : command = "pack" ∨ command = "dump" ∨ command = "stats" := by
      by_contra hother
      obtain ⟨hpack, hlook⟩ := not_or.mp hother
      exact hnot (.command ⟨hpack, not_or.mp hlook⟩)
    obtain ⟨asked, hasks⟩ := Command.exists_asks hcommand
      (fun hpack => by_contra fun hcount => hnot (.packCount hpack hcount))
      (fun hlook => by_contra fun hcount => hnot (.lookCount hlook hcount))
    have hok := Command.ofArguments_eq_ok_iff.mpr ⟨command, words, rfl, hplain, hasks⟩
    exact nomatch herror.symm.trans hok

section Verdict

variable {directory : Directory σ} {command : String} {words : List String} {asked : Command}

theorem verdict_of_misused (hplain : ∀ word ∈ words, ¬Command.Dashed word)
    (hasks : Command.Asks words command asked)
    (hmisused : directory.Misused around (command :: words)) :
    ∃ failure, directory.verdict around (.ok asked) = .error failure ∧ failure.status = 2 := by
  cases hmisused with
  | option hword hdashes => exact absurd hdashes (hplain _ hword)
  | command hcommand =>
    cases hasks with
    | pack => exact absurd rfl hcommand.1
    | dump => exact absurd rfl hcommand.2.1
    | stats => exact absurd rfl hcommand.2.2
  | packCount hcommand hcount =>
    cases hasks with
    | pack hoperands => exact absurd (congrArg List.length hoperands) hcount
    | dump | stats => exact absurd hcommand (by decide)
  | lookCount hcommand hcount =>
    cases hasks with
    | pack hoperands => exact absurd hcommand (by decide)
    | dump hoperands | stats hoperands => exact absurd (congrArg List.length hoperands) hcount
  | unreadable hoperands hread =>
    obtain ⟨rest, hsource⟩ := hasks.operands_eq
    obtain ⟨rfl, _⟩ := List.cons.inj (hsource.symm.trans hoperands)
    exact ⟨_, by rw [verdict, hread], rfl⟩
  | @unwritable _ input output _ file fault hcommand hoperands hread hwrite =>
    cases hasks with
    | pack hgiven =>
      cases hgiven.symm.trans hoperands
      have hsource : directory.read around (Command.pack input output).source = .ok file := hread
      simp only [verdict, hsource, hwrite]
      exact ⟨_, rfl, rfl⟩
    | dump | stats => exact absurd hcommand (by decide)

theorem verdict_of_rejects (hasks : Command.Asks words command asked)
    (hrejects : directory.Rejects around (command :: words)) :
    ∃ failure, directory.verdict around (.ok asked) = .error failure ∧ failure.status = 1 := by
  obtain ⟨hcommand, _, hoperands, hread, hparse⟩ := hrejects
  obtain ⟨rest, hsource⟩ := hasks.operands_eq
  obtain ⟨rfl, _⟩ := List.cons.inj (hsource.symm.trans hoperands)
  cases hasks with
  | pack => exact absurd hcommand (by decide)
  | dump | stats =>
    simp only [verdict, hread, hparse]
    exact ⟨_, rfl, rfl⟩

/-- A verdict against a command that was asked for has one of two statuses, and either tells why. -/
theorem cause_of_verdict (hplain : ∀ word ∈ words, ¬Command.Dashed word)
    (hasks : Command.Asks words command asked) {failure : Failure}
    (hverdict : directory.verdict around (.ok asked) = .error failure) :
    (failure.status = 2 ∧ directory.Misused around (command :: words)) ∨
      (failure.status = 1 ∧ directory.Rejects around (command :: words)) := by
  rw [verdict] at hverdict
  cases hread : directory.read around asked.source with
  | error fault =>
    rw [hread] at hverdict
    obtain rfl := Except.error.inj hverdict
    obtain ⟨rest, hsource⟩ := hasks.operands_eq
    exact .inl ⟨rfl, .unreadable hsource hread⟩
  | ok file =>
    rw [hread] at hverdict
    cases hasks with
    | @pack input output hoperands =>
      cases hwrite : directory.write around output (Image.ofTable (.ofStrings file.lines)).encode with
      | error fault =>
        simp only [hwrite] at hverdict
        obtain rfl := Except.error.inj hverdict
        exact .inl ⟨rfl, .unwritable rfl hoperands hread hwrite⟩
      | ok left =>
        simp only [hwrite] at hverdict
        cases hverdict
    | dump hoperands | stats hoperands =>
      cases hparse : Image.parse file with
      | error fault =>
        simp only [hparse] at hverdict
        obtain rfl := Except.error.inj hverdict
        exact .inr ⟨rfl, .intro (by decide) hplain hoperands hread hparse⟩
      | ok image =>
        simp only [hparse] at hverdict
        cases hverdict

end Verdict

theorem Rejects.exists_asks {directory : Directory σ} {arguments : List String}
    (hrejects : directory.Rejects around arguments) :
    ∃ asked, Command.ofArguments arguments = .ok asked := by
  obtain ⟨hcommand, hplain, hoperands, _, _⟩ := hrejects
  obtain ⟨asked, hasks⟩ := Command.exists_asks (.inr hcommand)
    (fun hpack => absurd (hpack ▸ hcommand) (by decide))
    (fun _ => congrArg List.length hoperands)
  exact ⟨asked, Command.ofArguments_eq_ok_iff.mpr ⟨_, _, rfl, hplain, hasks⟩⟩

theorem verdict_misused_iff (directory : Directory σ) (arguments : List String) :
    (∃ failure, directory.verdict around (Command.ofArguments arguments) = .error failure ∧
      failure.status = 2) ↔ directory.Misused around arguments := by
  cases hasked : Command.ofArguments arguments with
  | error error => exact ⟨fun _ => misused_of_usage directory hasked, fun _ => ⟨_, rfl, rfl⟩⟩
  | ok asked =>
    obtain ⟨command, words, rfl, hplain, hasks⟩ := Command.ofArguments_eq_ok_iff.mp hasked
    refine ⟨?_, verdict_of_misused hplain hasks⟩
    rintro ⟨failure, hverdict, hstatus⟩
    obtain ⟨_, hmisused⟩ | ⟨hother, _⟩ := cause_of_verdict hplain hasks hverdict
    · exact hmisused
    · exact nomatch hstatus.symm.trans hother

theorem verdict_rejects_iff (directory : Directory σ) (arguments : List String) :
    (∃ failure, directory.verdict around (Command.ofArguments arguments) = .error failure ∧
      failure.status = 1) ↔ directory.Rejects around arguments := by
  cases hasked : Command.ofArguments arguments with
  | error error =>
    constructor
    · rintro ⟨failure, hverdict, hstatus⟩
      obtain rfl := Except.error.inj hverdict
      cases hstatus
    · intro hrejects
      obtain ⟨asked, hok⟩ := hrejects.exists_asks
      exact nomatch hasked.symm.trans hok
  | ok asked =>
    obtain ⟨command, words, rfl, hplain, hasks⟩ := Command.ofArguments_eq_ok_iff.mp hasked
    refine ⟨?_, verdict_of_rejects hasks⟩
    rintro ⟨failure, hverdict, hstatus⟩
    obtain ⟨hother, _⟩ | ⟨_, hrejects⟩ := cause_of_verdict hplain hasks hverdict
    · exact nomatch hstatus.symm.trans hother
    · exact hrejects

/-! ### What it leaves -/

/-- What is not as it was before was written by a command that packs. -/
theorem write_of_verdict {arguments : List String}
    (hverdict : directory.verdict around (Command.ofArguments arguments) = .ok left)
    (hchanged : left ≠ directory) :
    ∃ words input output file, arguments = "pack" :: words ∧
      Command.operands words = [input, output] ∧ directory.read around input = .ok file ∧
      directory.write around output (Image.ofTable (.ofStrings file.lines)).encode = .ok left := by
  cases hasked : Command.ofArguments arguments with
  | error error =>
    rw [hasked] at hverdict
    cases hverdict
  | ok asked =>
    obtain ⟨command, words, rfl, _, hasks⟩ := Command.ofArguments_eq_ok_iff.mp hasked
    rw [hasked, verdict] at hverdict
    split at hverdict
    · cases hverdict
    · next file hread =>
      -- A command that looks leaves the directory it found.
      cases hasks with
      | @pack input output hoperands =>
        exact ⟨words, input, output, file, rfl, hoperands, hread, mapError_eq_ok_iff.mp hverdict⟩
      | dump | stats =>
        dsimp only at hverdict
        split at hverdict
        · cases hverdict
        · exact absurd (Except.ok.inj hverdict).symm hchanged

/-! ### Every run -/

/-- How a run ends: with which status, what it complains of, and what it changes. -/
structure Ends {σ : Type} (around : Surroundings σ) (directory : Directory σ)
    (arguments : List String) : Prop where
  two_iff : (directory.run around arguments).1.status = 2 ↔ directory.Misused around arguments
  one_iff : (directory.run around arguments).1.status = 1 ↔ directory.Rejects around arguments
  zero_of : ¬directory.Misused around arguments → ¬directory.Rejects around arguments →
    (directory.run around arguments).1.status = 0
  /-- The first word with dashes is named, whatever the command is. -/
  named : ∀ command before word behind, arguments = command :: (before ++ word :: behind) →
    (∀ other ∈ before, ¬Command.Dashed other) → Command.Dashed word →
    directory.run around arguments = (⟨2, "", "Unknown option: " ++ word ++ "\n"⟩, directory)
  /-- Words that name no files may stand anywhere behind the command, and be repeated. -/
  anywhere : ∀ command words others, arguments = command :: words →
    Command.operands others = Command.operands words →
    let changed := directory.run around (command :: others)
    changed.1.status = (directory.run around arguments).1.status ∧
      changed.1.complaint = (directory.run around arguments).1.complaint ∧
      changed.2 = (directory.run around arguments).2
  /-- A run that fails changes nothing, here and outside, and prints nothing. -/
  failed : (directory.run around arguments).1.status ≠ 0 →
    (directory.run around arguments).2 = directory ∧ (directory.run around arguments).1.output = ""
  /-- Whatever is changed is changed by writing the table file that was asked for. -/
  written : (directory.run around arguments).2 ≠ directory → ∃ words input output file,
    arguments = "pack" :: words ∧ Command.operands words = [input, output] ∧
      directory.read around input = .ok file ∧
      directory.write around output (Image.ofTable (.ofStrings file.lines)).encode
        = .ok (directory.run around arguments).2
  /-- Only the file to be packed into is changed, unless what lies outside leads back to another. -/
  kept : ∀ name,
    (directory.run around arguments).2.files.lookup name ≠ directory.files.lookup name →
    (directory.run around arguments).1.status = 0 ∧ ∃ words input output,
      arguments = "pack" :: words ∧ Command.operands words = [input, output] ∧
      (Target.ofPath directory.isFile output = .ok (.entry name) ∨
        Target.ofPath directory.isFile output = .ok .outside ∧
          ∃ content, around.write directory output content = .ok (directory.run around arguments).2)
  /-- A table file that is read can be loaded, wherever its parts stand. -/
  loads : ∀ path file image, directory.read around path = .ok file → Image.parse file = .ok image →
    ∃ left, (Pool.ofConfig {}).perform (.loadSections file image.header.sections)
      = (.ok (.range ⟨⟨1⟩, ⟨1 + image.table.size⟩⟩), left)

section Ends

variable {directory : Directory σ} (hmemory : directory.Loadable around)

include hmemory

theorem status_run_eq_iff (arguments : List String) {status : Nat} (hstatus : status ≠ 0) :
    (directory.run around arguments).1.status = status ↔
      ∃ failure, directory.verdict around (Command.ofArguments arguments) = .error failure ∧
        failure.status = status := by
  have hrun := congrArg Prod.fst (run_eq_of_verdict hmemory arguments)
  dsimp only at hrun
  rw [hrun]
  cases directory.verdict around (Command.ofArguments arguments) with
  | ok left =>
    constructor
    · exact fun hzero => absurd hzero.symm hstatus
    · rintro ⟨failure, hverdict, _⟩
      cases hverdict
  | error failure =>
    constructor
    · exact fun hsame => ⟨failure, rfl, hsame⟩
    · rintro ⟨other, hverdict, hsame⟩
      obtain rfl := Except.error.inj hverdict
      exact hsame

theorem run_congr_operands (command : String) {words others : List String}
    (hsame : Command.operands others = Command.operands words) :
    ((directory.run around (command :: others)).1.status,
        (directory.run around (command :: others)).1.complaint,
        (directory.run around (command :: others)).2)
      = ((directory.run around (command :: words)).1.status,
        (directory.run around (command :: words)).1.complaint,
        (directory.run around (command :: words)).2) := by
  rw [run_eq_of_verdict hmemory, run_eq_of_verdict hmemory, ← verdict_map_plain,
    Command.ofArguments_congr command hsame, verdict_map_plain]

theorem verdict_of_changed {arguments : List String}
    (hchanged : (directory.run around arguments).2 ≠ directory) :
    directory.verdict around (Command.ofArguments arguments)
      = .ok (directory.run around arguments).2 := by
  have hrun := congrArg (·.2.2) (run_eq_of_verdict hmemory arguments)
  dsimp only at hrun
  cases hverdict : directory.verdict around (Command.ofArguments arguments) with
  | ok left =>
    rw [hverdict] at hrun
    exact congrArg Except.ok hrun.symm
  | error failure =>
    rw [hverdict] at hrun
    exact absurd hrun hchanged

end Ends

end Directory

end TextPool
