import Mathlib.Tactic.Common
import TextPool.CommandLine.Directory
import TextPool.Proofs.Outcome

/-!
# A written file is found by the next command

A word either names a file or it does not, whatever command it stands behind (`Command.NamesFile`),
and where a path leads to does not depend on the files there. So what a run has packed
(`write_of_run_pack`) is what the next run reads under the same word (`read_of_write`).

In a run the command line is looked at, then the file is read, and only then is anything printed or
written, as the last thing that is done (`Session.run_carryOut`). So a run that fails has changed
nothing (`Directory.run_keeps_of_ne_zero`).
-/

namespace TextPool

/-! ### Words -/

namespace Command

/-- The word names a file wherever it stands behind the command. -/
structure NamesFile (word : String) : Prop where
  not_option : isOption word = false
  ne_verbose : word ≠ "verbose"
  ne_json : word ≠ "json"

theorem operands_cons_of_namesFile {word : String} (hword : NamesFile word) (rest : List String) :
    operands (word :: rest) = word :: operands rest :=
  List.filter_cons_of_pos (decide_eq_true ⟨hword.ne_verbose, hword.ne_json⟩)

/-- Behind a command that takes two files, two words are refused unless both name one. -/
theorem ofArguments_pack_eq_ok {input output : String} {command : Command}
    (hcommand : ofArguments ["pack", input, output] = .ok command) :
    NamesFile input ∧ NamesFile output ∧ command = .pack input output := by
  rw [ofArguments] at hcommand
  cases hoption : [input, output].find? isOption with
  | some word =>
    rw [hoption] at hcommand
    exact nomatch hcommand
  | none =>
    simp only [hoption, ofWords] at hcommand
    split at hcommand
    · next first second hwords =>
      -- No word was dropped, for two are left.
      have hkept : ∀ word ∈ [input, output], word ≠ "verbose" ∧ word ≠ "json" := by
        have hlength : (operands [input, output]).length = [input, output].length := by
          rw [hwords]
          rfl
        intro word hword
        exact of_decide_eq_true (List.length_filter_eq_length_iff.mp hlength word hword)
      have hplain : ∀ word ∈ [input, output], isOption word = false := by
        intro word hword
        simpa using List.find?_eq_none.mp hoption word hword
      have hnames : ∀ word ∈ [input, output], NamesFile word := fun word hword =>
        ⟨hplain word hword, (hkept word hword).1, (hkept word hword).2⟩
      obtain ⟨hinput, houtput⟩ := List.forall_mem_cons.mp hnames
      have houtput := List.forall_mem_singleton.mp houtput
      rw [operands_cons_of_namesFile hinput, operands_cons_of_namesFile houtput] at hwords
      cases hwords
      exact ⟨hinput, houtput, (Except.ok.inj hcommand).symm⟩
    · exact nomatch hcommand

theorem ofArguments_of_namesFile {word : String} (hword : NamesFile word) (command : String) :
    ofArguments [command, word] = ofWords command [word] := by
  rw [ofArguments, List.find?_cons_of_neg (by simp [hword.not_option]), List.find?_nil]

theorem ofArguments_json_of_namesFile {word : String} (hword : NamesFile word) (command : String) :
    ofArguments [command, word, "json"] = ofWords command [word, "json"] := by
  rw [ofArguments, List.find?_cons_of_neg (by simp [hword.not_option])]
  rfl

theorem ofArguments_dump {image : String} (himage : NamesFile image) :
    ofArguments ["dump", image] = .ok (.dump image) := by
  rw [ofArguments_of_namesFile himage]
  simp only [ofWords, operands_cons_of_namesFile himage]
  rfl

theorem ofArguments_stats {image : String} (himage : NamesFile image) :
    ofArguments ["stats", image] = .ok (.stats image false) := by
  have hjson : [image].contains "json" = false := by simpa using himage.ne_json.symm
  rw [ofArguments_of_namesFile himage]
  simp only [ofWords, operands_cons_of_namesFile himage, hjson]
  rfl

theorem ofArguments_stats_json {image : String} (himage : NamesFile image) :
    ofArguments ["stats", image, "json"] = .ok (.stats image true) := by
  have hjson : [image, "json"].contains "json" = true := by simp
  rw [ofArguments_json_of_namesFile himage]
  simp only [ofWords, operands_cons_of_namesFile himage, hjson]
  rfl

end Command

/-! ### Paths -/

/-- The files at hand only tell why a path leads nowhere. -/
theorem Target.follow_congr {isFile other : String → Bool} {names : List String} {target : Target}
    (htarget : follow isFile names = .ok target) : follow other names = .ok target := by
  fun_induction follow isFile names with
  | case1 => rwa [follow]
  | case2 _ ih =>
    rw [follow]
    exact ih htarget
  | case3 => rwa [follow]
  | case4 name hdot hdots =>
    rw [follow]
    · exact htarget
    · exact hdot
    · exact hdots
  | case5 => exact nomatch htarget

theorem Target.ofPath_congr {isFile other : String → Bool} {path : String} {target : Target}
    (htarget : ofPath isFile path = .ok target) : ofPath other path = .ok target := by
  unfold ofPath at htarget ⊢
  split_ifs at htarget ⊢ with hempty hrooted
  · exact htarget
  · exact follow_congr htarget

theorem Surroundings.read_bare_ne_ok (directory : Directory Unit) (path : String) (file : Bytes) :
    bare.read directory path ≠ .ok file := by
  intro hread
  simp only [bare] at hread
  split at hread
  · cases hread
  · cases hread

/-- What is written outside is read again by the same path. -/
def Surroundings.ReadsBack {σ : Type} (around : Surroundings σ) : Prop :=
  ∀ directory path content left, around.write directory path content = .ok left →
    around.read left path = .ok content

/-- Surroundings with one file, to which every path leads. -/
def Surroundings.single : Surroundings Bytes where
  read directory _ := .ok directory.outside
  write directory _ content := .ok { directory with outside := content }

theorem Surroundings.readsBack_single : single.ReadsBack := by
  intro directory path content left hwrite
  obtain rfl := Except.ok.inj hwrite
  rfl

section Runs

variable {σ : Type} {around : Surroundings σ} {directory left : Directory σ}

/-- What was written is read by the path it was written to. -/
theorem Directory.read_of_write (haround : around.ReadsBack) {path : String} {content : Bytes}
    (hwrite : directory.write around path content = .ok left) :
    left.read around path = .ok content := by
  obtain ⟨target, htarget, hwritten⟩ := bind_eq_ok_iff.mp hwrite
  refine bind_eq_ok_iff.mpr ⟨target, Target.ofPath_congr htarget, ?_⟩
  cases target with
  | directory => cases hwritten
  | outside => exact haround directory path content left hwritten
  | entry name =>
    by_cases hslash : Path.endsInSlash path = true
    · simp only [if_pos hslash] at hwritten
      cases hwritten
    · simp only [if_neg hslash] at hwritten
      obtain rfl := pure_eq_ok_iff.mp hwritten
      simp only [List.lookup_cons_self, if_neg hslash]
      rfl

/-! ### Runs -/

namespace Session

theorem run_read (session : Session σ) (path : String) :
    ((machine around).read path).run.run session =
      match session.directory.read around path with
      | .ok content => (.ok content, session)
      | .error fault => (.error (.unreadable path fault.message), session) := by
  change (match session.directory.read around path with
    | .ok content => pure content
    | .error fault => throw (.unreadable path fault.message) :
      ExceptT Failure (StateM (Session σ)) Bytes).run.run session = _
  cases session.directory.read around path with
  | ok content => rfl
  | error fault => rfl

theorem run_write (session : Session σ) (path : String) (content : Bytes) :
    ((machine around).write path content).run.run session =
      match session.directory.write around path content with
      | .ok left => (.ok (), { session with directory := left })
      | .error fault => (.error (.unwritable path fault.message), session) := by
  change (match session.directory.write around path content with
    | .ok left => modify fun session => { session with directory := left }
    | .error fault => throw (.unwritable path fault.message) :
      ExceptT Failure (StateM (Session σ)) Unit).run.run session = _
  cases session.directory.write around path content with
  | ok left => rfl
  | error fault => rfl

theorem run_carryOut (session : Session σ) (arguments : List String) :
    ((machine around).carryOut arguments).run.run session =
      match Command.ofArguments arguments with
      | .error error => (.error (.usage error), session)
      | .ok command =>
        match session.directory.read around command.source with
        | .error fault => (.error (.unreadable command.source fault.message), session)
        | .ok file =>
          match command.process file with
          | .error failure => (.error failure, session)
          | .ok (.print text) => (.ok (), { session with output := session.output ++ text })
          | .ok (.write path content) =>
            match session.directory.write around path content with
            | .ok left => (.ok (), { session with directory := left })
            | .error fault => (.error (.unwritable path fault.message), session) := by
  rw [Machine.carryOut]
  cases Command.ofArguments arguments with
  | error error => rfl
  | ok command =>
    dsimp only
    rw [ExceptT.run_bind, StateT.run_bind, run_read]
    cases session.directory.read around command.source with
    | error fault => rfl
    | ok file =>
      change (match command.process file with
        | .error failure => throw failure
        | .ok (.print text) => (machine around).print text
        | .ok (.write path content) => (machine around).write path content :
          ExceptT Failure (StateM (Session σ)) Unit).run.run session = _
      dsimp only
      cases command.process file with
      | error failure => rfl
      | ok effect =>
        cases effect with
        | print text => rfl
        | write path content => exact run_write session path content

/-- Nothing that was done before a failure has changed anything. -/
theorem eq_of_run_carryOut_error {session left : Session σ} {arguments : List String}
    {failure : Failure}
    (hfailed : ((machine around).carryOut arguments).run.run session = (.error failure, left)) :
    left = session := by
  rw [run_carryOut] at hfailed
  split at hfailed
  · exact (Prod.mk.inj hfailed).2.symm
  split at hfailed
  · exact (Prod.mk.inj hfailed).2.symm
  split at hfailed
  · exact (Prod.mk.inj hfailed).2.symm
  · cases hfailed
  split at hfailed
  · cases hfailed
  · exact (Prod.mk.inj hfailed).2.symm

end Session

namespace Directory

/-- A run that fails leaves everything as it was, here and outside. -/
theorem run_keeps_of_ne_zero {arguments : List String}
    (hstatus : (directory.run around arguments).1.status ≠ 0) :
    (directory.run around arguments).2 = directory ∧
      (directory.run around arguments).1.output = "" := by
  rw [run] at hstatus ⊢
  generalize hended : ((Session.machine around).carryOut arguments).run.run ⟨directory, ""⟩ = ended
    at hstatus ⊢
  obtain ⟨ending, left⟩ := ended
  cases ending with
  | ok answer => exact absurd rfl hstatus
  | error failure =>
    obtain rfl := Session.eq_of_run_carryOut_error hended
    exact ⟨rfl, rfl⟩

theorem run_of_print {arguments : List String} {command : Command} {file : Bytes} {text : String}
    (hcommand : Command.ofArguments arguments = .ok command)
    (hread : directory.read around command.source = .ok file)
    (hprocess : command.process file = .ok (.print text)) :
    directory.run around arguments = (⟨0, text, ""⟩, directory) := by
  simp only [run, Session.run_carryOut, hcommand, hread, hprocess, String.empty_append]

/-- A successful packing writes the table of the lines, under a word that names a file. -/
theorem write_of_run_pack {input output : String} {file : Bytes} {outcome : Outcome}
    (hread : directory.read around input = .ok file)
    (hrun : directory.run around ["pack", input, output] = (outcome, left))
    (hstatus : outcome.status = 0) :
    Command.NamesFile output ∧
      directory.write around output (Image.ofTable (.ofStrings file.lines)).encode = .ok left := by
  rw [run, Session.run_carryOut] at hrun
  cases hcommand : Command.ofArguments ["pack", input, output] with
  | error error =>
    rw [hcommand] at hrun
    obtain ⟨rfl, _⟩ := Prod.mk.inj hrun
    exact nomatch hstatus
  | ok command =>
    obtain ⟨_, houtput, rfl⟩ := Command.ofArguments_pack_eq_ok hcommand
    have hsource : directory.read around (Command.pack input output).source = .ok file := hread
    simp only [hcommand, hsource, Command.process] at hrun
    cases hwrite : directory.write around output (Image.ofTable (.ofStrings file.lines)).encode with
    | error fault =>
      rw [hwrite] at hrun
      obtain ⟨rfl, _⟩ := Prod.mk.inj hrun
      exact nomatch hstatus
    | ok written =>
      rw [hwrite] at hrun
      obtain ⟨_, rfl⟩ := Prod.mk.inj hrun
      exact ⟨houtput, rfl⟩

end Directory

end Runs

end TextPool
