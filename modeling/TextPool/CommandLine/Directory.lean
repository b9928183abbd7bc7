import TextPool.CommandLine.Program

/-!
# Running in a directory

A directory without subdirectories, what the program does there, and what it leaves. A run of
several commands hands the directory on from one to the next.

Every name of a path has to be found before the next one is looked at, also when the next one is a
dot or two dots. So a path is followed name by name and not shortened beforehand: a name, two dots
and another name lead nowhere if the first name is missing. A path that begins at the root or passes
through two dots leaves the directory, and what becomes of it is up to what lies there
(`Surroundings`).
-/

namespace TextPool

/-! ### Where a path leads -/

/-- Why a file cannot be read or written. -/
inductive FileFault where
  | missing
  | notDirectory
  | isDirectory
  /-- Anything else, in the words of what refuses it. -/
  | refused (reason : String)
  deriving DecidableEq

/-- The wording of a fault, with its number. -/
def FileFault.message : FileFault → String
  | missing => "No such file or directory (os error 2)"
  | notDirectory => "Not a directory (os error 20)"
  | isDirectory => "Is a directory (os error 21)"
  | refused reason => reason

inductive Target where
  /-- The directory at hand. -/
  | directory
  /-- An entry of the directory at hand, whether it is there or not. -/
  | entry (name : String)
  | outside
  deriving DecidableEq

namespace Target

/-- What the names of a path lead to, if `isFile` tells the files at hand. A name, which can only be
that of a file, cannot be passed through. -/
def follow (isFile : String → Bool) : List String → Except FileFault Target
  | [] => .ok .directory
  | "." :: rest => follow isFile rest
  | ".." :: _ => .ok .outside
  | [name] => .ok (.entry name)
  | name :: _ => .error (if isFile name then .notDirectory else .missing)

/-- What a path leads to. The empty path leads nowhere. -/
def ofPath (isFile : String → Bool) (path : String) : Except FileFault Target :=
  if path = "" then .error .missing
  else if Path.isRooted path then .ok .outside
  else follow isFile (Path.names path)

end Target

/-! ### Files -/

structure Directory (σ : Type) where
  /-- The files, by name. Of two with the same name the first counts. -/
  files : List (String × Bytes)
  /-- The state that everything outside is in. -/
  outside : σ

/-- What lies outside a directory, as far as paths that leave it are read and written. Such a path
may come back to the directory. One that is refused has changed nothing. -/
structure Surroundings (σ : Type) where
  read : Directory σ → String → Except FileFault Bytes
  write : Directory σ → String → Bytes → Except FileFault (Directory σ)

/-- Surroundings with no files and no room for any: directories above, and none known by name. -/
def Surroundings.bare : Surroundings Unit where
  read _ path :=
    match (Path.names path).dropWhile fun name => name = "." ∨ name = ".." with
    | [] => .error .isDirectory
    | _ => .error .missing
  write _ path _ :=
    match (Path.names path).dropWhile fun name => name = "." ∨ name = ".." with
    | [] => .error .isDirectory
    | [_] => .error (if Path.endsInSlash path then .isDirectory else .missing)
    | _ => .error .missing

namespace Directory

variable {σ : Type} (around : Surroundings σ) (directory : Directory σ)

def isFile (name : String) : Bool :=
  (directory.files.lookup name).isSome

def read (path : String) : Except FileFault Bytes := do
  match ← Target.ofPath directory.isFile path with
  | .directory => throw .isDirectory
  | .outside => around.read directory path
  | .entry name =>
    match directory.files.lookup name with
    | none => throw .missing
    | some content => if Path.endsInSlash path then throw .notDirectory else return content

/-- The directory after a file is written, over the one that had its name. A path that asks for a
directory is refused, whether there is one or not. -/
def write (path : String) (content : Bytes) : Except FileFault (Directory σ) := do
  match ← Target.ofPath directory.isFile path with
  | .directory => throw .isDirectory
  | .outside => around.write directory path content
  | .entry name =>
    if Path.endsInSlash path then throw .isDirectory
    else return { directory with files := (name, content) :: directory.files }

end Directory

/-! ### Runs -/

/-- The directory at hand, and what has been printed so far. -/
structure Session (σ : Type) where
  directory : Directory σ
  output : String

/-- The machine that a session is. Only what succeeds changes it. -/
def Session.machine {σ : Type} (around : Surroundings σ) : Machine (StateM (Session σ)) where
  read path := do
    match (← get).directory.read around path with
    | .ok content => return content
    | .error fault => throw (.unreadable path fault.message)
  write path content := do
    match (← get).directory.write around path content with
    | .ok left => modify fun session => { session with directory := left }
    | .error fault => throw (.unwritable path fault.message)
  print text := modify fun session => { session with output := session.output ++ text }

/-- What can be seen of a finished run. -/
structure Outcome where
  status : Nat
  output : String
  complaint : String
  deriving DecidableEq

/-- Runs the program with the given words in a directory. -/
def Directory.run {σ : Type} (around : Surroundings σ) (directory : Directory σ)
    (arguments : List String) : Outcome × Directory σ :=
  match ((Session.machine around).carryOut arguments).run.run ⟨directory, ""⟩ with
  | (.ok _, left) => (⟨0, left.output, ""⟩, left.directory)
  | (.error failure, left) =>
    (⟨failure.status, left.output, failure.message ++ "\n"⟩, left.directory)

end TextPool
