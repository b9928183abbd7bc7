import TextPool.CommandLine.Arguments
import TextPool.CommandLine.Pieces
import TextPool.Image.Basic
import TextPool.Pool.Listing
import TextPool.Pool.Loading
import TextPool.Table.Builder

/-!
# The program

Each command reads one file, and from its bytes alone follows what is done (`Command.process`): a
text is printed, a file is written, or the file is refused. Files are read and written by the
machine that the program runs on (`Machine`), so it is the same program wherever they come from.
-/

namespace TextPool

/-- Why a command was not carried out. -/
inductive Failure where
  | usage (error : UsageError)
  | unreadable (path reason : String)
  | unwritable (path reason : String)
  | rejected (path : String) (fault : FormatError)
  | unloadable (error : PoolError)
  | unprintable (reason : String)
  deriving DecidableEq

namespace Failure

def message : Failure → String
  | usage error => error.message
  | unreadable path reason => "Read failed: " ++ path ++ ": " ++ reason
  | unwritable path reason => "Write failed: " ++ path ++ ": " ++ reason
  | rejected path fault => path ++ ": " ++ fault.message
  | unloadable error => error.message
  | unprintable reason => "stdout error: " ++ reason

/-- The status with which the program ends: one if the content of a file is at fault, and two if
the command line is, or what it names cannot be read or written. -/
def status : Failure → Nat
  | rejected _ _ | unloadable _ => 1
  | usage _ | unreadable _ _ | unwritable _ _ | unprintable _ => 2

end Failure

/-- What a command does once it has read its file. -/
inductive Effect where
  | print (text : String)
  | write (path : String) (content : Bytes)
  deriving DecidableEq

structure Figures where
  strings : Nat
  blobBytes : Nat
  firstHandle : Nat
  capacity : Nat
  boundary : Nat
  deriving DecidableEq

namespace Figures

def text (figures : Figures) : String :=
  s!"strings={figures.strings} blob_bytes={figures.blobBytes} capacity={figures.capacity} "
    ++ s!"boundary={figures.boundary}\n"

def json (figures : Figures) : String :=
  "\x7b" ++ s!"\"blob_bytes\":{figures.blobBytes},\"boundary\":{figures.boundary},"
    ++ s!"\"capacity\":{figures.capacity},\"first_handle\":{figures.firstHandle},"
    ++ s!"\"strings\":{figures.strings}" ++ "\x7d\n"

end Figures

/-- A table file, and the pool into which its table was loaded. -/
structure LoadedImage where
  image : Image
  handles : HandleRange
  pool : Pool

namespace LoadedImage

/-- Reads a table file and loads its table into a new pool. -/
def ofFile (path : String) (file : Bytes) : Except Failure LoadedImage := do
  let image ← (Image.parse file).mapError (Failure.rejected path)
  match (Pool.loadSections file image.header.sections).runOn (Pool.ofConfig {}) with
  | (.ok handles, pool) => return ⟨image, handles, pool⟩
  | (.error error, _) => throw (.unloadable error)

def figures (loaded : LoadedImage) : Figures where
  strings := loaded.image.table.size
  blobBytes := loaded.image.table.blob.length
  firstHandle := loaded.handles.first.index
  capacity := loaded.pool.capacity
  boundary := loaded.pool.boundary

end LoadedImage

namespace Command

/-- What a command does with the content of its file. -/
def process (command : Command) (file : Bytes) : Except Failure Effect :=
  match command with
  | pack _ output => .ok (.write output (Image.ofTable (StringTable.ofStrings file.lines)).encode)
  | dump image => do
    let loaded ← LoadedImage.ofFile image file
    return .print loaded.pool.dump
  | stats image json => do
    let loaded ← LoadedImage.ofFile image file
    return .print (if json then loaded.figures.json else loaded.figures.text)

end Command

/-! ### Running it -/

/-- What the program asks of the machine it runs on. Any of it may be refused. -/
structure Machine (m : Type → Type) where
  read : String → ExceptT Failure m Bytes
  write : String → Bytes → ExceptT Failure m Unit
  print : String → ExceptT Failure m Unit

/-- Carries out a command line. What has been done before a failure stays done. -/
def Machine.carryOut {m : Type → Type} [Monad m] (machine : Machine m) (arguments : List String) :
    ExceptT Failure m Unit := do
  match Command.ofArguments arguments with
  | .error error => throw (.usage error)
  | .ok command =>
    let file ← machine.read command.source
    match command.process file with
    | .error failure => throw failure
    | .ok (.print text) => machine.print text
    | .ok (.write path content) => machine.write path content

end TextPool
