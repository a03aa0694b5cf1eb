import Dotfiles.CommandLine.Run
import Dotfiles.World.Snapshot

/-!
The program as it is run. The surroundings come as a snapshot on standard input, since
a run sees its files all at once; the documents among the files that the snapshot
lists are read from disk.
-/

namespace Dotfiles

/-- Whether a file has the name of a document. -/
def isDocumentName (path : Path) : Bool :=
  [".yaml", ".yml"].any fun ending => Text.startsWith path.reverse ending.toList.reverse

/-- The failure of a call for the reason that the system gives. -/
def Errno.ofSystem : IO.Error → Errno
  | .noFileOrDirectory .. => .noEntry
  | .permissionDenied .. => .denied
  | .inappropriateType .. => .isDirectory
  | _ => .ioFault

/-- A fact together with what reading the file it states, if that is a document, adds
to it: the content of the file or the failure to read it. -/
def withContent : World.Fact → IO (List World.Fact)
  | .node path (.file content) => do
    if !isDocumentName path then return [.node path (.file content)]
    match ← (IO.FS.readBinFile path.str).toBaseIO with
    | .ok data => return [.node path (.file (.bytes data.toList))]
    | .error e =>
      return [.node path (.file content), .fault ⟨.read, path, Errno.ofSystem e⟩]
  | fact => return [fact]

/-- The facts in a snapshot, with the contents of the documents. -/
def readFacts (snapshot : Text) : IO (List World.Fact) := do
  let facts := (Text.split '\n' snapshot).filterMap World.Fact.ofLine?
  return (← facts.mapM withContent).flatten

/-- Shows how a run ends, and gives the status to exit with. -/
def CommandLine.Run.finish (run : CommandLine.Run) : IO UInt32 := do
  IO.print run.out
  IO.eprint run.err
  match run.ending with
  | .finished => return 0
  | .exit status => return UInt32.ofNat (status % 256).toNat
  | .failed _ =>
    IO.eprintln "dbot: a document or a glob could not be used"
    return 1

/-- Runs the program in the surroundings that standard input describes. -/
def runOnSnapshot (args : List String) : IO UInt32 := do
  let snapshot ← (← IO.getStdin).readToEnd
  let facts ← readFacts snapshot.toList
  (CommandLine.run (World.ofFacts facts) (args.map String.toList)).finish

end Dotfiles

/-- The program: shows what a profile compiles to. -/
def main (args : List String) : IO UInt32 := Dotfiles.runOnSnapshot args
