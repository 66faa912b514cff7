import TerraformTrace.CommandLine.Run

/-!
# TerraformTrace.Main

The command line as a program. It reads from disk what a run may need, runs, and
prints.
-/

namespace TerraformTrace

/-- Adds what lies at a path to a tree. What cannot be read is left out. -/
partial def loadPath (tree : FileTree) (path : String) : IO FileTree := do
  let place := (Path.ofText path.toList).normalize.parts
  try
    let here ← IO.FS.realPath path
    if ← here.isDir then
      let entries ← here.readDir
      entries.foldlM (fun tree entry => loadPath tree (path ++ "/" ++ entry.fileName))
        (tree.makeDirectory place)
    else
      let content ← IO.FS.readBinFile path
      return tree.write place content.toList
  catch _ => return tree

/-- Prints how a command line ended, and gives its exit code. -/
def report : CommandLine.Ending → IO UInt32
  | .usage .help => do
    IO.println CommandLine.usage
    return 0
  | .usage reason => do
    IO.eprintln CommandLine.usage
    return reason.code.toUInt32
  | .broken reason => do
    IO.eprintln (Text.toString reason.message)
    return 1
  | .printed printed => do
    IO.eprint (Text.toString (CommandLine.printedText printed.errors))
    IO.print (Text.toString (CommandLine.printedText printed.output))
    return printed.status.code.toUInt32

end TerraformTrace

open TerraformTrace in
/-- Loads the files, then runs the command line. -/
def main (words : List String) : IO UInt32 := do
  let words := words.map String.toList
  let dir := Path.ofText (← IO.currentDir).toString.toList
  match CommandLine.parse words with
  | .error reason => report (.usage reason)
  | .ok args =>
    let places := args.places dir
    let tree ← places.foldlM (fun tree place => loadPath tree (Text.toString place.toText)) {}
    report (CommandLine.run { tree, directory := dir } words)
