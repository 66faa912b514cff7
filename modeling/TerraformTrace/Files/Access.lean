import TerraformTrace.Files.Tree
import TerraformTrace.Report
import TerraformTrace.Text.Quoted

/-!
# TerraformTrace.Files.Access

Access to the files of a workspace as text. A disk is a file tree, the encoding its
files are read with, the codecs there are, and the places where access fails although the
tree has them.

A failed access is either reported, and then whoever asked goes on as if there were
nothing, or it is of a kind after which the whole request is given up: a path that
cannot be used, an encoding that does not exist or whose codec gives up over a file, or a
listing that broke down.
-/

namespace TerraformTrace

/-- Places at which access fails. -/
structure Outages where
  /-- Files that cannot be read. -/
  unreadable : List Path := []
  /-- Directories that cannot be listed. -/
  unlistable : List Path := []
  /-- Places of which it cannot be told whether they are directories. -/
  unstatable : List Path := []
  /-- Directories whose listing breaks down. -/
  broken : List Path := []
deriving DecidableEq, Repr

/-- A file tree as it can be accessed. -/
structure Disk where
  tree : FileTree
  /-- Name of the encoding of all files. -/
  encoding : Text := "utf-8".toList
  outages : Outages := {}
  /-- What the names of encodings stand for. -/
  codecs : Codecs := .standard

/-- An access that was reported as failed. -/
inductive AccessError
  | list (path : Path) (error : WalkError)
  | read (path : Path) (error : WalkError)
  /-- The bytes of a file are not text of the encoding. -/
  | decode (path : Path) (encoding : Text)
  /-- The place is out of order. -/
  | outage (path : Path) (operation : String)
deriving DecidableEq, Repr

/-- The system's wording of a failed access to a path. -/
def systemMessage (path : Path) (error : WalkError) : Text :=
  error.message (Text.quoted path.toText)

namespace AccessError

/-- The report of a failed access. -/
def report : AccessError → Report Text
  | .list path error =>
    .fileAccess ("Cannot list directory: ".toList ++ systemMessage path error)
      (some path.toText) (some "list".toList)
  | .read path error =>
    .fileAccess ("Cannot read file: ".toList ++ systemMessage path error)
      (some path.toText) (some "read".toList)
  | .decode path encoding =>
    .fileAccess ("Cannot decode file with encoding ".toList ++ encoding)
      (some path.toText) (some "read".toList)
  | .outage path operation =>
    .fileAccess "Access denied".toList (some path.toText) (some operation.toList)

/-- What is logged where the access failed. -/
def logLine? : AccessError → Option Text
  | .list path error =>
    some ("Failed to list directory ".toList ++ path.toText ++ ": ".toList ++
      systemMessage path error)
  | .read path error =>
    some ("Failed to read file ".toList ++ path.toText ++ ": ".toList ++ systemMessage path error)
  | .decode path encoding =>
    some ("Failed to decode file ".toList ++ path.toText ++ " with encoding ".toList ++ encoding)
  | .outage .. => none

end AccessError

/-- How an access can fail. -/
inductive AccessFailure
  /-- The access is reported as failed. -/
  | reported (error : AccessError)
  /-- The path cannot be used. -/
  | unusablePath (error : UnusablePath)
  /-- The name of the encoding has a NUL character. -/
  | unusableEncoding
  /-- There is no codec for the encoding. -/
  | unknownEncoding (name : Text)
  /-- The codec gave up over a file. -/
  | refused (path : Path) (reason : Text)
  /-- Listing this directory broke down. -/
  | brokenListing (path : Path)
deriving DecidableEq, Repr

/-- The wording of a failure. -/
def AccessFailure.message : AccessFailure → Text
  | .reported error => error.report.toText
  | .unusablePath error => error.message
  | .unusableEncoding => "embedded null character".toList
  | .unknownEncoding name => "unknown encoding: ".toList ++ name
  | .refused _ reason => reason
  | .brokenListing path => "Listing broke down: ".toList ++ path.toText

/-- What reading a file comes to, once the codec of an encoding has read its bytes. -/
def decodedText (path : Path) (encoding : Text) :
    Except DecodeError Text → Except AccessFailure Text
  | .ok text => .ok (Text.unifyLineEnds text)
  | .error .undecodable => .error (.reported (.decode path encoding))
  | .error (.refused reason) => .error (.refused path reason)

namespace Disk

/-- Tells whether a place is a directory. -/
def isDirectory (disk : Disk) (path : Path) : Except AccessError Bool :=
  if disk.outages.unstatable.contains path then .error (.outage path "stat")
  else .ok (disk.tree.isDirectory path)

/-- The names in a directory. -/
def list (disk : Disk) (path : Path) : Except AccessFailure (List Text) :=
  if disk.outages.broken.contains path then .error (.brokenListing path)
  else if disk.outages.unlistable.contains path then .error (.reported (.outage path "list"))
  else if path.hasNul then .error (.unusablePath ⟨path⟩)
  else (disk.tree.list path).mapError fun error => .reported (.list path error)

/-- The text of a file. The name of the encoding is looked at before the file is opened,
and its codec is looked for afterwards. -/
def readText (disk : Disk) (path : Path) : Except AccessFailure Text :=
  if disk.outages.unreadable.contains path then .error (.reported (.outage path "read"))
  else if disk.encoding.contains '\x00' then .error .unusableEncoding
  else if path.hasNul then .error (.unusablePath ⟨path⟩)
  else
    match disk.tree.content path with
    | .error error => .error (.reported (.read path error))
    | .ok bytes =>
      match disk.codecs disk.encoding with
      | none => .error (.unknownEncoding disk.encoding)
      | some codec => decodedText path disk.encoding (codec bytes)

end Disk

end TerraformTrace
