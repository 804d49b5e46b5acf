import PhraseSearch.CommandLine.Path
import PhraseSearch.CommandLine.StandardTree
import PhraseSearch.NameMap

/-!
# Hosts

A `Host` is a system that is a plain value: a tree of folders, devices and links that never changes,
the files that have been put into it, and what has been printed.  `Host.access` is the access to it.

    a file has the content that is put into it                         (content?_put)
    other files keep theirs                                            (content?_put_of_ne)
    paths lead where they did                                          (locate_put)
-/

namespace PhraseSearch.CommandLine

/-- A system as a value. -/
structure Host where
  tree : FileTree
  /-- the folder in which paths begin -/
  folder : Folder
  /-- the files of that folder by name, and others by their path from the root -/
  files : NameMap ByteArray
  /-- what has been printed to standard output -/
  output : String
  /-- what has been printed to standard error -/
  errors : String

namespace Host

/-- A host of the standard kind on which nothing has been printed. -/
def ofFiles (files : NameMap ByteArray) : Host :=
  ⟨.standard, FileTree.workingFolder, files, "", ""⟩

/-- The path by which a file is known. -/
def pathTo (host : Host) (folder : Folder) (name : String) : String :=
  if folder = host.folder then name else "/" ++ "/".intercalate (name :: folder).reverse

/-- The content of a file. -/
def content? (host : Host) (folder : Folder) (name : String) : Option ByteArray :=
  match host.files.get? (host.pathTo folder name) with
  | some content => some content
  | none => (host.tree.entry? folder name).bind FileTree.content?

/-- Where a path leads to. -/
def locate (host : Host) (path : String) : Except FileFault Destination :=
  followPath host.tree (fun folder name => (host.content? folder name).isSome) host.folder path

/-- Puts a file into a folder, with a new content if it is there. -/
def put (host : Host) (folder : Folder) (name text : String) : Host :=
  { host with files := host.files.insert (host.pathTo folder name) text.toUTF8 }

/-- Prints a text. -/
def print (host : Host) : Stream → String → Host
  | .output, text => { host with output := host.output ++ text }
  | .error, text => { host with errors := host.errors ++ text }

/-- The content of the file that a path leads to. -/
def read (host : Host) (path : String) : Except FileFault ByteArray := do
  match ← host.locate path with
  | .folder => .error .isADirectory
  | .device device slash => if slash then .error .notADirectory else device.content
  | .file folder name slash =>
    checkName name
    match host.content? folder name with
    | none => .error .notFound
    | some content => if slash then .error .notADirectory else .ok content

/-- The host after a file has been opened to be written.  A path that ends in a slash asks for a
folder, whatever is there. -/
def create (host : Host) (path : String) : Except FileFault Host := do
  match ← host.locate path with
  | .folder | .file _ _ true | .device _ true => .error .isADirectory
  | .device device false =>
    device.checkWritable
    return host
  | .file folder name false =>
    checkName name
    match FileTree.refusal? folder, host.content? folder name with
    | some fault, none => .error fault
    | _, _ => .ok (host.put folder name "")

/-- The host after an open file has been filled. -/
def write (host : Host) (path text : String) : Except FileFault Host := do
  match ← host.locate path with
  | .folder | .file _ _ true | .device _ true => .error .isADirectory
  | .device device false =>
    device.checkSpace text
    match device with
    | .stream stream => return host.print stream text
    | _ => return host
  | .file folder name false =>
    checkName name
    return host.put folder name text

/-- A step that changes the host, or fails and leaves it as it is. -/
def attempt (step : Host → Except FileFault Host) : StateM Host (Except FileFault Unit) :=
  fun host =>
    match step host with
    | .ok host => (.ok (), host)
    | .error fault => (.error fault, host)

/-- The host as something that a program changes. -/
def access : Access (StateM Host) where
  cores := 1
  read path := fun host => (host.read path, host)
  create path := attempt (·.create path)
  write path text := attempt (·.write path text)
  print stream text := fun host => (.ok (), host.print stream text)

/-! ## Lemmas -/

theorem pathTo_put (host : Host) (folder : Folder) (name text : String) :
    (host.put folder name text).pathTo = host.pathTo := rfl

theorem content?_put (host : Host) (folder : Folder) (name text : String) :
    (host.put folder name text).content? folder name = some text.toUTF8 := by
  rw [content?, pathTo_put]
  simp [put]

/-- Only the file itself is changed. -/
theorem content?_put_of_ne {host : Host} {folder folder' : Folder} {name name' text : String}
    (h : host.pathTo folder name ≠ host.pathTo folder' name') :
    (host.put folder name text).content? folder' name' = host.content? folder' name' := by
  rw [content?, content?, pathTo_put]
  simp [put, Ne.symm h]

/-- Paths lead where they did after a file has been put into a folder. -/
theorem locate_put (host : Host) (folder : Folder) (name text path : String)
    (destination : Destination) :
    (host.put folder name text).locate path = .ok destination ↔
      host.locate path = .ok destination :=
  ⟨followPath_of_eq_ok, followPath_of_eq_ok⟩

end Host

end PhraseSearch.CommandLine
