import PhraseSearch.CommandLine.Access

/-!
# Trees of files

A `FileTree` is what a name stands for: a folder with the names in it, a file, a device, or a link,
which stands for the path it holds.  A device is read and written like a file, but keeps nothing of
what is written, so it needs no state.
-/

namespace PhraseSearch.CommandLine

/-! ## Devices -/

/-- Something to be read or written that is no file. -/
inductive Device where
  /-- is empty, and swallows what is written -/
  | null
  /-- has no end, and swallows what is written -/
  | endless
  /-- has no end, and no space for anything -/
  | full
  /-- the terminal, which is not there -/
  | terminal
  /-- the program that runs; it is no text -/
  | program
  /-- a stream on which the program prints -/
  | stream (stream : Stream)
deriving DecidableEq

namespace Device

/-- Bytes that are no text. -/
def notText : ByteArray := ⟨#[0xff]⟩

/-- What there is to be read. -/
def content : Device → Except FileFault ByteArray
  | null | stream _ => .ok ByteArray.empty
  | endless | full => .error .outOfMemory
  | terminal => .error .noSuchDevice
  | program => .ok notText

/-- Whether the device can be opened to be written. -/
def checkWritable : Device → Except FileFault Unit
  | null | endless | full | stream _ => .ok ()
  | terminal => .error .noSuchDevice
  | program => .error .programRuns

/-- Whether the device takes a text, once it is open. -/
def checkSpace : Device → String → Except FileFault Unit
  | full, text => if text.isEmpty then .ok () else .error .noSpaceLeft
  | _, _ => .ok ()

end Device

/-! ## Trees -/

/-- What a name stands for. -/
inductive FileTree where
  | folder (entries : List (String × FileTree))
  | file (content : ByteArray)
  | device (device : Device)
  | link (target : String)

/-- A folder: the names that lead to it from the root, the last one first. -/
abbrev Folder := List String

namespace FileTree

/-- What names in a row stand for, the first of them looked up in this folder. -/
def find? : FileTree → List String → Option FileTree
  | tree, [] => some tree
  | folder entries, name :: names =>
    match entries.lookup name with
    | some tree => tree.find? names
    | none => none
  | _, _ => none

/-- What a name stands for in a folder below this one. -/
def entry? (tree : FileTree) (folder : Folder) (name : String) : Option FileTree :=
  tree.find? (name :: folder).reverse

/-- The content of a file. -/
def content? : FileTree → Option ByteArray
  | file content => some content
  | _ => none

/-- Folders without entries, by name. -/
def emptyFolders (names : List String) : List (String × FileTree) :=
  names.map fun name => (name, folder [])

/-- Files without content, by name. -/
def emptyFiles (names : List String) : List (String × FileTree) :=
  names.map fun name => (name, file ByteArray.empty)

end FileTree

end PhraseSearch.CommandLine
