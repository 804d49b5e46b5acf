import PhraseSearch.CommandLine.FileTree

/-!
# The standard tree

The folders, devices and links that systems have in common.  The working directory is a folder of
its own below the one for temporary files.  It is one tree to run the program on; what is proved of
the program holds on any system with files.
-/

namespace PhraseSearch.CommandLine.FileTree

/-- The working directory. -/
def workingFolder : Folder := ["phrase-search", "tmp"]

/-- The devices. -/
def devices : List (String × FileTree) :=
  [("fd", link "/proc/self/fd"), ("full", device .full), ("null", device .null),
    ("random", device .endless), ("stderr", link "/proc/self/fd/2"),
    ("stdin", link "/proc/self/fd/0"), ("stdout", link "/proc/self/fd/1"),
    ("tty", device .terminal), ("urandom", device .endless), ("zero", device .endless)]
  ++ emptyFolders ["pts", "shm"]

/-- What the system tells about the running program. -/
def process : List (String × FileTree) :=
  [("cwd", link ("/" ++ "/".intercalate workingFolder.reverse)), ("exe", device .program),
    ("fd", folder [("0", link "/dev/null"), ("1", device (.stream .output)),
      ("2", device (.stream .error))]),
    ("root", link "/")]

/-- What is shared by all users. -/
def shared : List (String × FileTree) :=
  emptyFolders ["bin", "games", "include", "lib", "lib64", "libexec", "local", "sbin", "share",
    "src"]

/-- What changes while the system runs. -/
def varying : List (String × FileTree) :=
  [("lock", link "/run/lock"), ("run", link "/run")]
  ++ emptyFolders ["cache", "lib", "local", "log", "mail", "opt", "spool", "tmp"]

/-- The tree that systems have in common. -/
def standard : FileTree :=
  folder
    ([("bin", link "usr/bin"), ("dev", folder devices),
      ("etc", folder (emptyFiles ["group", "hosts", "passwd"])), ("lib", link "usr/lib"),
      ("lib64", link "usr/lib64"),
      ("proc", folder [("self", link "program"), ("program", folder process)]),
      ("run", folder (emptyFolders ["lock"])), ("sbin", link "usr/sbin"),
      ("tmp", folder (emptyFolders (workingFolder.take 1))), ("usr", folder shared),
      ("var", folder varying)]
    ++ emptyFolders ["boot", "home", "media", "mnt", "opt", "root", "srv", "sys"])

/-- What the system answers to the wish to make a new file in a folder, if it refuses. -/
def refusal? (folder : Folder) : Option FileFault :=
  match folder.reverse with
  | "proc" :: _ => some .notFound
  | "sys" :: _ => some .permissionDenied
  | "dev" :: "pts" :: _ => some .permissionDenied
  | _ => none

end PhraseSearch.CommandLine.FileTree
