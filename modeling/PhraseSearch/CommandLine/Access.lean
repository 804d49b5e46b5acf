import PhraseSearch.Error

/-!
# Access to a system

The program reads and writes files and prints through an `Access`, in any monad.  Where an access
changes some state, `Access.recording` also notes which paths are read, in order.

A `FileSystem` is what the program may rely on: paths lead to places, and where a place is one of a
file, what has been written there is what is read, and stays as it is when another file is opened.
Nothing is asked of other places, such as pipes and terminals.
-/

namespace PhraseSearch.CommandLine

/-- The two streams on which a program prints. -/
inductive Stream where
  | output | error
deriving DecidableEq

/-- What a program asks of the system. -/
structure Access (m : Type → Type) where
  /-- how many threads run at once; one if that is not known -/
  cores : Nat
  /-- the content of a file -/
  read : String → m (Except FileFault ByteArray)
  /-- opens a file to be written: from then on it is there, and empty -/
  create : String → m (Except FileFault Unit)
  /-- fills a file that has been opened -/
  write : String → String → m (Except FileFault Unit)
  /-- prints a text -/
  print : Stream → String → m (Except FileFault Unit)

namespace Access

variable {σ : Type}

/-! ## Recording -/

/-- A step that reads nothing. -/
def noting {α : Type} (step : StateM σ α) : StateM (σ × List String) α :=
  fun (s, paths) => ((step s).1, (step s).2, paths)

/-- The same access, with the paths that have been read. -/
def recording (access : Access (StateM σ)) : Access (StateM (σ × List String)) where
  cores := access.cores
  read path := fun (s, paths) => ((access.read path s).1, (access.read path s).2, paths ++ [path])
  create path := noting (access.create path)
  write path text := noting (access.write path text)
  print stream text := noting (access.print stream text)

/-! ## File systems -/

/-- The places to which paths lead, and what files there are good for. -/
structure FileSystem (access : Access (StateM σ)) where
  Place : Type
  /-- the place to which a path leads; there need not be a file yet -/
  place? : σ → String → Option Place
  /-- whether a place is one of a file, one that may be read if there is a file yet -/
  IsFile : Place → Prop
  /-- reading leaves all paths as they are -/
  place_read : ∀ s path path', place? (access.read path s).2 path' = place? s path'
  /-- so does opening a file, even if it is a new one -/
  place_create : ∀ s opened path path', access.create path s = (.ok (), opened) →
    place? opened path' = place? s path'
  /-- reading changes nothing, unless the path leads to something else than a file -/
  read_state : ∀ s path, (∀ place, place? s path = some place → IsFile place) →
    (access.read path s).2 = s
  /-- what has been written to a file is read from it -/
  read_write : ∀ s s' path place text, place? s path = some place → IsFile place →
    access.write path text s = (.ok (), s') → access.read path s' = (.ok text.toUTF8, s')
  /-- what can be read from another file after one has been opened could be read before -/
  read_create : ∀ s opened path path' content,
    (∀ place, place? s path' = some place → IsFile place) → place? s path ≠ place? s path' →
    access.create path s = (.ok (), opened) → (access.read path' opened).1 = .ok content →
    (access.read path' s).1 = .ok content

namespace FileSystem

variable {access : Access (StateM σ)}

/-- Whether a path leads to a file. -/
def LeadsToFile (fs : access.FileSystem) (s : σ) (path : String) : Prop :=
  ∃ place, fs.place? s path = some place ∧ fs.IsFile place

/-- Whether a path leads to nothing else than a file, if it leads anywhere. -/
def OnlyFile (fs : access.FileSystem) (s : σ) (path : String) : Prop :=
  ∀ place, fs.place? s path = some place → fs.IsFile place

end FileSystem

end Access

end PhraseSearch.CommandLine
