import PhraseSearch.CommandLine.FileTree
import PhraseSearch.Text.Blank

/-!
# Paths

A path is a list of steps between slashes.  Empty steps and single dots stay where they are, two
dots lead up, and every other step is a name.  A link puts the steps of its path in the place of
its name; so many of them are followed, and no more.

`follow` goes along the steps in a tree that never changes; the files that come and go are only
known by `isFile`.

    whether a path leads to a file does not depend on the files there are      (follow_of_eq_ok)
-/

namespace PhraseSearch.CommandLine

/-- Where a path leads to.  With a `slash` the path ends in one, so that it asks for a folder. -/
inductive Destination where
  | folder
  /-- a name in a folder, of a file that may not be there -/
  | file (folder : Folder) (name : String) (slash : Bool)
  | device (device : Device) (slash : Bool)
deriving DecidableEq

/-- The longest path, in bytes. -/
def maxPathLength : Nat := 4095

/-- The longest name of a file or a folder, in bytes. -/
def maxNameLength : Nat := 255

/-- How many links are followed on one path. -/
def maxLinks : Nat := 40

/-- Fails on a name that is too long to be looked up. -/
def checkName (name : String) : Except FileFault Unit :=
  if maxNameLength < name.utf8ByteSize then .error .nameTooLong else .ok ()

/-- The steps of a path. -/
def stepsOf (path : String) : List String :=
  (Text.splitWhere (· == '/') path.toList).map String.ofList

/-- The folder where a path begins: the root, or the one where it is found. -/
def beginning (folder : Folder) (path : String) : Folder :=
  if path.toList.head? = some '/' then [] else folder

/-- Goes along steps from a folder, and hands over to `jump` at a link. -/
def followSteps (tree : FileTree) (isFile : Folder → String → Bool)
    (jump : Folder → List String → Except FileFault Destination) (folder : Folder) :
    List String → Except FileFault Destination
  | [] => .ok .folder
  | step :: steps =>
    if step = "" ∨ step = "." then followSteps tree isFile jump folder steps
    else if step = ".." then followSteps tree isFile jump folder.tail steps
    else
      match tree.entry? folder step with
      | some (.folder _) => followSteps tree isFile jump (step :: folder) steps
      | some (.link target) => jump (beginning folder target) (stepsOf target ++ steps)
      | some (.device device) =>
        if steps.all String.isEmpty then .ok (.device device !steps.isEmpty)
        else .error .notADirectory
      | _ =>
        if steps.all String.isEmpty then .ok (.file folder step !steps.isEmpty)
        else
          match checkName step with
          | .error fault => .error fault
          | .ok () => if isFile folder step then .error .notADirectory else .error .notFound

/-- Goes along steps from a folder, through so many links at most. -/
def follow (tree : FileTree) (isFile : Folder → String → Bool) :
    Nat → Folder → List String → Except FileFault Destination
  | 0 => followSteps tree isFile fun _ _ => .error .tooManyLinks
  | links + 1 => followSteps tree isFile (follow tree isFile links)

/-- Goes along a path that is found in a folder. -/
def followPath (tree : FileTree) (isFile : Folder → String → Bool) (folder : Folder)
    (path : String) : Except FileFault Destination :=
  if path.isEmpty then .error .notFound
  else if maxPathLength < path.utf8ByteSize then .error .nameTooLong
  else follow tree isFile maxLinks (beginning folder path) (stepsOf path)

/-! ## Lemmas -/

theorem followSteps_of_eq_ok {tree : FileTree} {isFile isFile' : Folder → String → Bool}
    {jump jump' : Folder → List String → Except FileFault Destination}
    (hjump : ∀ folder steps destination,
      jump folder steps = .ok destination → jump' folder steps = .ok destination)
    {folder : Folder} {steps : List String} {destination : Destination}
    (h : followSteps tree isFile jump folder steps = .ok destination) :
    followSteps tree isFile' jump' folder steps = .ok destination := by
  induction steps generalizing folder with
  | nil => exact h
  | cons step steps ih =>
    rw [followSteps] at h ⊢
    split at h
    · next hstay => rw [if_pos hstay]; exact ih h
    · next hstay =>
      rw [if_neg hstay]
      split at h
      · next hup => rw [if_pos hup]; exact ih h
      · next hup =>
        rw [if_neg hup]
        split at h
        · exact ih h
        · exact hjump _ _ _ h
        · exact h
        · split at h
          · next hlast => rw [if_pos hlast]; exact h
          · split at h
            · cases h
            · split at h <;> cases h

theorem follow_of_eq_ok {tree : FileTree} {isFile isFile' : Folder → String → Bool} {links : Nat}
    {folder : Folder} {steps : List String} {destination : Destination}
    (h : follow tree isFile links folder steps = .ok destination) :
    follow tree isFile' links folder steps = .ok destination := by
  induction links generalizing folder steps destination with
  | zero => exact followSteps_of_eq_ok (fun _ _ _ h => h) h
  | succ links ih => exact followSteps_of_eq_ok (fun _ _ _ => ih) h

theorem followPath_of_eq_ok {tree : FileTree} {isFile isFile' : Folder → String → Bool}
    {folder : Folder} {path : String} {destination : Destination}
    (h : followPath tree isFile folder path = .ok destination) :
    followPath tree isFile' folder path = .ok destination := by
  rw [followPath] at h ⊢
  split at h
  · cases h
  · next hempty =>
    rw [if_neg hempty]
    split at h
    · cases h
    · next hlong => rw [if_neg hlong]; exact follow_of_eq_ok h

end PhraseSearch.CommandLine
