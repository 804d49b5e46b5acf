import PhraseSearch.CommandLine.Host

/-!
# The files of a host

A path of a host leads to a place: a file, which is known by its path, or a device.  Only files are
ever put into a host, and they are put where paths led before, so hosts have all that is asked of
systems with files.

    what can be read                                                   (read_eq_ok_iff)
    what opening a file has done                                       (create_eq_ok)
    the file system of a host                                          (fileSystem)
-/

namespace PhraseSearch.CommandLine.Host

variable {host host' opened : Host} {path path' text : String}

/-- The place to which a path leads: that of a file, or a device. -/
def place? (host : Host) (path : String) : Option (String ⊕ Device) :=
  match host.locate path with
  | .ok (.file folder name _) => some (.inl (host.pathTo folder name))
  | .ok (.device device _) => some (.inr device)
  | _ => none

theorem place?_put (host : Host) (folder : Folder) (name text path : String) :
    (host.put folder name text).place? path = host.place? path := by
  have hsame := host.locate_put folder name text path
  rw [place?, place?, pathTo_put]
  cases hbefore : host.locate path with
  | ok destination => rw [(hsame destination).2 hbefore]
  | error fault =>
    cases hafter : (host.put folder name text).locate path with
    | error fault' => rfl
    | ok destination =>
      rw [(hsame destination).1 hafter] at hbefore
      cases hbefore

/-! ## Steps -/

/-- What can be read is a file or a device. -/
theorem read_eq_ok_iff {content : ByteArray} : host.read path = .ok content ↔
    (∃ folder name, host.locate path = .ok (.file folder name false) ∧ checkName name = .ok () ∧
      host.content? folder name = some content) ∨
    ∃ device, host.locate path = .ok (.device device false) ∧ device.content = .ok content := by
  rw [read]
  rcases hlocate : host.locate path with fault | (_ | ⟨folder, name, slash⟩ | ⟨device, slash⟩)
  · simp [bind, Except.bind]
  · simp [bind, Except.bind]
  · have hthere : (∃ folder' name', Except.ok (Destination.file folder name slash) =
        (.ok (.file folder' name' false) : Except FileFault Destination) ∧
          checkName name' = .ok () ∧ host.content? folder' name' = some content) ↔
        slash = false ∧ checkName name = .ok () ∧ host.content? folder name = some content := by
      constructor
      · rintro ⟨_, _, ⟨⟩, h⟩
        exact ⟨rfl, h⟩
      · rintro ⟨rfl, h⟩
        exact ⟨folder, name, rfl, h⟩
    rw [hthere]
    cases hname : checkName name <;> cases hcontent : host.content? folder name <;>
      cases slash <;> simp [bind, Except.bind, hname, hcontent]
  · cases slash <;> simp [bind, Except.bind]

/-- What is opened becomes an empty file, unless it is a device. -/
theorem create_eq_ok (h : host.create path = .ok opened) :
    (∃ folder name, host.place? path = some (.inl (host.pathTo folder name)) ∧
      opened = host.put folder name "") ∨ opened = host := by
  rw [create] at h
  rw [place?]
  rcases hlocate : host.locate path with fault | (_ | ⟨folder, name, slash⟩ | ⟨device, slash⟩)
  · rw [hlocate] at h
    cases h
  · rw [hlocate] at h
    cases h
  · rw [hlocate] at h
    cases slash with
    | true => cases h
    | false =>
      refine .inl ⟨folder, name, rfl, ?_⟩
      cases hname : checkName name with
      | error fault => simp [bind, Except.bind, hname] at h
      | ok =>
        simp only [bind, Except.bind, hname] at h
        split at h <;> cases h
        rfl
  · rw [hlocate] at h
    cases slash with
    | true => cases h
    | false =>
      refine .inr ?_
      cases hwritable : device.checkWritable with
      | error fault => simp [bind, Except.bind, hwritable] at h
      | ok =>
        simp only [bind, Except.bind, hwritable] at h
        cases h
        rfl

/-- What is written to a file is its content. -/
theorem write_eq_ok {place : String} (hplace : host.place? path = some (.inl place))
    (h : host.write path text = .ok host') :
    ∃ folder name, host.locate path = .ok (.file folder name false) ∧ checkName name = .ok () ∧
      host' = host.put folder name text := by
  rw [write] at h
  rw [place?] at hplace
  rcases hlocate : host.locate path with fault | (_ | ⟨folder, name, slash⟩ | ⟨device, slash⟩)
  · rw [hlocate] at h
    cases h
  · rw [hlocate] at h
    cases h
  · rw [hlocate] at h
    cases slash with
    | true => cases h
    | false =>
      refine ⟨folder, name, rfl, ?_⟩
      cases hname : checkName name with
      | error fault => simp [bind, Except.bind, hname] at h
      | ok =>
        simp only [bind, Except.bind, hname] at h
        cases h
        exact ⟨rfl, rfl⟩
  · rw [hlocate] at hplace
    cases hplace

theorem attempt_eq_ok_iff (step : Host → Except FileFault Host) :
    attempt step host = (.ok (), host') ↔ step host = .ok host' := by
  rw [attempt]
  cases step host with
  | error fault => exact iff_of_false nofun nofun
  | ok changed => constructor <;> (intro h; cases h; rfl)

theorem access_create_iff : access.create path host = (.ok (), opened) ↔
    host.create path = .ok opened := attempt_eq_ok_iff (·.create path)

theorem access_write_iff : access.write path text host = (.ok (), host') ↔
    host.write path text = .ok host' := attempt_eq_ok_iff (·.write path text)

/-! ## The file system -/

theorem place?_of_create (h : host.create path = .ok opened) (path' : String) :
    opened.place? path' = host.place? path' := by
  rcases create_eq_ok h with ⟨folder, name, -, rfl⟩ | rfl
  · exact place?_put host folder name "" path'
  · rfl

/-- A file that has been written reads back. -/
theorem read_of_write {place : String} (hplace : host.place? path = some (.inl place))
    (h : host.write path text = .ok host') : host'.read path = .ok text.toUTF8 := by
  obtain ⟨folder, name, hlocate, hname, rfl⟩ := write_eq_ok hplace h
  exact read_eq_ok_iff.2 (.inl ⟨folder, name, (host.locate_put folder name text path _).2 hlocate,
    hname, content?_put host folder name text⟩)

/-- What is read from another place after a file has been opened could have been read before. -/
theorem read_of_create {content : ByteArray} (hapart : host.place? path ≠ host.place? path')
    (hopen : host.create path = .ok opened) (h : opened.read path' = .ok content) :
    host.read path' = .ok content := by
  rcases create_eq_ok hopen with ⟨folder, name, hplace, rfl⟩ | rfl
  · rw [read_eq_ok_iff] at h ⊢
    simp only [locate_put] at h
    refine h.imp_left ?_
    rintro ⟨folder', name', hlocate, hname, hcontent⟩
    have hne : host.pathTo folder name ≠ host.pathTo folder' name' := by
      intro heq
      refine hapart (hplace.trans ?_)
      rw [place?, hlocate, heq]
    rw [content?_put_of_ne hne] at hcontent
    exact ⟨folder', name', hlocate, hname, hcontent⟩
  · exact h

/-- The file system of a host. -/
def fileSystem : access.FileSystem where
  Place := String ⊕ Device
  place? := place?
  IsFile place := place.isLeft = true
  place_read _ _ _ := rfl
  place_create _ _ _ path' h := place?_of_create (access_create_iff.1 h) path'
  read_state _ _ _ := rfl
  read_write _ _ _ place _ hplace hfile h := by
    obtain ⟨file, rfl⟩ := Sum.isLeft_iff.1 hfile
    exact Prod.ext (read_of_write hplace (access_write_iff.1 h)) rfl
  read_create _ _ _ _ _ _ hapart hopen h :=
    read_of_create hapart (access_create_iff.1 hopen) h

end PhraseSearch.CommandLine.Host
