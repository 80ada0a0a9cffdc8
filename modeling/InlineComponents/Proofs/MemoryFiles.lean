import InlineComponents.FileSystem.Memory
import InlineComponents.Proofs.Contents
import InlineComponents.Proofs.NestedPaths

namespace InlineComponents

namespace Memory

/-- What can be done to files in memory. -/
inductive Operation where
  | insert (path : Path) (content : ByteArray)
  | write (path : Path) (content : ByteArray)
  | remove (path : Path)
  | setReadOnly (readOnly : Bool)

def perform (m : Memory) : Operation → Memory
  | .insert path content => m.insert path content
  | .write path content => (m.write path content).2
  | .remove path => (m.remove path).2
  | .setReadOnly readOnly => m.setReadOnly readOnly

/-- The files that operations one after the other leave, none being there at first. -/
def after (operations : List Operation) : Memory :=
  operations.foldl perform .empty

/-- A file is kept under just this path. -/
def Stores (m : Memory) (key : Path) : Prop :=
  (m.files.find? key).isSome = true

/-- Files are kept under clean paths only. -/
def StoresClean (m : Memory) : Prop :=
  ∀ key, m.Stores key → key.clean = key

variable {m : Memory} {p q : Path}

theorem StoresClean.insert (h : m.StoresClean) (p : Path) (content : ByteArray) :
    (m.insert p content).StoresClean := by
  intro key hkey
  change ((m.files.put p.clean content).find? key).isSome = true at hkey
  rw [Table.find?_put] at hkey
  split at hkey
  · next hk => rw [hk, Path.clean_clean]
  · exact h key hkey

theorem StoresClean.perform (h : m.StoresClean) (operation : Operation) :
    (m.perform operation).StoresClean := by
  cases operation with
  | insert path content => exact h.insert path content
  | write path content =>
    change (m.write path content).2.StoresClean
    unfold write
    split
    · exact h
    · exact h.insert path content
  | remove path =>
    intro key hkey
    change ((m.remove path).2.files.find? key).isSome = true at hkey
    rw [find?_remove] at hkey
    split at hkey
    · cases hkey
    · exact h key hkey
  | setReadOnly readOnly => exact h

theorem storesClean_after (operations : List Operation) : (after operations).StoresClean := by
  have hrun : ∀ m : Memory, m.StoresClean → (operations.foldl perform m).StoresClean := by
    induction operations with
    | nil => exact fun m h => h
    | cons operation operations ih => exact fun m h => ih _ (h.perform operation)
  refine hrun .empty ?_
  intro key hkey
  cases hkey

theorem toOption_read (m : Memory) (p : Path) : (m.read p).toOption = m.contents p := by
  unfold read
  split
  · next found hfound => exact hfound.symm
  · next hnone => exact hnone.symm

theorem read_eq_ok_iff {content : ByteArray} :
    m.read p = .ok content ↔ m.contents p = some content := by
  rw [← toOption_read]
  cases m.read p <;> simp [Except.toOption]

theorem contents_congr (m : Memory) (h : p.clean = q.clean) : m.contents p = m.contents q := by
  rw [contents, contents, h]

theorem insert_congr (m : Memory) (h : p.clean = q.clean) (content : ByteArray) :
    m.insert p content = m.insert q content := by
  rw [insert, insert, h]

/-- A write that succeeds is read back at its path, and changes what is read at no other. -/
theorem read_of_write {content : ByteArray} {m' : Memory} (h : m.write p content = (.ok (), m'))
    (q : Path) : m'.read q = if q.clean = p.clean then .ok content else m.read q := by
  have hinsert : m' = m.insert p content := by
    unfold write at h
    split at h
    · cases h
    · exact (congrArg Prod.snd h).symm
  have hcontents : m'.contents q = if q.clean = p.clean then some content else m.contents q := by
    rw [hinsert]
    exact Table.find?_put m.files p.clean q.clean content
  rw [read, hcontents]
  by_cases hq : q.clean = p.clean
  · rw [if_pos hq, if_pos hq]
  · rw [if_neg hq, if_neg hq, read]

theorem write_of_error {content : ByteArray} {error : FileError} {m' : Memory}
    (h : m.write p content = (.error error, m')) : m' = m := by
  unfold write at h
  split at h
  · exact (congrArg Prod.snd h).symm
  · cases h

theorem remove_of_error {error : FileError} {m' : Memory}
    (h : m.remove p = (.error error, m')) : m' = m := by
  unfold remove at h
  split at h
  · cases h
  · exact (congrArg Prod.snd h).symm

theorem stat_eq_file_iff {size : Nat} :
    m.stat p = .ok (.file size) ↔ ∃ content, m.read p = .ok content ∧ content.size = size := by
  simp only [read_eq_ok_iff]
  unfold stat
  split
  · next content hcontent => simp [hcontent]
  · next hnone => split <;> simp [hnone]

theorem stat_eq_directory_iff : m.stat p = .ok .directory ↔
    (∀ content, m.read p ≠ .ok content) ∧ m.isDirectory p.clean = true := by
  simp only [ne_eq, read_eq_ok_iff]
  unfold stat
  split
  · next content hcontent => simp [hcontent]
  · next hnone => split <;> simp_all

theorem pathExists_iff : m.pathExists p = true ↔ ∃ info, m.stat p = .ok info := by
  have hexists : m.pathExists p = ((m.contents p).isSome || m.isDirectory p.clean) := rfl
  rw [hexists]
  unfold stat
  split
  · next content hcontent => simp [hcontent]
  · next hnone => split <;> simp_all

/-- A path is a directory just if a file is kept strictly within it. -/
theorem StoresClean.isDirectory_iff (h : m.StoresClean) (p : Path) :
    m.isDirectory p.clean = true ↔ ∃ key, m.Stores key ∧ key.IsWithin p.clean := by
  rw [Memory.isDirectory_iff]
  constructor
  · rintro ⟨key, hkey, hbelow⟩
    exact ⟨key, hkey, (Path.isBelow_iff_isWithin (Path.clean_clean p) (h key hkey)).mp hbelow⟩
  · rintro ⟨key, hkey, hwithin⟩
    exact ⟨key, hkey, (Path.isBelow_iff_isWithin (Path.clean_clean p) (h key hkey)).mpr hwithin⟩

theorem StoresClean.pathExists_parent (h : m.StoresClean) {key d : Path} (hkey : m.Stores key)
    (habsolute : key.IsAbsolute) (hd : d ∈ key.parents) : m.pathExists d = true := by
  have hwithin : key.IsWithin d.clean := habsolute.isWithin_clean (h key hkey) hd
  have hdirectory := (h.isDirectory_iff d).mpr ⟨key, hkey, hwithin⟩
  simp [pathExists, hdirectory]

/-- All spellings of a path are the same path to each operation, as far as it succeeds, gives
something, or changes the files. An error names the path as it is spelled. -/
structure IgnoresSpelling (m : Memory) : Prop where
  read {p q : Path} : p.clean = q.clean → (m.read p).toOption = (m.read q).toOption
  stat {p q : Path} : p.clean = q.clean → m.stat p = m.stat q
  pathExists {p q : Path} : p.clean = q.clean → m.pathExists p = m.pathExists q
  contents {p q : Path} : p.clean = q.clean → m.contents p = m.contents q
  insert {p q : Path} (content : ByteArray) : p.clean = q.clean →
    m.insert p content = m.insert q content
  write {p q : Path} (content : ByteArray) : p.clean = q.clean →
    (m.write p content).1.toOption = (m.write q content).1.toOption ∧
      (m.write p content).2 = (m.write q content).2
  remove {p q : Path} : p.clean = q.clean →
    (m.remove p).1.toOption = (m.remove q).1.toOption ∧ (m.remove p).2 = (m.remove q).2

theorem ignoresSpelling (m : Memory) : m.IgnoresSpelling where
  read h := by rw [toOption_read, toOption_read, m.contents_congr h]
  stat h := by rw [Memory.stat, Memory.stat, m.contents_congr h, h]
  pathExists h := by rw [Memory.pathExists, Memory.pathExists, h]
  contents h := m.contents_congr h
  insert content h := m.insert_congr h content
  write content h := by
    unfold Memory.write
    split
    · exact ⟨rfl, rfl⟩
    · exact ⟨rfl, m.insert_congr h content⟩
  remove h := by
    rw [Memory.remove, Memory.remove, m.contents_congr h, h]
    split <;> exact ⟨rfl, rfl⟩

/-- What the operations say about the files fits together. -/
structure IsConsistent (m : Memory) : Prop where
  ignoresSpelling : m.IgnoresSpelling
  read_of_write {p : Path} {content : ByteArray} {m' : Memory} :
    m.write p content = (.ok (), m') →
      ∀ q : Path, m'.read q = if q.clean = p.clean then .ok content else m.read q
  pathExists_iff (p : Path) : m.pathExists p = true ↔ ∃ info, m.stat p = .ok info
  stat_eq_file_iff (p : Path) (size : Nat) :
    m.stat p = .ok (.file size) ↔ ∃ content, m.read p = .ok content ∧ content.size = size
  stat_eq_directory_iff (p : Path) : m.stat p = .ok .directory ↔
    (∀ content, m.read p ≠ .ok content) ∧ ∃ key, m.Stores key ∧ key.IsWithin p.clean
  write_of_error {p : Path} {content : ByteArray} {error : FileError} {m' : Memory} :
    m.write p content = (.error error, m') → m' = m
  remove_of_error {p : Path} {error : FileError} {m' : Memory} :
    m.remove p = (.error error, m') → m' = m
  pathExists_parent {key d : Path} : m.Stores key → key.IsAbsolute → d ∈ key.parents →
    m.pathExists d = true

theorem StoresClean.isConsistent (h : m.StoresClean) : m.IsConsistent where
  ignoresSpelling := m.ignoresSpelling
  read_of_write := Memory.read_of_write
  pathExists_iff p := Memory.pathExists_iff
  stat_eq_file_iff p size := Memory.stat_eq_file_iff
  stat_eq_directory_iff p := by rw [Memory.stat_eq_directory_iff, h.isDirectory_iff]
  write_of_error := Memory.write_of_error
  remove_of_error := Memory.remove_of_error
  pathExists_parent := h.pathExists_parent

/-- Whatever has been done to files in memory, what the operations say about them fits together. -/
theorem isConsistent_after (operations : List Operation) : (after operations).IsConsistent :=
  (storesClean_after operations).isConsistent

/-- A file that another lies within is a file, and the root is a directory. -/
theorem isConsistent_after_file_within_file :
    let m := after [.insert ⟨"/a/./b"⟩ "y".toUTF8, .setReadOnly true, .write ⟨"/c"⟩ .empty,
      .setReadOnly false, .write ⟨"/x/../a"⟩ "é".toUTF8]
    let key : Path := ⟨"/a/b"⟩
    (m.Stores key ∧ key.IsAbsolute ∧ key.IsWithin ⟨"/a"⟩) ∧ m.contents ⟨"/c"⟩ = none ∧
      m.stat ⟨"/a/"⟩ = .ok (.file 2) ∧ m.stat ⟨"/"⟩ = .ok .directory ∧
      ∀ d ∈ key.parents, m.pathExists d = true := by
  intro m key
  have h : m.IsConsistent := isConsistent_after _
  have hinserted : Path.clean ⟨"/a/./b"⟩ = key := (Path.clean_eq _).trans (by decide +kernel)
  have hwritten : Path.clean ⟨"/x/../a"⟩ = ⟨"/a"⟩ := (Path.clean_eq _).trans (by decide +kernel)
  have hread : Path.clean ⟨"/a/"⟩ = ⟨"/a"⟩ := (Path.clean_eq _).trans (by decide +kernel)
  have hrefused : Path.clean ⟨"/c"⟩ = ⟨"/c"⟩ := (Path.clean_eq _).trans (by decide +kernel)
  have htop : Path.clean ⟨"/"⟩ = ⟨"/"⟩ := (Path.clean_eq _).trans (by decide +kernel)
  have hfiles : m.files = [(⟨"/a"⟩, "é".toUTF8), (key, "y".toUTF8)] := by
    show Table.put (Table.put [] (Path.clean ⟨"/a/./b"⟩) _) (Path.clean ⟨"/x/../a"⟩) _ = _
    rw [hinserted, hwritten]
    rfl
  have hstores : m.Stores key := by
    rw [Stores, hfiles]
    rfl
  have habsolute : key.IsAbsolute := by
    rw [Path.IsAbsolute]
    decide
  have hwithin : key.IsWithin ⟨"/a"⟩ := ⟨.name "b", [], by decide +kernel⟩
  have hroot : key.IsWithin (Path.clean ⟨"/"⟩) := by
    rw [htop]
    exact ⟨.name "a", [.name "b"], by decide +kernel⟩
  have hfile : m.read ⟨"/a/"⟩ = .ok "é".toUTF8 := by
    rw [read_eq_ok_iff, contents, hread, hfiles]
    rfl
  have hnone : m.contents ⟨"/"⟩ = none := by
    rw [contents, htop, hfiles]
    rfl
  have hrefusal : m.contents ⟨"/c"⟩ = none := by
    rw [contents, hrefused, hfiles]
    rfl
  refine ⟨⟨hstores, habsolute, hwithin⟩, hrefusal, ?_, ?_, ?_⟩
  · exact (h.stat_eq_file_iff ⟨"/a/"⟩ 2).mpr ⟨_, hfile, by decide⟩
  · refine (h.stat_eq_directory_iff ⟨"/"⟩).mpr ⟨?_, key, hstores, hroot⟩
    intro content hread
    rw [read_eq_ok_iff, hnone] at hread
    cases hread
  · exact fun d hd => h.pathExists_parent hstores habsolute hd

end Memory

end InlineComponents
