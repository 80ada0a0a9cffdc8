import InlineComponents.FileSystem.Memory
import InlineComponents.Proofs.PackageSearch
import InlineComponents.Proofs.Reading
import InlineComponents.Proofs.Utf8Texts

namespace InlineComponents

/-- A file lies below a path if its own goes on after a slash. -/
def Path.IsBelow (key path : Path) : Prop :=
  key ≠ path ∧ key.text.startsWith (path.join "").text = true

/-- A relative name goes behind a slash. -/
theorem Path.join_eq {p : Path} {name : String} (hname : name.toList.head? ≠ some '/')
    (hempty : p.text ≠ "") (hp : p.text.toList.getLast? ≠ some '/') :
    p.join name = ⟨p.text ++ "/" ++ name⟩ := by
  have hstart : ¬ name.startsWith '/' = true := by
    rw [String.startsWith_char_eq_head?]
    simpa using hname
  have hend : ¬ (p.text.isEmpty || p.text.endsWith '/') = true := by
    rw [String.endsWith_char_eq_getLast?]
    simp [hempty, hp]
  rw [join, if_neg hstart, if_neg hend]

namespace Package

theorem installedIn_eq {name : String} {dir : Path} (hname : name.toList.head? ≠ some '/')
    (hempty : dir.text ≠ "") (hdir : dir.text.toList.getLast? ≠ some '/') :
    installedIn dir name = ⟨dir.text ++ "/node_modules/" ++ name⟩ := by
  have hmodules : dir.join "node_modules" = ⟨dir.text ++ "/" ++ "node_modules"⟩ :=
    Path.join_eq (by decide) hempty hdir
  rw [installedIn, hmodules, Path.join_eq hname (by simp) (by simp)]
  simp [String.append_assoc]

/-- The metadata of a package is looked for at its name, below the directory of packages. -/
theorem candidate_eq {name : String} {dir : Path} (hname : name.toList.head? ≠ some '/')
    (hlast : ("/node_modules/" ++ name).toList.getLast? ≠ some '/') (hempty : dir.text ≠ "")
    (hdir : dir.text.toList.getLast? ≠ some '/') :
    candidate name dir = ⟨dir.text ++ "/node_modules/" ++ name ++ "/package.json"⟩ := by
  have hend : (dir.text ++ "/node_modules/" ++ name).toList.getLast? ≠ some '/' := by
    rw [String.append_assoc, String.toList_append, List.getLast?_append_of_ne_nil _ (by simp)]
    exact hlast
  rw [candidate, metadataPath, installedIn_eq hname hempty hdir,
    Path.join_eq (by decide) (by simp) hend]
  simp [String.append_assoc, metadataName]

end Package

namespace Memory

variable {m m' : Memory} {path : Path}

theorem isDirectory_iff : m.isDirectory path = true ↔
    ∃ key, (m.files.find? key).isSome = true ∧ key.IsBelow path := by
  have hkey (key : Path) : (m.files.find? key).isSome = true ↔ ∃ content, (key, content) ∈ m.files := by
    simp [Table.find?]
  unfold isDirectory
  simp only [List.any_eq_true, Bool.and_eq_true, decide_eq_true_eq, hkey]
  constructor
  · rintro ⟨entry, he, hstart, hne⟩
    exact ⟨entry.1, ⟨entry.2, he⟩, hne, hstart⟩
  · rintro ⟨key, ⟨content, he⟩, hne, hstart⟩
    exact ⟨(key, content), he, hstart, hne⟩

theorem pathExists_of_contents {content : ByteArray} (h : m.contents path = some content) :
    FileSystem.pathExists m path = true := by
  change m.files.find? path.clean = some content at h
  show m.pathExists path = true
  rw [Memory.pathExists, h]
  rfl

/-- The same files are at a path and below it. -/
def AgreeAt (m m' : Memory) (path : Path) : Prop :=
  ∀ key : Path, key = path.clean ∨ key.IsBelow path.clean → m'.files.find? key = m.files.find? key

theorem AgreeAt.contents (h : AgreeAt m m' path) : m'.contents path = m.contents path :=
  h path.clean (.inl rfl)

theorem AgreeAt.isDirectory (h : AgreeAt m m' path) :
    m'.isDirectory path.clean = m.isDirectory path.clean := by
  rw [Bool.eq_iff_iff, isDirectory_iff, isDirectory_iff]
  constructor
  · rintro ⟨key, hk, hbelow⟩
    exact ⟨key, h key (.inr hbelow) ▸ hk, hbelow⟩
  · rintro ⟨key, hk, hbelow⟩
    exact ⟨key, (h key (.inr hbelow)).symm ▸ hk, hbelow⟩

theorem AgreeAt.pathExists (h : AgreeAt m m' path) :
    FileSystem.pathExists m' path = FileSystem.pathExists m path := by
  have hcontents : m'.files.find? path.clean = m.files.find? path.clean := h.contents
  show m'.pathExists path = m.pathExists path
  rw [Memory.pathExists, Memory.pathExists, hcontents, h.isDirectory]

end Memory

namespace Package

variable {m m' : Memory} {dir path : Path} {package : Package} {failure : Failure}

/-- The metadata in a directory is a file of no more than the size allowed, which is the text of
this package. -/
def Offers (m : Memory) (dir : Path) (package : Package) : Prop :=
  ∃ text : String, m.contents (metadataPath dir) = some text.toUTF8 ∧
    text.toUTF8.size ≤ maxMetadataSize ∧ parse dir text = .ok package

/-- Why metadata that is there cannot be used: it is a directory, or too large, or no text, or it
cannot be parsed. -/
inductive Unusable (m : Memory) (dir : Path) : Failure → Prop
  | unreadable : m.contents (metadataPath dir) = none →
    Unusable m dir (.package (metadataPath dir) (.unreadable (.notFound (metadataPath dir))))
  | tooLarge {content : ByteArray} : m.contents (metadataPath dir) = some content →
    maxMetadataSize < content.size → Unusable m dir (.package (metadataPath dir) .tooLarge)
  | notUtf8 {content : ByteArray} {fault : Utf8Fault} :
    m.contents (metadataPath dir) = some content → content.size ≤ maxMetadataSize →
    (∀ text : String, content ≠ text.toUTF8) → utf8Fault? content.toList = some fault →
    Unusable m dir (.package (metadataPath dir) (.notUtf8 fault))
  | malformed {text : String} {failure : Failure} :
    m.contents (metadataPath dir) = some text.toUTF8 → text.toUTF8.size ≤ maxMetadataSize →
    parse dir text = .error failure → Unusable m dir failure

theorem readMetadata_of_contents {content : ByteArray} (h : m.contents path = some content) :
    readMetadata m path =
      if maxMetadataSize < content.size then .error .tooLarge
      else match utf8Fault? content.toList with
        | some fault => .error (.notUtf8 fault)
        | none => .ok (textOfBytes content) := by
  have hstat : FileSystem.stat m path = .ok (.file content.size) := by
    show m.stat path = _
    rw [Memory.stat, h]
  have hread : FileSystem.read m path = .ok content := by
    show m.read path = _
    rw [Memory.read, h]
  unfold readMetadata
  rw [hstat]
  show (if maxMetadataSize < content.size then _ else _) = _
  split
  · rfl
  · show (Except.mapError _ (FileSystem.read m path)).bind _ = _
    rw [hread]
    show (match utf8Fault? content.toList with | some _ => _ | none => _) = _
    split
    · rfl
    · rfl

theorem readMetadata_of_directory (h : m.contents path = none)
    (hd : m.isDirectory path.clean = true) :
    readMetadata m path = .error (.unreadable (.notFound path)) := by
  have hstat : FileSystem.stat m path = .ok .directory := by
    show m.stat path = _
    rw [Memory.stat, h]
    exact if_pos hd
  have hread : FileSystem.read m path = .error (.notFound path) := by
    show m.read path = _
    rw [Memory.read, h]
  unfold readMetadata
  rw [hstat]
  show (Except.mapError _ (FileSystem.read m path)).bind _ = _
  rw [hread]
  rfl

theorem readMetadata_of_text {text : String} (h : m.contents path = some text.toUTF8)
    (hsize : text.toUTF8.size ≤ maxMetadataSize) : readMetadata m path = .ok text := by
  rw [readMetadata_of_contents h, if_neg (Nat.not_lt_of_le hsize),
    (utf8Fault?_eq_none_iff _).mpr ⟨text, rfl⟩]
  exact congrArg Except.ok (textOfBytes_toUTF8 text)

theorem load_of_offers (h : Offers m dir package) : load m dir = .ok package := by
  obtain ⟨text, hcontents, hsize, hparse⟩ := h
  rw [load, readMetadata_of_text hcontents hsize]
  exact hparse

/-- What is there without a file is a directory. -/
theorem isDirectory_of_pathExists (h : FileSystem.pathExists m path = true)
    (hc : m.contents path = none) : m.isDirectory path.clean = true := by
  change m.pathExists path = true at h
  change m.files.find? path.clean = none at hc
  rw [Memory.pathExists, hc] at h
  exact h

theorem load_of_unusable (hexists : FileSystem.pathExists m (metadataPath dir) = true)
    (h : Unusable m dir failure) : load m dir = .error failure := by
  unfold load
  cases h with
  | unreadable hcontents =>
    rw [readMetadata_of_directory hcontents (isDirectory_of_pathExists hexists hcontents)]
  | tooLarge hcontents hsize => rw [readMetadata_of_contents hcontents, if_pos hsize]
  | notUtf8 hcontents hsize htext hfault =>
    rw [readMetadata_of_contents hcontents, if_neg (Nat.not_lt_of_le hsize), hfault]
  | malformed hcontents hsize hparse =>
    rw [readMetadata_of_text hcontents hsize]
    exact hparse

/-- Metadata can be used, or there is a reason why not. -/
theorem offers_or_unusable (m : Memory) (dir : Path) :
    (∃ package, Offers m dir package) ∨ ∃ failure, Unusable m dir failure := by
  cases hcontents : m.contents (metadataPath dir) with
  | none => exact .inr ⟨_, .unreadable hcontents⟩
  | some content =>
    by_cases hsize : maxMetadataSize < content.size
    · exact .inr ⟨_, .tooLarge hcontents hsize⟩
    have hle : content.size ≤ maxMetadataSize := Nat.le_of_not_lt hsize
    cases hfault : utf8Fault? content.toList with
    | some fault =>
      refine .inr ⟨_, .notUtf8 hcontents hle ?_ hfault⟩
      intro text htext
      rw [(utf8Fault?_eq_none_iff content).mpr ⟨text, htext⟩] at hfault
      cases hfault
    | none =>
      obtain ⟨text, rfl⟩ := (utf8Fault?_eq_none_iff content).mp hfault
      cases hparse : parse dir text with
      | error failure => exact .inr ⟨failure, .malformed hcontents hle hparse⟩
      | ok package => exact .inl ⟨package, text, hcontents, hle, hparse⟩

theorem load_eq_ok_iff (hexists : FileSystem.pathExists m (metadataPath dir) = true) :
    load m dir = .ok package ↔ Offers m dir package := by
  constructor
  · intro h
    obtain ⟨other, hother⟩ | ⟨failure, hfailure⟩ := offers_or_unusable m dir
    · rw [load_of_offers hother] at h
      exact Except.ok.inj h ▸ hother
    · rw [load_of_unusable hexists hfailure] at h
      cases h
  · exact load_of_offers

theorem load_eq_error_iff (hexists : FileSystem.pathExists m (metadataPath dir) = true) :
    load m dir = .error failure ↔ Unusable m dir failure := by
  constructor
  · intro h
    obtain ⟨package, hpackage⟩ | ⟨other, hother⟩ := offers_or_unusable m dir
    · rw [load_of_offers hpackage] at h
      cases h
    · rw [load_of_unusable hexists hother] at h
      exact Except.error.inj h ▸ hother
  · exact load_of_unusable hexists

/-- What is loaded is about the files at the metadata's path and below it. -/
theorem load_congr (h : m.AgreeAt m' (metadataPath dir)) : load m' dir = load m dir := by
  have hstat : FileSystem.stat m' (metadataPath dir) = FileSystem.stat m (metadataPath dir) := by
    show m'.stat _ = m.stat _
    rw [Memory.stat, Memory.stat, h.contents, h.isDirectory]
  have hread : FileSystem.read m' (metadataPath dir) = FileSystem.read m (metadataPath dir) := by
    show m'.read _ = m.read _
    rw [Memory.read, Memory.read, h.contents]
  rw [load, load, readMetadata, readMetadata, hstat, hread]

theorem Offers.dir_eq (h : Offers m dir package) : package.dir = dir := by
  obtain ⟨text, -, -, hparse⟩ := h
  unfold parse at hparse
  split at hparse
  · cases hparse
  · cases hparse
    rfl

end Package

namespace Session

variable {s t : Session Memory} {specifier : String} {importer : Option String}
  {name subpath : String} {dir above : Path}

/-- An import resolves to the entry that the nearest metadata of its package names, if it asks for
the package itself and the metadata is not hidden. -/
theorem resolve_eq_entry_iff {entry : Path} :
    (s.resolve specifier importer).1 = .ok (.entry entry) ↔
      ∃ name dir above package svelte, s.Asks specifier importer name "" dir ∧
        Package.IsNearest s.files name dir above ∧
        Package.Offers s.files (Package.installedIn above name) package ∧
        package.hidesMetadata = false ∧ package.svelte = some svelte ∧
        entry = ((Package.installedIn above name).join svelte).clean := by
  constructor
  · intro h
    have hsettled : (s.resolve specifier importer).1 ≠ .ok .defer := by simp [h]
    obtain ⟨name, subpath, dir, above, hasks, hnearest⟩ := exists_nearest_of_resolve hsettled
    rw [resolve_fst hasks hnearest, Package.resolution_eq_entry_iff] at h
    obtain ⟨rfl, package, hload, hshows, svelte, hsvelte, rfl⟩ := h
    have hoffers := (Package.load_eq_ok_iff hnearest.found).mp hload
    rw [hoffers.dir_eq]
    exact ⟨name, dir, above, package, svelte, hasks, hnearest, hoffers, hshows, hsvelte, rfl⟩
  · rintro ⟨name, dir, above, package, svelte, hasks, hnearest, hoffers, hshows, hsvelte, rfl⟩
    rw [resolve_fst hasks hnearest, Package.resolution_eq_entry_iff]
    refine ⟨rfl, package, Package.load_of_offers hoffers, hshows, svelte, hsvelte, ?_⟩
    rw [hoffers.dir_eq]

theorem resolve_eq_error_iff {failure : Failure} :
    (s.resolve specifier importer).1 = .error failure ↔
      ∃ name subpath dir above, s.Asks specifier importer name subpath dir ∧
        Package.IsNearest s.files name dir above ∧
        Package.Unusable s.files (Package.installedIn above name) failure := by
  constructor
  · intro h
    have hsettled : (s.resolve specifier importer).1 ≠ .ok .defer := by simp [h]
    obtain ⟨name, subpath, dir, above, hasks, hnearest⟩ := exists_nearest_of_resolve hsettled
    rw [resolve_fst hasks hnearest, Package.resolution_eq_error_iff,
      Package.load_eq_error_iff hnearest.found] at h
    exact ⟨name, subpath, dir, above, hasks, hnearest, h⟩
  · rintro ⟨name, subpath, dir, above, hasks, hnearest, h⟩
    rw [resolve_fst hasks hnearest, Package.resolution_eq_error_iff]
    exact Package.load_of_unusable hnearest.found h

/-- The same files are where a search looks, and below. -/
def AgreeOnSearch (s t : Session Memory) (specifier : String) (importer : Option String) : Prop :=
  ∀ name subpath dir above, s.Asks specifier importer name subpath dir →
    Package.Searched s.files name dir above →
    s.files.AgreeAt t.files (Package.candidate name above)

/-- What is nearest in one session is so in another that has the same files where is searched. -/
theorem AgreeOnSearch.isNearest (h : AgreeOnSearch s t specifier importer)
    (hasks : s.Asks specifier importer name subpath dir)
    (hn : Package.IsNearest s.files name dir above) :
    Package.IsNearest t.files name dir above := by
  obtain ⟨⟨before, after, hsplit, hbefore⟩, hfound⟩ := hn
  have habove := h name subpath dir above hasks ⟨before, after, hsplit, hbefore⟩
  refine ⟨⟨before, after, hsplit, ?_⟩, habove.pathExists.trans hfound⟩
  intro d hd
  have hsearched := Package.searched_of_mem_before hsplit hbefore hd
  exact (h name subpath dir d hasks hsearched).pathExists.trans (hbefore d hd)

theorem AgreeOnSearch.not_isNearest (h : AgreeOnSearch s t specifier importer)
    (hasks : s.Asks specifier importer name subpath dir)
    (hn : ∀ above, ¬ Package.IsNearest s.files name dir above) :
    ¬ Package.IsNearest t.files name dir above := by
  rintro ⟨⟨before, after, hsplit, -⟩, hfound⟩
  have hnone : ∀ d ∈ dir.ancestors,
      FileSystem.pathExists s.files (Package.candidate name d) = false :=
    fun d hd => Package.pathExists_of_not_nearest hn hd
  have hmem : above ∈ dir.ancestors := by simp [hsplit]
  have hsearched := Package.searched_of_mem_before (List.append_nil _).symm hnone hmem
  rw [(h name subpath dir above hasks hsearched).pathExists, hnone above hmem] at hfound
  cases hfound

/-- Other files than those do not matter to an import, nor does anything else but whether it is one
of a stylesheet. -/
theorem AgreeOnSearch.resolve_eq (hasset : t.asset? specifier = none ↔ s.asset? specifier = none)
    (h : AgreeOnSearch s t specifier importer) :
    (t.resolve specifier importer).1 = (s.resolve specifier importer).1 := by
  by_cases hfound : ∃ name subpath dir above, s.Asks specifier importer name subpath dir ∧
    Package.IsNearest s.files name dir above
  · obtain ⟨name, subpath, dir, above, hasks, hnearest⟩ := hfound
    have hagree := h name subpath dir above hasks hnearest.searched
    rw [resolve_fst hasks hnearest,
      resolve_fst (hasks.congr (hasset.mpr hasks.noAsset)) (h.isNearest hasks hnearest),
      Package.load_congr hagree]
  · have hs : (s.resolve specifier importer).1 = .ok .defer := by
      refine (resolve_of_not_nearest ?_).1
      intro name subpath dir above hasks hnearest
      exact hfound ⟨name, subpath, dir, above, hasks, hnearest⟩
    have ht : (t.resolve specifier importer).1 = .ok .defer := by
      refine (resolve_of_not_nearest ?_).1
      intro name subpath dir above hasks
      have hasks' : s.Asks specifier importer name subpath dir :=
        hasks.congr (hasset.mp hasks.noAsset)
      refine h.not_isNearest hasks' ?_
      intro above hnearest
      exact hfound ⟨name, subpath, dir, above, hasks', hnearest⟩
    rw [hs, ht]

/-- An import resolves to what the nearest metadata of its package names, fails if that cannot be
used, and is else the host's affair; and the files that a search does not come to do not matter. -/
theorem resolve_of_metadata (s : Session Memory) (specifier : String) (importer : Option String) :
    let result := (s.resolve specifier importer).1
    (∀ entry, result = .ok (.entry entry) ↔
      ∃ name dir above package svelte, s.Asks specifier importer name "" dir ∧
        Package.IsNearest s.files name dir above ∧
        Package.Offers s.files (Package.installedIn above name) package ∧
        package.hidesMetadata = false ∧ package.svelte = some svelte ∧
        entry = ((Package.installedIn above name).join svelte).clean) ∧
    (∀ failure, result = .error failure ↔
      ∃ name subpath dir above, s.Asks specifier importer name subpath dir ∧
        Package.IsNearest s.files name dir above ∧
        Package.Unusable s.files (Package.installedIn above name) failure) ∧
    ((∀ entry, result ≠ .ok (.entry entry)) → (∀ failure, result ≠ .error failure) →
      result = .ok .defer) ∧
    ∀ t : Session Memory, (t.asset? specifier = none ↔ s.asset? specifier = none) →
      AgreeOnSearch s t specifier importer → (t.resolve specifier importer).1 = result := by
  intro result
  refine ⟨fun entry => resolve_eq_entry_iff, fun failure => resolve_eq_error_iff, ?_,
    fun t hasset h => h.resolve_eq hasset⟩
  intro hentry hfailure
  cases hresult : result with
  | error failure => exact absurd hresult (hfailure failure)
  | ok resolution =>
    cases resolution with
    | entry path => exact absurd hresult (hentry path)
    | defer => rfl

/-- Metadata further up is not even looked at. -/
theorem resolve_of_metadata_broken_outside :
    let text := "\x7b\"svelte\": \"src/index.js\"\x7d"
    let files : Memory := .insert
      (.insert .empty ⟨"/node_modules/ui/package.json"⟩ "\x7b".toUTF8)
      ⟨"/app/node_modules/ui/package.json"⟩ text.toUTF8
    let s : Session Memory := .start files
    let importer := some "/app/App.svelte"
    s.Asks "ui" importer "ui" "" ⟨"/app"⟩ ∧ Package.IsNearest files "ui" ⟨"/app"⟩ ⟨"/app"⟩ ∧
      (s.resolve "ui" importer).1 = .ok (.entry ⟨"/app/node_modules/ui/src/index.js"⟩) := by
  intro text files s importer
  have hasks : s.Asks "ui" importer "ui" "" ⟨"/app"⟩ :=
    ⟨by decide, rfl, by decide +kernel, ⟨_, rfl, by decide, by decide +kernel⟩, by decide⟩
  have hinstalled : Package.installedIn ⟨"/app"⟩ "ui" = ⟨"/app/node_modules/ui"⟩ :=
    Package.installedIn_eq (by decide) (by decide) (by decide)
  have hcandidate : Package.candidate "ui" ⟨"/app"⟩ = ⟨"/app/node_modules/ui/package.json"⟩ :=
    Package.candidate_eq (by decide) (by decide) (by decide) (by decide)
  have hcontents : files.contents (Package.candidate "ui" ⟨"/app"⟩) = some text.toUTF8 := by
    rw [hcandidate]
    exact Table.find?_put_self _ _ _
  have hnearest : Package.IsNearest files "ui" ⟨"/app"⟩ ⟨"/app"⟩ :=
    .self (Memory.pathExists_of_contents hcontents)
  let package : Package := ⟨⟨"/app/node_modules/ui"⟩, none, some "src/index.js", none⟩
  have hparse : Package.parse ⟨"/app/node_modules/ui"⟩ text = .ok package :=
    toOption_eq_some_iff.mp (by decide +kernel)
  have hoffers : Package.Offers files (Package.installedIn ⟨"/app"⟩ "ui") package :=
    ⟨text, hcontents, by decide, by rw [hinstalled, hparse]⟩
  have hentry : (Path.mk "/app/node_modules/ui/src/index.js").clean =
      ⟨"/app/node_modules/ui/src/index.js"⟩ := (Path.clean_eq _).trans (by decide +kernel)
  refine ⟨hasks, hnearest, ((resolve_of_metadata s "ui" importer).1 _).mpr ?_⟩
  refine ⟨"ui", ⟨"/app"⟩, ⟨"/app"⟩, package, "src/index.js", hasks, hnearest, hoffers, rfl, rfl, ?_⟩
  rw [hinstalled, Path.join_eq (by decide) (by decide) (by decide)]
  exact hentry.symm

end Session

end InlineComponents
