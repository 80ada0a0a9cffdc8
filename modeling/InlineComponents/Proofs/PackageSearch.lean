import InlineComponents.Session.Resolution
import Mathlib.Data.Option.Basic

namespace InlineComponents

namespace Package

/-- Where the metadata of a package is if it is installed in a directory. -/
def candidate (name : String) (dir : Path) : Path :=
  metadataPath (installedIn dir name)

variable {σ : Type} [FileSystem σ]

/-- A search upwards from a directory looks into this one above it, as the package is in none of
those before. -/
def Searched (files : σ) (name : String) (dir above : Path) : Prop :=
  ∃ before after, dir.ancestors = before ++ above :: after ∧
    ∀ d ∈ before, FileSystem.pathExists files (candidate name d) = false

/-- The nearest directory with the package's metadata, which may be the one that is searched
from. -/
structure IsNearest (files : σ) (name : String) (dir above : Path) : Prop where
  searched : Searched files name dir above
  found : FileSystem.pathExists files (candidate name above) = true

variable {files : σ} {name : String} {dir above : Path}

/-- The search comes to the nearest directory with the package, if there is one. -/
theorem nearest?_eq_some_iff :
    dir.nearest? (hasPackage files name) = some above ↔ IsNearest files name dir above := by
  have hbefore (before : List Path) : (∀ d ∈ before, (!hasPackage files name d) = true) ↔
      ∀ d ∈ before, FileSystem.pathExists files (candidate name d) = false := by
    simp only [Bool.not_eq_true']
    rfl
  rw [Path.nearest?_eq, List.find?_eq_some_iff_append]
  simp only [hbefore]
  exact ⟨fun ⟨hfound, hsearched⟩ => ⟨hsearched, hfound⟩, fun h => ⟨h.found, h.searched⟩⟩

theorem IsNearest.self (h : FileSystem.pathExists files (candidate name dir) = true) :
    IsNearest files name dir dir :=
  ⟨⟨[], dir.parents, rfl, by simp⟩, h⟩

theorem IsNearest.unique {other : Path} (h : IsNearest files name dir above)
    (h' : IsNearest files name dir other) : above = other := by
  rw [← nearest?_eq_some_iff] at h h'
  exact Option.some.inj (h.symm.trans h')

/-- Where nothing is nearest, the package is in none of the directories above. -/
theorem pathExists_of_not_nearest (h : ∀ above, ¬ IsNearest files name dir above) {d : Path}
    (hd : d ∈ dir.ancestors) : FileSystem.pathExists files (candidate name d) = false := by
  have hnone : dir.nearest? (hasPackage files name) = none := by
    cases hnearest : dir.nearest? (hasPackage files name) with
    | none => rfl
    | some above => exact absurd (nearest?_eq_some_iff.mp hnearest) (h above)
  rw [Path.nearest?_eq, List.find?_eq_none] at hnone
  exact Bool.not_eq_true _ ▸ hnone d hd

/-- All that comes before what is searched is searched too. -/
theorem searched_of_mem_before {before after : List Path}
    (hsplit : dir.ancestors = before ++ after)
    (hbefore : ∀ d ∈ before, FileSystem.pathExists files (candidate name d) = false) {d : Path}
    (hd : d ∈ before) : Searched files name dir d := by
  obtain ⟨front, back, rfl⟩ := List.append_of_mem hd
  refine ⟨front, back ++ after, by rw [hsplit, List.append_assoc, List.cons_append], ?_⟩
  intro other ho
  exact hbefore other (List.mem_append_left _ ho)

theorem isPlainName_iff : isPlainName name = true ↔
    ∀ segment ∈ splitAll '/' name.toList,
      segment ≠ [] ∧ segment ≠ ['.'] ∧ segment ≠ ['.', '.'] := by
  simp [isPlainName, and_assoc]

theorem hides_of_lookUpIn {other : String} (h : lookUpIn files name dir = .hidden other) :
    ∃ package, load files dir = .ok package ∧ package.hidesMetadata = true := by
  unfold lookUpIn at h
  split at h
  · cases h
  · next package hload =>
    split at h
    · next hhides => exact ⟨package, hload, hhides⟩
    · cases h

/-- What an import comes to when the nearest metadata of its package is read. -/
def resolution (subpath : String) (loaded : Except Failure Package) : Except Failure Resolution :=
  match loaded with
  | .error failure => .error failure
  | .ok package =>
    if package.hidesMetadata then .ok .defer
    else match package.entry with
      | some entry => if subpath = "" then .ok (.entry entry.clean) else .ok .defer
      | none => .ok .defer

theorem resolution_eq_entry_iff {subpath : String} {loaded : Except Failure Package}
    {path : Path} : resolution subpath loaded = .ok (.entry path) ↔
      subpath = "" ∧ ∃ package, loaded = .ok package ∧ package.hidesMetadata = false ∧
        ∃ svelte, package.svelte = some svelte ∧ path = (package.dir.join svelte).clean := by
  unfold resolution
  constructor
  · intro h
    split at h
    · cases h
    · next package =>
      split at h
      · cases h
      · next hshows =>
        split at h
        · next entry hentry =>
          obtain ⟨svelte, hsvelte, rfl⟩ := Option.map_eq_some_iff.mp hentry
          split at h
          · next hroot =>
            cases h
            exact ⟨hroot, package, rfl, by simpa using hshows, svelte, hsvelte, rfl⟩
          · cases h
        · cases h
  · rintro ⟨rfl, package, rfl, hshows, svelte, hsvelte, rfl⟩
    simp [hshows, entry, hsvelte]

theorem resolution_eq_error_iff {subpath : String} {loaded : Except Failure Package}
    {failure : Failure} : resolution subpath loaded = .error failure ↔ loaded = .error failure := by
  unfold resolution
  cases loaded with
  | error other => simp
  | ok package =>
    dsimp only
    split
    · simp
    · split
      · split <;> simp
      · simp

end Package

theorem packageRequest?_eq_some_iff {specifier : String} {importer : Option String}
    {request : PackageRequest} : packageRequest? specifier importer = some request ↔
      isBare specifier = true ∧ splitSpecifier specifier = some (request.package, request.subpath) ∧
        importer = some request.importer ∧ request.importer.toList.head? ≠ some '\x00' ∧
        Path.parent ⟨request.importer⟩ = some request.dir := by
  obtain ⟨package, subpath, dir, file⟩ := request
  have hguard (p : Prop) [Decidable p] (u : Unit) : (guard p : Option Unit) = some u ↔ p := by
    show (if p then some () else none) = some u ↔ p
    by_cases hp : p <;> simp [hp]
  simp only [packageRequest?, Option.bind_eq_bind, Option.bind_eq_some_iff, hguard, Option.pure_def]
  constructor
  · rintro ⟨_, hbare, path, himporter, _, hfile, ⟨name, rest⟩, hsplit, parent, hparent, h⟩
    cases h
    exact ⟨hbare, hsplit, himporter, hfile, hparent⟩
  · rintro ⟨hbare, hsplit, himporter, hfile, hparent⟩
    exact ⟨(), hbare, file, himporter, (), hfile, (package, subpath), hsplit, dir, hparent, rfl⟩

namespace Session

variable {σ : Type}

/-- An import asks for something in a package: its specifier is bare and no stylesheet's, its
importer is a file, and the name leads into a directory of packages and never out of it again. -/
structure Asks (s : Session σ) (specifier : String) (importer : Option String)
    (name subpath : String) (dir : Path) : Prop where
  bare : isBare specifier = true
  noAsset : s.asset? specifier = none
  split : splitSpecifier specifier = some (name, subpath)
  file : ∃ path, importer = some path ∧ path.toList.head? ≠ some '\x00' ∧
    Path.parent ⟨path⟩ = some dir
  plain : ∀ segment ∈ splitAll '/' name.toList,
    segment ≠ [] ∧ segment ≠ ['.'] ∧ segment ≠ ['.', '.']

variable {s : Session σ} {specifier : String} {importer : Option String}
  {name subpath : String} {dir above : Path}

theorem Asks.exists_request (h : s.Asks specifier importer name subpath dir) :
    ∃ file, packageRequest? specifier importer = some ⟨name, subpath, dir, file⟩ := by
  obtain ⟨file, himporter, hfile, hparent⟩ := h.file
  exact ⟨file, packageRequest?_eq_some_iff.mpr ⟨h.bare, h.split, himporter, hfile, hparent⟩⟩

/-- What is asked for, and from where, is in the specifier and its importer. -/
theorem Asks.unique {otherName otherSubpath : String} {otherDir : Path}
    (h : s.Asks specifier importer name subpath dir)
    (h' : s.Asks specifier importer otherName otherSubpath otherDir) :
    name = otherName ∧ subpath = otherSubpath ∧ dir = otherDir := by
  obtain ⟨file, hrequest⟩ := h.exists_request
  obtain ⟨file', hrequest'⟩ := h'.exists_request
  cases hrequest.symm.trans hrequest'
  exact ⟨rfl, rfl, rfl⟩

theorem Asks.congr {τ : Type} {t : Session τ} (h : s.Asks specifier importer name subpath dir)
    (hasset : t.asset? specifier = none) : t.Asks specifier importer name subpath dir :=
  ⟨h.bare, hasset, h.split, h.file, h.plain⟩

variable [FileSystem σ]

/-- Where the package is found, the import is settled by what its metadata says. -/
theorem resolve_of_nearest (h : s.Asks specifier importer name subpath dir)
    (hn : Package.IsNearest s.files name dir above) :
    ∃ file, s.resolve specifier importer = s.settle specifier ⟨name, subpath, dir, file⟩
      (Package.lookUpIn s.files name (Package.installedIn above name)) := by
  obtain ⟨file, hrequest⟩ := h.exists_request
  refine ⟨file, ?_⟩
  have hasset : ¬ (s.asset? specifier).isSome = true := by simp [h.noAsset]
  rw [resolve, hrequest]
  dsimp only
  rw [if_neg hasset, Package.lookUp, if_pos (Package.isPlainName_iff.mpr h.plain),
    Package.nearest?_eq_some_iff.mpr hn]

/-- Where nothing is asked for, or nothing is found, the import is the host's affair. -/
theorem resolve_of_not_nearest (h : ∀ name subpath dir above,
    s.Asks specifier importer name subpath dir → ¬ Package.IsNearest s.files name dir above) :
    (s.resolve specifier importer).1 = .ok .defer ∧
      (s.resolve specifier importer).2.hidden = s.hidden := by
  unfold resolve
  split
  · exact ⟨rfl, rfl⟩
  · next request hrequest =>
    split
    · exact ⟨rfl, rfl⟩
    · next hasset =>
      obtain ⟨hbare, hsplit, himporter, hfile, hparent⟩ := packageRequest?_eq_some_iff.mp hrequest
      have hmissing : Package.lookUp s.files request.package request.dir = .missing := by
        unfold Package.lookUp
        split
        · next hplain =>
          have hasks : s.Asks specifier importer request.package request.subpath request.dir :=
            ⟨hbare, by simpa using hasset, hsplit, ⟨_, himporter, hfile, hparent⟩,
              Package.isPlainName_iff.mp hplain⟩
          split
          · next above hn =>
            exact absurd (Package.nearest?_eq_some_iff.mp hn) (h _ _ _ _ hasks)
          · rfl
        · rfl
      rw [hmissing]
      exact ⟨rfl, rfl⟩

/-- Where the package is found, the outcome is in its metadata. -/
theorem resolve_fst (h : s.Asks specifier importer name subpath dir)
    (hn : Package.IsNearest s.files name dir above) : (s.resolve specifier importer).1 =
      Package.resolution subpath (Package.load s.files (Package.installedIn above name)) := by
  obtain ⟨file, hresolve⟩ := resolve_of_nearest h hn
  rw [hresolve, Package.lookUpIn]
  cases Package.load s.files (Package.installedIn above name) with
  | error failure => rfl
  | ok package =>
    unfold Package.resolution
    dsimp only
    split
    · rfl
    · cases hentry : package.entry with
      | none => simp [settle, hentry]
      | some entry => by_cases hroot : subpath = "" <;> simp [settle, hentry, hroot]

/-- An import that is not left to the host asks for a package that is found. -/
theorem exists_nearest_of_resolve (h : (s.resolve specifier importer).1 ≠ .ok .defer) :
    ∃ name subpath dir above, s.Asks specifier importer name subpath dir ∧
      Package.IsNearest s.files name dir above := by
  apply Classical.byContradiction
  intro hnone
  refine h (resolve_of_not_nearest ?_).1
  intro name subpath dir above hasks hnearest
  exact hnone ⟨name, subpath, dir, above, hasks, hnearest⟩

end Session

end InlineComponents
