import InlineComponents.Proofs.ArtifactNames

namespace InlineComponents

theorem splitLast_append {needle s before after : List Char}
    (h : splitLast needle s = some (before, after)) : s = before ++ needle ++ after := by
  obtain ⟨⟨back, front⟩, hbreak, he⟩ := Option.map_eq_some_iff.mp h
  obtain ⟨hs, hp⟩ := breakAt_append hbreak
  obtain ⟨rest, rfl⟩ := List.isPrefixOf_iff_prefix.mp hp
  have hdrop : (needle.reverse ++ rest).drop needle.length = rest := by
    rw [← List.length_reverse, List.drop_left]
  obtain ⟨rfl, rfl⟩ : rest.reverse = before ∧ back.reverse = after := by simpa [hdrop] using he
  rw [← List.reverse_reverse s, hs]
  simp

/-- A declared name is what the stem of a file name has after its last separator. -/
theorem declaredName?_eq_some_iff {fileName name : String} :
    declaredName? fileName = some name ↔ isDeclaredName name = true ∧
      ∃ stem front, Path.fileStem ⟨fileName⟩ = some stem ∧
        splitLast separator.toList stem.toList = some (front, name.toList) := by
  constructor
  · intro h
    obtain ⟨stem, hstem, h⟩ := Option.bind_eq_some_iff.mp h
    obtain ⟨⟨front, back⟩, hsplit, h⟩ := Option.bind_eq_some_iff.mp h
    dsimp only at h
    split at h
    · next hn =>
      obtain rfl := Option.some.inj h
      exact ⟨hn, stem, front, hstem, by rw [hsplit, String.toList_ofList]⟩
    · cases h
  · rintro ⟨hn, stem, front, hstem, hsplit⟩
    simp only [declaredName?, hstem, hsplit, Option.bind_eq_bind, Option.bind_some,
      String.ofList_toList, hn, ↓reduceIte]

/-- A text without slashes that has a stem is the name of an entry. -/
theorem isEntryName_of_fileStem {fileName stem : String} (hslash : '/' ∉ fileName.toList)
    (h : Path.fileStem ⟨fileName⟩ = some stem) : Path.IsEntryName fileName.toList := by
  refine ⟨?_, hslash⟩
  cases hname : Path.isName fileName.toList with
  | true => rfl
  | false =>
    have hidle : fileName = "" ∨ fileName = "." ∨ fileName = ".." := by
      simp only [← String.toList_inj]
      simpa [Path.isName, Path.isIdle, Decidable.or_iff_not_imp_left] using hname
    have hnone : Path.fileName ⟨fileName⟩ = none := by
      rcases hidle with rfl | rfl | rfl <;> decide +kernel
    rw [Path.fileStem, hnone] at h
    cases h

/-- The parent that an artifact's file name tells of: what its stem has before the last separator,
and its extension. -/
def carriedParent (front : List Char) (extension : Option String) : Path :=
  ⟨String.ofList front ++ extension.elim "" ("." ++ ·)⟩

theorem toList_carriedParent (front : List Char) (extension : Option String) :
    (carriedParent front extension).text.toList =
      front ++ (extension.map String.toList).elim [] ('.' :: ·) := by
  cases extension <;> simp [carriedParent]

/-- Where a file name is a stem with a separator in it, and an extension, the part before the
separator and the extension are the stem and the extension of a name themselves. -/
theorem IsSplitName.front {fileName front back : List Char} {extension : Option (List Char)}
    (h : IsSplitName fileName (front ++ '_' :: back) extension) (hfront : front ≠ []) :
    IsSplitName (front ++ extension.elim [] ('.' :: ·)) front extension := by
  cases extension with
  | none =>
    refine ⟨(List.append_nil front).symm, ?_⟩
    obtain ⟨c, front, rfl⟩ := List.exists_cons_of_ne_nil hfront
    have hdot := h.2
    rw [← h.1] at hdot
    simp_all
  | some extension => exact ⟨hfront, rfl, h.2.2⟩

/-- With its extension the part is a name, as it is not the directory above, written as a dot and
an empty extension. -/
theorem isName_append_extension {fileName front back : List Char}
    {extension : Option (List Char)} (h : IsSplitName fileName (front ++ '_' :: back) extension)
    (hfront : front ≠ []) (hdot : front = ['.'] → ∃ e ∈ extension, e ≠ []) :
    Path.isName (front ++ extension.elim [] ('.' :: ·)) = true := by
  have hsplit := h.front hfront
  cases extension with
  | none =>
    have hone : front ≠ ['.'] := by
      intro he
      obtain ⟨e, he, -⟩ := hdot he
      cases he
    have hup : front ≠ ['.', '.'] := by
      rintro rfl
      exact absurd hsplit.2 (by simp)
    simp [Path.isName, Path.isIdle, hfront, hone, hup]
  | some extension =>
    have hup : front ++ '.' :: extension ≠ ['.', '.'] := by
      intro he
      have hone : front = ['.'] := by
        obtain ⟨c, rest, rfl⟩ := List.exists_cons_of_ne_nil hfront
        cases rest with
        | nil => simpa using (List.cons.inj he).1
        | cons d rest => simp at he
      obtain ⟨e, hext, hne⟩ := hdot hone
      obtain rfl := Option.some.inj hext
      rw [hone] at he
      exact hne (by simpa using he)
    have hone : front ++ '.' :: extension ≠ ['.'] := by
      obtain ⟨c, front, rfl⟩ := List.exists_cons_of_ne_nil hfront
      simp
    simp [Path.isName, Path.isIdle, hup, hone]

/-- A file name with a separator in its stem is that of the artifact of the parent that it tells of,
if that is the name of an entry. -/
theorem eq_artifactFileName_of_front {fileName stem name : String} {front : List Char}
    (hentry : Path.IsEntryName fileName.toList) (hstem : Path.fileStem ⟨fileName⟩ = some stem)
    (hsplit : splitLast separator.toList stem.toList = some (front, name.toList))
    (hfront : front ≠ []) (hdot : front = ['.'] → ∃ e ∈ Path.extension ⟨fileName⟩, e ≠ "") :
    fileName = artifactFileName (carriedParent front (Path.extension ⟨fileName⟩)) name := by
  have hname := Path.fileName_of_isEntryName hentry
  have hstemEq : stem.toList = front ++ '_' :: '_' :: name.toList := by
    rw [splitLast_append hsplit, toList_separator]
    simp
  have hsplitName := isSplitName_of_fileName hname
  rw [hstem, Option.getD_some, hstemEq] at hsplitName
  generalize Path.extension ⟨fileName⟩ = extension at hdot hsplitName ⊢
  -- the parent's own name is split where the artifact's is
  have hparent := hsplitName.front hfront
  have hdot' : front = ['.'] → ∃ e ∈ extension.map String.toList, e ≠ [] := by
    intro hone
    obtain ⟨e, rfl, hne⟩ := hdot hone
    exact ⟨e.toList, rfl, by simpa using hne⟩
  have hparentName := isName_append_extension hsplitName hfront hdot'
  rw [← toList_carriedParent] at hparent hparentName
  have hslash : '/' ∉ (carriedParent front extension).text.toList := by
    rw [toList_carriedParent]
    have hno := hentry.noSlash
    cases extension with
    | none =>
      rw [← hsplitName.1] at hno
      simp_all
    | some extension =>
      rw [hsplitName.2.1] at hno
      simp_all
  have hparentFile := Path.fileName_of_isEntryName ⟨hparentName, hslash⟩
  obtain ⟨hs, hx⟩ := (isSplitName_of_fileName hparentFile).unique hparent
  have hx : (carriedParent front extension).extension = extension :=
    Option.map_injective (fun _ _ => String.toList_inj.mp) hx
  change ((carriedParent front extension).fileStem.getD "").toList = front at hs
  rw [← String.toList_inj, toList_artifactFileName, hs, hx]
  cases extension with
  | none => rw [← hsplitName.1, List.append_nil]
  | some extension => exact hsplitName.2.1

/-- Naming has an exact inverse. The declared name is read back from an artifact's file name,
whatever the parent, and that file name is the last component of the artifact's path. A text
without slashes that carries a declared name is the file name of the artifact of the parent that
it tells of, if it tells of any: the part in front of the last separator is not empty, nor a dot
alone where there is no extension or an empty one. -/
theorem declaredName?_inverse :
    (∀ (parent : Path) (name : String), isDeclaredName name = true →
      declaredName? (artifactFileName parent name) = some name ∧
        (artifactPath parent name).fileName = some (artifactFileName parent name)) ∧
    ∀ fileName name : String, '/' ∉ fileName.toList → declaredName? fileName = some name →
      isDeclaredName name = true ∧
        ∃ stem front, Path.fileStem ⟨fileName⟩ = some stem ∧
          splitLast separator.toList stem.toList = some (front, name.toList) ∧
          (front ≠ [] → (front = ['.'] → ∃ e ∈ Path.extension ⟨fileName⟩, e ≠ "") →
            fileName =
              artifactFileName (carriedParent front (Path.extension ⟨fileName⟩)) name) := by
  refine ⟨?_, ?_⟩
  · intro parent name hn
    exact ⟨declaredName?_artifactFileName hn, fileName_artifactPath hn⟩
  · intro fileName name hslash h
    obtain ⟨hn, stem, front, hstem, hsplit⟩ := declaredName?_eq_some_iff.mp h
    refine ⟨hn, stem, front, hstem, hsplit, ?_⟩
    exact eq_artifactFileName_of_front (isEntryName_of_fileStem hslash hstem) hstem hsplit

/-- A parent without a name, and a parent whose stem is a dot. -/
theorem declaredName?_inverse_dot_stem :
    let parent : Path := ⟨"/x/.."⟩
    let fileName := ".__A_.x"
    (isDeclaredName "A_" = true ∧ '/' ∉ fileName.toList ∧ declaredName? fileName = some "A_") ∧
    (declaredName? (artifactFileName parent "A_") = some "A_" ∧
      (artifactPath parent "A_").fileName = some (artifactFileName parent "A_")) ∧
    fileName = artifactFileName ⟨"..x"⟩ "A_" := by
  intro parent fileName
  have hn : isDeclaredName "A_" = true := by decide
  have hslash : '/' ∉ fileName.toList := by decide
  have hname : declaredName? fileName = some "A_" := by decide +kernel
  have hext : Path.extension ⟨fileName⟩ = some "x" := by decide +kernel
  refine ⟨⟨hn, hslash, hname⟩, declaredName?_inverse.1 parent "A_" hn, ?_⟩
  obtain ⟨-, stem, front, hstem, hsplit, hparent⟩ :=
    declaredName?_inverse.2 fileName "A_" hslash hname
  obtain rfl : ".__A_" = stem := Option.some.inj (Eq.trans (by decide +kernel) hstem)
  obtain ⟨rfl, -⟩ : ['.'] = front ∧ _ := Prod.mk.inj (Option.some.inj (Eq.trans (by cbv) hsplit))
  rw [hext] at hparent
  exact hparent (by simp) (by simp)

/-- A file name that carries a declared name and is no artifact's: a dot in front of the separator,
with the empty extension, is the directory above and no name. -/
theorem ne_artifactFileName_of_dots :
    let fileName := ".__A."
    ('/' ∉ fileName.toList ∧ declaredName? fileName = some "A" ∧
      Path.fileStem ⟨fileName⟩ = some ".__A" ∧
      splitLast separator.toList ".__A".toList = some (['.'], ['A']) ∧
      Path.extension ⟨fileName⟩ = some "") ∧
    carriedParent ['.'] (some "") = ⟨".."⟩ ∧ artifactFileName ⟨".."⟩ "A" = "__A" ∧
      fileName ≠ artifactFileName (carriedParent ['.'] (some "")) "A" := by
  intro fileName
  have hparent : carriedParent ['.'] (some "") = ⟨".."⟩ := by decide
  have hartifact : artifactFileName ⟨".."⟩ "A" = "__A" := by decide +kernel
  refine ⟨⟨by decide, by decide +kernel, by decide +kernel, by decide +kernel, by decide +kernel⟩,
    hparent, hartifact, ?_⟩
  rw [hparent, hartifact]
  decide

end InlineComponents
