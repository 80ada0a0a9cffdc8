import InlineComponents.Proofs.ArtifactPaths

namespace InlineComponents

/-- The name after the last separator is the declared one. -/
theorem splitLast_separator {name : List Char} (h : IsDeclared name) (stem : List Char) :
    splitLast separator.toList (stem ++ '_' :: '_' :: name) = some (stem, name) := by
  have hno : ∀ rest, rest <:+ name.reverse → rest ≠ [] →
      ['_', '_'].isPrefixOf (rest ++ '_' :: '_' :: stem.reverse) = false := by
    intro rest hs hr
    have hprefix : rest.reverse <+: name := by simpa using List.reverse_prefix.mpr hs
    rw [Bool.eq_false_iff]
    intro hp
    match rest with
    | [] => exact hr rfl
    | [c] =>
      -- the first character of the name is a capital
      obtain ⟨d, cs, rfl, hupper⟩ := h.starts
      obtain rfl : c = d := by simpa using hprefix
      obtain rfl : '_' = c := by simpa [List.isPrefixOf] using hp
      exact absurd hupper (by decide)
    | c :: d :: rest =>
      obtain ⟨rfl, rfl⟩ : '_' = c ∧ '_' = d := by simpa [List.isPrefixOf] using hp
      obtain ⟨after, ha⟩ := hprefix
      exact h.noSeparator ⟨rest.reverse, after, by simpa using ha⟩
  have hb : breakAt (['_', '_'].isPrefixOf ·) (name.reverse ++ '_' :: '_' :: stem.reverse) =
      some (name.reverse, '_' :: '_' :: stem.reverse) :=
    breakAt_append_eq_some (List.cons_ne_nil _ _) rfl hno
  have hr : (stem ++ '_' :: '_' :: name).reverse = name.reverse ++ '_' :: '_' :: stem.reverse := by
    simp
  have hsep : separator.toList.reverse = ['_', '_'] := by rw [toList_separator]; rfl
  rw [splitLast, hr, hsep]
  simp only [hb, toList_separator]
  simp

namespace Path

theorem fileName_of_isEntryName {name : String} (h : IsEntryName name.toList) :
    fileName ⟨name⟩ = some name := by
  apply @fileName_of_parts ⟨name⟩ []
  have hanchor := h.anchor_eq []
  rw [List.append_nil] at hanchor
  rw [parts_eq, hanchor, h.segmentParts_eq, String.ofList_toList]
  rfl

theorem parent_of_fileName {p : Path} {name : String} (h : p.fileName = some name) :
    p.parent = some p.place := by
  have hparent : ∃ dir, p.parent = some dir := by
    cases hl : p.split.2.getLast? with
    | none => simp [fileName, hl] at h
    | some last =>
      obtain ⟨init, hinit⟩ := List.getLast?_eq_some_iff.mp hl
      have hidle := isIdle_getLast?_dropTail (splitAll '/' (anchor p.text.toList).2)
      change p.split.2.getLast?.any isIdle = false at hidle
      rw [hl] at hidle
      rw [parent, hinit, List.reverse_append]
      exact ⟨_, if_neg (by simpa using hidle)⟩
  obtain ⟨dir, hdir⟩ := hparent
  rw [place, if_pos (by simp [h]), hdir, Option.getD_some]

end Path

variable {parent : Path} {name : String}

theorem fileName_artifactPath (h : isDeclaredName name = true) :
    (artifactPath parent name).fileName = some (artifactFileName parent name) :=
  Path.fileName_of_parts
    (Path.parts_join (isEntryName_artifactFileName (isDeclared_of_isDeclaredName h)) parent.place)

/-- An artifact's file name carries the name that was declared, whatever its parent. -/
theorem declaredName?_artifactFileName (h : isDeclaredName name = true) :
    declaredName? (artifactFileName parent name) = some name := by
  have hd := isDeclared_of_isDeclaredName h
  generalize hf : artifactFileName parent name = fileName
  have hentry : Path.IsEntryName fileName.toList := hf ▸ isEntryName_artifactFileName hd
  have hsplit : IsSplitName fileName.toList
      ((parent.fileStem.getD "").toList ++ '_' :: '_' :: name.toList)
      (parent.extension.map String.toList) := hf ▸ isSplitName_artifactFileName hd
  have hname : Path.fileName ⟨fileName⟩ = some fileName := Path.fileName_of_isEntryName hentry
  obtain ⟨hstem, -⟩ := (isSplitName_of_fileName hname).unique hsplit
  have hstem? : Path.fileStem ⟨fileName⟩ = some (Path.splitExtension fileName).1 := by
    rw [Path.fileStem, hname, Option.map_some]
  rw [hstem?, Option.getD_some] at hstem
  have hlast := splitLast_separator hd (parent.fileStem.getD "").toList
  rw [← hstem] at hlast
  simp only [declaredName?, hstem?, hlast, Option.bind_eq_bind, Option.bind_some,
    String.ofList_toList, h, ↓reduceIte]

end InlineComponents
