import InlineComponents.Proofs.ArtifactPaths

namespace InlineComponents

/-- An id that goes on after its front with a dot and the extension of its file name. -/
structure IsSpelled (id front extension : String) : Prop where
  spelled : id = front ++ "." ++ extension
  nonempty : extension ≠ ""
  parsed : Path.extension ⟨id⟩ = some extension

theorem joinAll_concat_append (sep : Char) (parts : List (List Char)) (part rest : List Char) :
    joinAll sep (parts ++ [part ++ rest]) = joinAll sep (parts ++ [part]) ++ rest := by
  cases parts with
  | nil => simp [joinAll]
  | cons first parts => simp [joinAll]

namespace Path

theorem split_of_fileName {p : Path} {name : String} (h : p.fileName = some name) :
    ∃ init, p.split.2 = init ++ [name.toList] := by
  unfold fileName at h
  split at h
  · cases h
  · next last hlast =>
    split at h
    · cases h
    · obtain rfl := Option.some.inj h
      obtain ⟨init, hinit⟩ := List.getLast?_eq_some_iff.mp hlast
      exact ⟨init, by rw [hinit, String.toList_ofList]⟩

/-- A path that ends neither in a slash nor in a dot is put together again from its segments. -/
theorem glue_split {p : Path} (hne : p.split.2 ≠ [])
    (hend : ∀ c, p.text.toList.getLast? = some c → c ≠ '/' ∧ c ≠ '.') :
    glue p.split.1 p.split.2 = p.text := by
  have hjoin := joinAll_splitAll '/' (anchor p.text.toList).2
  have hanchor := anchor_fst_append_snd p.text.toList
  obtain ⟨tail, htail, hidle⟩ :=
    exists_dropTail_append isIdle (splitAll '/' (anchor p.text.toList).2)
  have hsplit : splitAll '/' (anchor p.text.toList).2 = p.split.2 ++ tail := htail
  rw [hsplit] at hjoin
  rcases List.eq_nil_or_concat tail with rfl | ⟨before, last, rfl⟩
  · rw [List.append_nil] at hjoin
    show String.ofList ((anchor p.text.toList).1 ++ joinAll '/' p.split.2) = p.text
    rw [hjoin, hanchor, String.ofList_toList]
  · -- a segment that is left out at the end is empty or a dot, and the text would end in it
    rw [List.concat_eq_append, ← List.append_assoc,
      joinAll_append '/' (by simp [hne]) (List.cons_ne_nil _ _)] at hjoin
    have hone : joinAll '/' [last] = last := by simp [joinAll]
    have htext : p.text.toList =
        (anchor p.text.toList).1 ++ joinAll '/' (p.split.2 ++ before) ++ '/' :: last := by
      rw [hone] at hjoin
      rw [List.append_assoc, hjoin, hanchor]
    have hlast : isIdle last = true := hidle last (by simp)
    simp only [isIdle, Bool.or_eq_true, decide_eq_true_eq] at hlast
    rcases hlast with rfl | rfl
    · exact absurd rfl (hend '/' (by rw [htext]; simp)).1
    · exact absurd rfl (hend '.' (by rw [htext]; simp)).2

end Path

variable {id front extension : String}

theorem IsSpelled.exists_fileName (h : IsSpelled id front extension) :
    ∃ name, Path.fileName ⟨id⟩ = some name := by
  cases hf : Path.fileName ⟨id⟩ with
  | none =>
    have hparsed := h.parsed
    rw [(fileStem_of_fileName_none hf).2] at hparsed
    cases hparsed
  | some name => exact ⟨name, rfl⟩

/-- The last character is one of the extension, which holds no slash and no dot. -/
theorem IsSpelled.getLast_ne (h : IsSpelled id front extension) {c : Char}
    (hc : id.toList.getLast? = some c) : c ≠ '/' ∧ c ≠ '.' := by
  obtain ⟨name, hname⟩ := h.exists_fileName
  have hsplit := isSplitName_of_fileName hname
  rw [h.parsed] at hsplit
  obtain ⟨-, hcut, hdot⟩ := hsplit
  have hslash : '/' ∉ extension.toList := by
    have hno := (Path.parts_of_fileName hname).1.noSlash
    rw [hcut] at hno
    exact fun hm => hno (by simp [hm])
  obtain ⟨before, last, hlast⟩ :=
    (List.eq_nil_or_concat extension.toList).resolve_left (by simpa using h.nonempty)
  have hid : id.toList = front.toList ++ '.' :: before ++ [last] := by
    rw [h.spelled, String.toList_append, String.toList_append, hlast]
    simp
  rw [hid, List.getLast?_concat] at hc
  obtain rfl := Option.some.inj hc
  have hmem : last ∈ extension.toList := by simp [hlast]
  exact ⟨fun he => hslash (he ▸ hmem), fun he => hdot (he ▸ hmem)⟩

/-- Up to its stem the path is the front. -/
theorem IsSpelled.glue_eq (h : IsSpelled id front extension) {name : String}
    (hname : Path.fileName ⟨id⟩ = some name) {init : List (List Char)}
    (hinit : (Path.split ⟨id⟩).2 = init ++ [name.toList]) (rest : List Char) :
    Path.glue (Path.split ⟨id⟩).1 (init ++ [(Path.splitExtension name).1.toList ++ rest]) =
      front ++ String.ofList rest := by
  have hsplit := isSplitName_of_fileName hname
  rw [h.parsed, Path.fileStem, hname, Option.map_some, Option.getD_some] at hsplit
  have hglue : Path.glue (Path.split ⟨id⟩).1 (Path.split ⟨id⟩).2 = id :=
    @Path.glue_split ⟨id⟩ (by simp [hinit]) fun c hc => h.getLast_ne hc
  have htext : id.toList = front.toList ++ '.' :: extension.toList := by
    rw [h.spelled, String.toList_append, String.toList_append]
    simp
  have hjoin : front.toList ++ '.' :: extension.toList = (Path.split ⟨id⟩).1 ++
      joinAll '/' (init ++ [(Path.splitExtension name).1.toList]) ++ '.' :: extension.toList := by
    have hlist := congrArg String.toList hglue
    rw [hinit, hsplit.2.1, Path.glue, String.toList_ofList, joinAll_concat_append, htext] at hlist
    rw [← hlist, List.append_assoc]
  rw [Path.glue, joinAll_concat_append, ← List.append_assoc, ← List.append_cancel_right hjoin]
  simp

/-- The stylesheet of a component lies where the component does, under the same front; the file
`..x` has no stem in front of its extension but a dot. -/
theorem IsSpelled.stylesheetId_eq (h : IsSpelled id front extension) :
    stylesheetId id = front ++ ".css" ∨ stylesheetId id = front ++ "." := by
  obtain ⟨name, hname⟩ := h.exists_fileName
  obtain ⟨init, hinit⟩ := Path.split_of_fileName hname
  have hglue := h.glue_eq hname hinit
  rw [stylesheetId, Path.withExtension, hname]
  dsimp only
  rw [hinit, List.dropLast_concat]
  split
  · next hspecial =>
    simp only [Bool.and_eq_true, decide_eq_true_eq] at hspecial
    have hdots : (Path.splitExtension name).1.toList ++ ['.'] = "..".toList := by
      rw [hspecial.1.1]
      rfl
    right
    show Path.glue _ (init ++ ["..".toList]) = _
    rw [← hdots, hglue]
  · have hkept : Path.glue (Path.split ⟨id⟩).1 (init ++ [(Path.splitExtension name).1.toList]) =
        front := by
      simpa using hglue []
    left
    show Path.glue _ (init ++ [(Path.splitExtension name).1.toList]) ++ "." ++ "css" = _
    rw [hkept, String.append_assoc]
    rfl

/-- Components with the same stylesheet have the same front: they differ in their extensions
alone. -/
theorem IsSpelled.front_eq {id' front' extension' : String} (h : IsSpelled id front extension)
    (h' : IsSpelled id' front' extension') (he : stylesheetId id = stylesheetId id') :
    front = front' := by
  have hends (first second : String) : first ++ ".css" ≠ second ++ "." := by
    intro heq
    have hlast := congrArg (fun s => s.toList.getLast?) heq
    simp at hlast
  rcases h.stylesheetId_eq with hk | hk <;> rcases h'.stylesheetId_eq with hk' | hk' <;>
    rw [hk, hk'] at he
  · exact (String.append_left_inj _).mp he
  · exact absurd he (hends _ _)
  · exact absurd he.symm (hends _ _)
  · exact (String.append_left_inj _).mp he

end InlineComponents
