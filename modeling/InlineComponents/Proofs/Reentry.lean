import InlineComponents.FileSystem.Memory
import InlineComponents.Plugin.Transform
import InlineComponents.Proofs.ArtifactNames
import InlineComponents.Proofs.Components

namespace InlineComponents

theorem endsWith_iff_suffix {s t : String} : s.endsWith t = true ↔ t.toList <:+ s.toList := by
  rw [String.endsWith_eq_endsWith_toSlice, String.Slice.endsWith_string_iff, String.copy_toSlice]

theorem Path.suffix_join (p : Path) (name : String) :
    name.toList <:+ (p.join name).text.toList := by
  unfold Path.join
  split
  · exact List.suffix_rfl
  · split
    · exact ⟨p.text.toList, String.toList_append.symm⟩
    · exact ⟨(p.text ++ "/").toList, String.toList_append.symm⟩

theorem dot_notMem_extension {p : Path} {x : String} (h : p.extension = some x) :
    '.' ∉ x.toList := by
  cases hf : p.fileName with
  | none =>
    rw [(fileStem_of_fileName_none hf).2] at h
    cases h
  | some name =>
    have hsplit := isSplitName_of_fileName hf
    rw [h] at hsplit
    exact hsplit.2.2

/-- An extension is the same with or without the dot in front. -/
theorem bareExtension_of_dot_notMem {x : String} (h : '.' ∉ x.toList) :
    bareExtension x = x ∧ bareExtension ("." ++ x) = x := by
  have hdrop : x.toList.dropWhile (· = '.') = x.toList := by
    cases hx : x.toList with
    | nil => rfl
    | cons c cs =>
      have hc : c ≠ '.' := by
        rintro rfl
        exact h (hx ▸ List.mem_cons_self)
      rw [List.dropWhile_cons_of_neg (by simpa using hc)]
  have hdot : ("." ++ x).toList = '.' :: x.toList := by simp
  refine ⟨?_, ?_⟩
  · rw [bareExtension, hdrop, String.ofList_toList]
  · rw [bareExtension, hdot, List.dropWhile_cons_of_pos (by simp), hdrop, String.ofList_toList]

namespace Options

theorem shouldTransform_iff (o : Options) (id : String) :
    o.shouldTransform id = true ↔ o.claims id = true ∧
      (∀ part ∈ o.excluded, id.contains part = false) ∧
      (o.included = [] ∨ ∃ part ∈ o.included, id.contains part = true) := by
  simp [shouldTransform, and_assoc]

end Options

section

variable {parent : Path} {name x : String} {extensions : List String}

theorem extension_artifactPath (h : isDeclaredName name = true) :
    (artifactPath parent name).extension = parent.extension := by
  have hname := @fileName_artifactPath parent name h
  generalize artifactPath parent name = path at hname ⊢
  have hartifact := @isSplitName_artifactFileName parent name (isDeclared_of_isDeclaredName h)
  obtain ⟨-, he⟩ := (isSplitName_of_fileName hname).unique hartifact
  exact Option.map_injective (fun _ _ => String.toList_inj.mp) he

theorem suffix_artifactPath (hx : parent.extension = some x) :
    '.' :: x.toList <:+ (artifactPath parent name).text.toList := by
  have hname : '.' :: x.toList <:+ (artifactFileName parent name).toList := by
    rw [toList_artifactFileName, hx]
    exact List.suffix_append _ _
  rw [artifactPath_eq, Path.withFileName]
  exact hname.trans (Path.suffix_join parent.place _)

theorem isArtifactId_artifactPath (h : isDeclaredName name = true)
    (hx : parent.extension = some x) (hclaimed : "." ++ x ∈ extensions ∨ x ∈ extensions) :
    isArtifactId (artifactPath parent name).text extensions = true := by
  obtain ⟨hbare, hdotted⟩ := bareExtension_of_dot_notMem (dot_notMem_extension hx)
  have hany : (extensions.any fun extension => bareExtension extension = x) = true := by
    rw [List.any_eq_true]
    rcases hclaimed with hm | hm
    · exact ⟨_, hm, by simpa using hdotted⟩
    · exact ⟨_, hm, by simpa using hbare⟩
  have hname := @fileName_artifactPath parent name h
  have hext := @extension_artifactPath parent name h
  rw [isArtifactId]
  simp only [hname, hext, hx, Option.any_some, hany, Option.bind_some,
    declaredName?_artifactFileName h, Option.isSome_some, Bool.and_self]

theorem claims_artifactPath {o : Options} (hx : parent.extension = some x)
    (hclaimed : "." ++ x ∈ o.extensions ∨ x ∈ o.extensions) :
    o.claims (artifactPath parent name).text = true := by
  have hdotted := @suffix_artifactPath parent name x hx
  rw [Options.claims, List.any_eq_true]
  rcases hclaimed with hm | hm
  · refine ⟨_, hm, endsWith_iff_suffix.mpr ?_⟩
    simpa using hdotted
  · exact ⟨_, hm, endsWith_iff_suffix.mpr ((List.suffix_cons _ _).trans hdotted)⟩

end

/-- An artifact of a component whose extension is claimed is transformed in its turn, unless an
excluded or a missing included text keeps it from that, and is released as soon as it is read. -/
theorem reenters_of_mem_components (p : Plugin) {id source x : String} {policy : DuplicatePolicy}
    {e : Extraction} {c : SubComponent} (hx : Path.extension ⟨id⟩ = some x)
    (hclaimed : "." ++ x ∈ p.options.extensions ∨ x ∈ p.options.extensions)
    (he : (extract source ⟨id⟩ policy).2 = .ok e) (hc : c ∈ e.components)
    (hexcluded : ∀ part ∈ p.options.excluded, c.path.text.contains part = false) :
    (p.options.shouldTransform c.path.text = true ↔ p.options.included = [] ∨
      ∃ part ∈ p.options.included, c.path.text.contains part = true) ∧
    isArtifactId c.path.text p.options.extensions = true ∧
    ∀ {σ : Type} [FileSystem σ] (s : Session σ),
      p.moduleParsed c.path.text s = s.release c.path ∧
      ∀ text, p.options.shouldTransform c.path.text = true →
        (p.transform text c.path.text s).1 ≠ .ok none := by
  obtain ⟨-, rfl⟩ := extract_eq_ok he
  have hpath : c.path = artifactPath ⟨id⟩ c.name := (Outline.mem_components_iff.mp hc).1
  have hname : isDeclaredName c.name = true := isDeclaredName_of_mem_components hc
  have hclaims : p.options.claims c.path.text = true := by
    rw [hpath]
    exact claims_artifactPath hx hclaimed
  have hartifact : isArtifactId c.path.text p.options.extensions = true := by
    rw [hpath]
    exact isArtifactId_artifactPath hname hx hclaimed
  refine ⟨?_, hartifact, ?_⟩
  · rw [Options.shouldTransform_iff, and_iff_right hclaims, and_iff_right hexcluded]
  · intro σ _ s
    refine ⟨?_, ?_⟩
    · rw [Plugin.moduleParsed, if_pos hartifact]
    · intro text hid
      rw [Plugin.transform, if_pos hid]
      split
      · simp
      · simp

/-- A component that is transformed, and one extracted from it that is not excluded. -/
structure Extracts (o : Options) (source id : String) (c : SubComponent) : Prop where
  transformed : o.shouldTransform id = true
  extracted : ∃ e, (extract source ⟨id⟩ o.onDuplicate).2 = .ok e ∧ c ∈ e.components
  notExcluded : ∀ part ∈ o.excluded, c.path.text.contains part = false

theorem extract_oneBlock : (extract "<template name=A></template>" ⟨"/P.svelte"⟩ .default).2 =
    .ok ⟨"", [⟨"A", ⟨"/P__A.svelte"⟩, ""⟩]⟩ :=
  toOption_eq_some_iff.mp (by decide +kernel)

theorem extract_oneBlock_dotted :
    (extract "<template name=A></template>" ⟨"/P.x.y"⟩ .default).2 =
      .ok ⟨"", [⟨"A", ⟨"/P.x__A.y"⟩, ""⟩]⟩ :=
  toOption_eq_some_iff.mp (by decide +kernel)

theorem reenters_of_mem_components_included :
    let o : Options := { Options.default with included := ["P"], excluded := ["node_modules"] }
    let p : Plugin := ⟨o, none, none, fun source _ => .ok ⟨source, none, none, [], []⟩⟩
    let c : SubComponent := ⟨"A", ⟨"/P__A.svelte"⟩, ""⟩
    let s : Session Memory := .start .empty
    (Path.extension ⟨"/P.svelte"⟩ = some "svelte" ∧ "." ++ "svelte" ∈ o.extensions ∧
      (extract "<template name=A></template>" ⟨"/P.svelte"⟩ .default).2 = .ok ⟨"", [c]⟩ ∧
      ∀ part ∈ o.excluded, c.path.text.contains part = false) ∧
    o.shouldTransform c.path.text = true ∧ isArtifactId c.path.text o.extensions = true ∧
      p.moduleParsed c.path.text s = s.release c.path ∧
      (p.transform "" c.path.text s).1 ≠ .ok none := by
  intro o p c s
  have hx : Path.extension ⟨"/P.svelte"⟩ = some "svelte" := by decide +kernel
  have hclaimed : "." ++ "svelte" ∈ o.extensions := List.mem_cons_self
  have hexcluded : ∀ part ∈ o.excluded, c.path.text.contains part = false := by
    intro part hp
    rw [List.mem_singleton.mp hp, String.contains_string_eq_false_iff]
    decide +kernel
  have hincluded : c.path.text.contains "P" = true :=
    String.contains_string_iff.mpr (by decide +kernel)
  obtain ⟨htransformed, hartifact, hhost⟩ := reenters_of_mem_components p hx (.inl hclaimed)
    extract_oneBlock List.mem_cons_self hexcluded
  have hid : o.shouldTransform c.path.text = true :=
    htransformed.mpr (.inr ⟨"P", List.mem_cons_self, hincluded⟩)
  obtain ⟨hreleased, hcompiled⟩ := hhost s
  exact ⟨⟨hx, hclaimed, extract_oneBlock, hexcluded⟩, hid, hartifact, hreleased, hcompiled "" hid⟩

/-- An included text can be in the id of a component and not in that of its artifact, and an
extension with more than one dot does not end the artifact's file name. -/
theorem not_reentered_of_included :
    let o : Options := { Options.default with included := ["/P.svelte"] }
    let o' : Options := { Options.default with extensions := [".x.y"] }
    (∃ c, Extracts o "<template name=A></template>" "/P.svelte" c ∧
      o.shouldTransform c.path.text = false) ∧
    ∃ c, Extracts o' "<template name=A></template>" "/P.x.y" c ∧
      o'.shouldTransform c.path.text = false ∧ isArtifactId c.path.text o'.extensions = false := by
  intro o o'
  have hid : o.shouldTransform "/P.svelte" = true := by
    rw [Options.shouldTransform_iff]
    exact ⟨by decide +kernel, by simp [o, Options.default],
      .inr ⟨_, List.mem_cons_self, String.contains_string_iff.mpr (by decide +kernel)⟩⟩
  have hout : o.shouldTransform "/P__A.svelte" = false := by
    rw [← Bool.not_eq_true, Options.shouldTransform_iff]
    rintro ⟨-, -, hnone | ⟨part, hpart, hholds⟩⟩
    · cases hnone
    · rw [List.mem_singleton.mp hpart, String.contains_string_iff] at hholds
      exact absurd hholds (by decide +kernel)
  have hid' : o'.shouldTransform "/P.x.y" = true := by decide +kernel
  exact ⟨⟨_, ⟨hid, ⟨_, extract_oneBlock, List.mem_cons_self⟩, by simp [o, Options.default]⟩, hout⟩,
    ⟨_, ⟨hid', ⟨_, extract_oneBlock_dotted, List.mem_cons_self⟩, by simp [o', Options.default]⟩,
      by decide +kernel, by decide +kernel⟩⟩

end InlineComponents
