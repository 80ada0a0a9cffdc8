import InlineComponents.Proofs.ArtifactPaths
import InlineComponents.Proofs.Components
import InlineComponents.Proofs.Transforms
import Mathlib.Data.List.Nodup

namespace InlineComponents

/-- Components as they can be extracted from files that are one parent once their paths are
cleaned. -/
structure ExtractedFrom (parent : Path) (cs : List SubComponent) : Prop where
  placed : ∀ c ∈ cs, ∃ file : Path, file.clean = parent ∧ c.path = artifactPath file c.name
  declared : ∀ c ∈ cs, isDeclaredName c.name = true
  nodup : (cs.map SubComponent.name).Nodup

theorem extractedFrom_nil (parent : Path) : ExtractedFrom parent [] :=
  ⟨by simp, by simp, List.nodup_nil⟩

theorem ExtractedFrom.sublist {parent : Path} {cs cs' : List SubComponent}
    (h : ExtractedFrom parent cs) (hs : cs'.Sublist cs) : ExtractedFrom parent cs' :=
  ⟨fun c hc => h.placed c (hs.subset hc), fun c hc => h.declared c (hs.subset hc),
    h.nodup.sublist (hs.map _)⟩

/-- A component lies nowhere but where its parent and its name lead. -/
theorem ExtractedFrom.eq_of_artifactPath {parent : Path} {cs : List SubComponent}
    (h : ExtractedFrom parent cs) {c : SubComponent} (hc : c ∈ cs) {file : Path} {name : String}
    (hn : isDeclaredName name = true) (he : c.path.clean = (artifactPath file name).clean) :
    parent = file.clean ∧ c.name = name := by
  obtain ⟨file', hf, hp⟩ := h.placed c hc
  rw [hp] at he
  obtain ⟨hparent, hname⟩ := artifactPath_clean_inj (h.declared c hc) hn he
  exact ⟨hf ▸ hparent, hname⟩

/-- Components at the same cleaned path have the same parent and the same name. -/
theorem ExtractedFrom.path_clean_inj {parent parent' : Path} {cs cs' : List SubComponent}
    (h : ExtractedFrom parent cs) (h' : ExtractedFrom parent' cs') {c c' : SubComponent}
    (hc : c ∈ cs) (hc' : c' ∈ cs') (he : c.path.clean = c'.path.clean) :
    parent = parent' ∧ c.name = c'.name := by
  obtain ⟨file, hf, hp⟩ := h'.placed c' hc'
  rw [hp] at he
  rw [← hf]
  exact h.eq_of_artifactPath hc (h'.declared c' hc') he

theorem ExtractedFrom.eq_of_path_clean {parent : Path} {cs : List SubComponent}
    (h : ExtractedFrom parent cs) {c c' : SubComponent} (hc : c ∈ cs) (hc' : c' ∈ cs)
    (he : c.path.clean = c'.path.clean) : c = c' :=
  List.inj_on_of_nodup_map h.nodup hc hc' (h.path_clean_inj h hc hc' he).2

theorem ExtractedFrom.nodup_paths {parent : Path} {cs : List SubComponent}
    (h : ExtractedFrom parent cs) : (cs.map fun c => c.path.clean).Nodup := by
  apply List.Nodup.map_on
  · intro c hc c' hc' he
    exact h.eq_of_path_clean hc hc' he
  · exact List.Nodup.of_map _ h.nodup

theorem extractedFrom_extract {source : String} {file : Path} {policy : DuplicatePolicy}
    {e : Extraction} (h : (extract source file policy).2 = .ok e) :
    ExtractedFrom file.clean e.components := by
  obtain ⟨-, rfl⟩ := extract_eq_ok h
  refine ⟨?_, ?_, ?_⟩
  · intro c hc
    exact ⟨file, rfl, (Outline.mem_components_iff.mp hc).1⟩
  · intro c hc
    exact isDeclaredName_of_mem_components hc
  · exact Outline.nodup_names _ file

/-- What the host does with a component while it builds. -/
inductive BuildStep where
  | transform (code id : String)
  | moduleParsed (id : String)
  | buildStart

namespace Plugin

def step {σ : Type} [FileSystem σ] (p : Plugin) (s : Session σ) : BuildStep → Session σ
  | .transform code id => (p.transform code id s).2
  | .moduleParsed id => (p.moduleParsed id s).2
  | .buildStart => (onBuildStart s).2

/-- The components that a step extracts, with their cleaned parent. -/
def extracts (p : Plugin) : BuildStep → Option (Path × List SubComponent)
  | .transform code id => (p.extraction? code id).map fun e => (Path.clean ⟨id⟩, e.components)
  | .moduleParsed _ | .buildStart => none

/-- The components of the last extraction from a parent. -/
def lastExtracted (p : Plugin) (run : List BuildStep) (parent : Path) : List SubComponent :=
  ((run.filterMap p.extracts).reverse.lookup parent).getD []

/-- The components of all extractions. -/
def everExtracted (p : Plugin) (run : List BuildStep) : List SubComponent :=
  (run.filterMap p.extracts).flatMap Prod.snd

/-- The component is one of the last extraction from some parent, and lies at that cleaned path. -/
def Declares (p : Plugin) (run : List BuildStep) (key : Path) (c : SubComponent) : Prop :=
  ∃ parent, c ∈ p.lastExtracted run parent ∧ c.path.clean = key

/-- A step after a run writes the artifact at a cleaned path: a transform those that it extracts,
and the start of a build all that are declared. -/
def Writes (p : Plugin) (run : List BuildStep) (key : Path) : BuildStep → Prop
  | .transform code id => ∃ e, p.extraction? code id = some e ∧
    ∃ c ∈ e.components, c.path.clean = key
  | .moduleParsed _ => False
  | .buildStart => ∃ c, p.Declares run key c

/-- A step releases the artifact at a cleaned path. -/
def Releases (p : Plugin) (key : Path) : BuildStep → Prop
  | .moduleParsed id => isArtifactId id p.options.extensions = true ∧ Path.clean ⟨id⟩ = key
  | .transform .. | .buildStart => False

/-- The artifact has been written, and not been released since it was written last. -/
def WrittenLast (p : Plugin) (run : List BuildStep) (key : Path) : Prop :=
  ∃ before step after, run = before ++ step :: after ∧ p.Writes before key step ∧
    ∀ later ∈ after, ¬ p.Releases key later

variable {p : Plugin}

theorem exists_of_extraction? {code id : String} {e : Extraction}
    (h : p.extraction? code id = some e) :
    p.options.shouldTransform id = true ∧ ∃ prepared, p.prepare (.ofId id code) id = .ok prepared ∧
      (extract prepared.code ⟨id⟩ p.options.onDuplicate).2 = .ok e := by
  unfold extraction? extracted? at h
  split at h
  · next hid =>
    refine ⟨hid, ?_⟩
    split at h
    · simp at h
    · next prepared hp =>
      refine ⟨prepared, hp, ?_⟩
      cases hr : (extract prepared.code ⟨id⟩ p.options.onDuplicate).2 with
      | error failure => simp [SourceUnit.ofId, hr, Except.toOption] at h
      | ok extraction =>
        obtain rfl : extraction = e := by simpa [SourceUnit.ofId, hr, Except.toOption] using h
        rfl
  · simp at h

/-- The components that are extracted from a file lie where they are declared. -/
theorem path_of_mem_extraction? {code id : String} {e : Extraction}
    (h : p.extraction? code id = some e) {c : SubComponent} (hc : c ∈ e.components) :
    c.path = artifactPath ⟨id⟩ c.name ∧ isDeclaredName c.name = true := by
  obtain ⟨-, prepared, -, he⟩ := exists_of_extraction? h
  obtain ⟨-, rfl⟩ := extract_eq_ok he
  exact ⟨(Outline.mem_components_iff.mp hc).1, isDeclaredName_of_mem_components hc⟩

theorem extractedFrom_of_extraction? {code id : String} {e : Extraction}
    (h : p.extraction? code id = some e) : ExtractedFrom (Path.clean ⟨id⟩) e.components := by
  obtain ⟨-, prepared, -, he⟩ := exists_of_extraction? h
  exact extractedFrom_extract he

/-- What is extracted from a file is where a name leads just if it has that name. -/
theorem exists_path_clean_iff {code id : String} {e : Extraction}
    (h : p.extraction? code id = some e) {name : String} (hn : isDeclaredName name = true) :
    (∃ c ∈ e.components, c.path.clean = (artifactPath ⟨id⟩ name).clean) ↔
      ∃ c ∈ e.components, c.name = name := by
  constructor
  · rintro ⟨c, hc, hp⟩
    exact ⟨c, hc, ((extractedFrom_of_extraction? h).eq_of_artifactPath hc hn hp).2⟩
  · rintro ⟨c, hc, rfl⟩
    exact ⟨c, hc, by rw [(path_of_mem_extraction? h hc).1]⟩

theorem extractedFrom_of_extracts {step : BuildStep} {parent : Path} {cs : List SubComponent}
    (h : p.extracts step = some (parent, cs)) : ExtractedFrom parent cs := by
  cases step with
  | transform code id =>
    obtain ⟨e, he, hp⟩ := Option.map_eq_some_iff.mp h
    obtain ⟨rfl, rfl⟩ := Prod.mk.inj hp
    exact extractedFrom_of_extraction? he
  | moduleParsed id => simp [extracts] at h
  | buildStart => simp [extracts] at h

theorem extractedFrom_of_mem {run : List BuildStep} {parent : Path} {cs : List SubComponent}
    (h : (parent, cs) ∈ run.filterMap p.extracts) : ExtractedFrom parent cs := by
  obtain ⟨step, -, hs⟩ := List.mem_filterMap.mp h
  exact extractedFrom_of_extracts hs

theorem lastExtracted_concat (run : List BuildStep) (step : BuildStep) (parent : Path) :
    p.lastExtracted (run ++ [step]) parent =
      match p.extracts step with
      | some (other, cs) => if parent = other then cs else p.lastExtracted run parent
      | none => p.lastExtracted run parent := by
  unfold lastExtracted
  rw [List.filterMap_append]
  cases h : p.extracts step with
  | none => simp [h]
  | some extraction =>
    obtain ⟨other, cs⟩ := extraction
    simp only [List.filterMap_cons, h, List.filterMap_nil, List.reverse_append,
      List.reverse_singleton, List.singleton_append, List.lookup_cons]
    by_cases hp : parent = other
    · simp [hp]
    · simp [hp, beq_false_of_ne hp]

theorem everExtracted_concat (run : List BuildStep) (step : BuildStep) :
    p.everExtracted (run ++ [step]) =
      p.everExtracted run ++ ((p.extracts step).map Prod.snd).getD [] := by
  rw [everExtracted, List.filterMap_append, List.flatMap_append]
  cases h : p.extracts step <;> simp [everExtracted, h]

theorem extractedFrom_lastExtracted (run : List BuildStep) (parent : Path) :
    ExtractedFrom parent (p.lastExtracted run parent) := by
  induction run using List.reverseRecOn with
  | nil => exact extractedFrom_nil parent
  | append_singleton run step ih =>
    rw [lastExtracted_concat]
    split
    · next other cs h =>
      split
      · next hp => exact hp ▸ extractedFrom_of_extracts h
      · exact ih
    · exact ih

/-- No two parents have declared the same path. -/
theorem parent_eq_of_lastExtracted {run : List BuildStep} {parent other : Path}
    {cs : List SubComponent} (h : ExtractedFrom parent cs) {c d : SubComponent} (hc : c ∈ cs)
    (hd : d ∈ p.lastExtracted run other) (he : d.path.clean = c.path.clean) : other = parent :=
  ((extractedFrom_lastExtracted run other).path_clean_inj h hd hc he).1

theorem lastExtracted_subset (run : List BuildStep) (parent : Path) :
    p.lastExtracted run parent ⊆ p.everExtracted run := by
  induction run using List.reverseRecOn with
  | nil => simp [lastExtracted]
  | append_singleton run step ih =>
    rw [lastExtracted_concat, everExtracted_concat]
    intro c hc
    rw [List.mem_append]
    split at hc
    · next other cs h =>
      split at hc
      · exact .inr (by simpa [h] using hc)
      · exact .inl (ih hc)
    · exact .inl (ih hc)

theorem writtenLast_concat (run : List BuildStep) (step : BuildStep) (key : Path) :
    p.WrittenLast (run ++ [step]) key ↔
      p.Writes run key step ∨ p.WrittenLast run key ∧ ¬ p.Releases key step := by
  constructor
  · rintro ⟨before, writer, after, he, hw, hr⟩
    rcases List.eq_nil_or_concat after with rfl | ⟨between, last, rfl⟩
    · obtain ⟨rfl, hs⟩ := List.append_inj' he rfl
      obtain rfl : step = writer := by simpa using hs
      exact .inl hw
    · rw [List.concat_eq_append, ← List.cons_append, ← List.append_assoc] at he
      obtain ⟨rfl, hs⟩ := List.append_inj' he rfl
      obtain rfl : step = last := by simpa using hs
      refine .inr ⟨⟨before, writer, between, rfl, hw, ?_⟩, hr step (by simp)⟩
      intro later hl
      exact hr later (by simp [hl])
  · rintro (hw | ⟨⟨before, writer, after, rfl, hw, hr⟩, hs⟩)
    · exact ⟨run, step, [], rfl, hw, by simp⟩
    · refine ⟨before, writer, after ++ [step], by simp, hw, ?_⟩
      intro later hl
      rcases List.mem_append.mp hl with hl | hl
      · exact hr later hl
      · rw [List.mem_singleton.mp hl]
        exact hs

end Plugin

end InlineComponents
