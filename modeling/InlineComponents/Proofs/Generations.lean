import InlineComponents.Proofs.ArtifactNames
import InlineComponents.Proofs.Bodies
import InlineComponents.Proofs.Extractions

namespace InlineComponents

/-- The components declared in a source, none if it cannot be extracted. -/
def nested (policy : DuplicatePolicy) (file : Path) (source : String) : List SubComponent :=
  match (extract source file policy).2 with
  | .ok e => e.components
  | .error _ => []

/-- The components that are found so many levels deep, each in the file and the body of one that
is found a level above. -/
def generation (policy : DuplicatePolicy) (file : Path) (source : String) :
    Nat → List SubComponent
  | 0 => nested policy file source
  | depth + 1 => (generation policy file source depth).flatMap fun c => nested policy c.path c.body

/-- The components of the first levels, one level after the other. -/
def generations (policy : DuplicatePolicy) (file : Path) (source : String) (depth : Nat) :
    List SubComponent :=
  (List.range depth).flatMap (generation policy file source)

/-- A longer name is not that of the same path. -/
theorem clean_ne_of_fileName_length_lt {p q : Path} {name name' : String}
    (hp : p.fileName = some name) (hq : q.fileName = some name')
    (h : name.length < name'.length) : q.clean ≠ p.clean := by
  intro he
  obtain ⟨-, rfl⟩ := (Path.clean_eq_iff_of_fileName hq hp).mp he
  exact Nat.lt_irrefl _ h

theorem length_lt_artifactFileName {parent : Path} {fileName : String}
    (h : parent.fileName = some fileName) (name : String) :
    fileName.length < (artifactFileName parent name).length := by
  have hsplit := isSplitName_of_fileName h
  rw [← String.length_toList, ← String.length_toList, toList_artifactFileName]
  cases hx : parent.extension with
  | none =>
    rw [hx] at hsplit
    rw [← hsplit.1]
    simp
  | some extension =>
    rw [hx] at hsplit
    rw [hsplit.2.1]
    simp
    omega

section Nested

variable {policy : DuplicatePolicy} {file : Path} {source : String}

theorem exists_extract_of_mem_nested {c : SubComponent} (h : c ∈ nested policy file source) :
    ∃ e, (extract source file policy).2 = .ok e ∧ c ∈ e.components := by
  unfold nested at h
  split at h
  · next e he => exact ⟨e, he, h⟩
  · cases h

theorem artifactPath_of_mem_nested {c : SubComponent} (h : c ∈ nested policy file source) :
    isDeclaredName c.name = true ∧ c.path = artifactPath file c.name := by
  obtain ⟨e, he, hc⟩ := exists_extract_of_mem_nested h
  obtain ⟨-, rfl⟩ := extract_eq_ok he
  exact ⟨isDeclaredName_of_mem_components hc, (Outline.mem_components_iff.mp hc).1⟩

theorem nodup_nested : ((nested policy file source).map fun c => c.path.clean).Nodup := by
  unfold nested
  split
  · next e he => exact (extractedFrom_extract he).nodup_paths
  · exact List.nodup_nil

/-- What is found at the same place is declared in the same parent. -/
theorem clean_eq_of_mem_nested {file' : Path} {source' : String} {c d : SubComponent}
    (hc : c ∈ nested policy file source) (hd : d ∈ nested policy file' source')
    (h : c.path.clean = d.path.clean) : file.clean = file'.clean := by
  obtain ⟨hname, hpath⟩ := artifactPath_of_mem_nested hc
  obtain ⟨hname', hpath'⟩ := artifactPath_of_mem_nested hd
  rw [hpath, hpath'] at h
  exact (artifactPath_clean_inj hname hname' h).1

theorem mem_generation_succ {depth : Nat} {d : SubComponent} :
    d ∈ generation policy file source (depth + 1) ↔
      ∃ c ∈ generation policy file source depth, d ∈ nested policy c.path c.body :=
  List.mem_flatMap

/-- A level deeper, what is declared is shorter. -/
theorem body_of_mem_generation {depth : Nat} {c : SubComponent}
    (h : c ∈ generation policy file source depth) :
    c.body.utf8ByteSize + depth < source.utf8ByteSize := by
  induction depth generalizing c with
  | zero =>
    obtain ⟨e, he, hc⟩ := exists_extract_of_mem_nested h
    exact body_lt_of_extract he hc
  | succ depth ih =>
    obtain ⟨parent, hp, hc⟩ := mem_generation_succ.mp h
    obtain ⟨e, he, hc⟩ := exists_extract_of_mem_nested hc
    have hparent := ih hp
    have hbody := body_lt_of_extract he hc
    omega

/-- At every level, the names of the files are longer than that of the first. -/
theorem fileName_of_mem_generation {fileName : String} (hf : file.fileName = some fileName)
    {depth : Nat} {c : SubComponent} (h : c ∈ generation policy file source depth) :
    ∃ name, c.path.fileName = some name ∧ fileName.length < name.length := by
  have below {parent : Path} {text : String} {c : SubComponent} {name : String}
      (hp : parent.fileName = some name) (hc : c ∈ nested policy parent text) :
      ∃ name', c.path.fileName = some name' ∧ name.length < name'.length := by
    obtain ⟨hname, hpath⟩ := artifactPath_of_mem_nested hc
    exact ⟨_, hpath ▸ fileName_artifactPath hname, length_lt_artifactFileName hp c.name⟩
  induction depth generalizing c with
  | zero => exact below hf h
  | succ depth ih =>
    obtain ⟨parent, hp, hc⟩ := mem_generation_succ.mp h
    obtain ⟨name, hn, hl⟩ := ih hp
    obtain ⟨name', hn', hl'⟩ := below hn hc
    exact ⟨name', hn', Nat.lt_trans hl hl'⟩

theorem clean_ne_of_mem_generation {fileName : String} (hf : file.fileName = some fileName)
    {depth : Nat} {c : SubComponent} (h : c ∈ generation policy file source depth) :
    c.path.clean ≠ file.clean := by
  obtain ⟨name, hn, hl⟩ := fileName_of_mem_generation hf h
  exact clean_ne_of_fileName_length_lt hf hn hl

/-- Two levels have no place in common: their parents would have one too, and so on up to the file
in which all are declared. -/
theorem clean_ne_of_lt {fileName : String} (hf : file.fileName = some fileName)
    {depth depth' : Nat} (h : depth < depth') {c d : SubComponent}
    (hc : c ∈ generation policy file source depth)
    (hd : d ∈ generation policy file source depth') : c.path.clean ≠ d.path.clean := by
  induction depth generalizing depth' c d with
  | zero =>
    obtain ⟨later, rfl⟩ := Nat.exists_eq_succ_of_ne_zero (Nat.ne_of_gt h)
    obtain ⟨parent, hp, hd⟩ := mem_generation_succ.mp hd
    intro he
    exact clean_ne_of_mem_generation hf hp (clean_eq_of_mem_nested hc hd he).symm
  | succ depth ih =>
    obtain ⟨later, rfl⟩ := Nat.exists_eq_succ_of_ne_zero (Nat.ne_of_gt (Nat.zero_lt_of_lt h))
    obtain ⟨parent, hp, hc⟩ := mem_generation_succ.mp hc
    obtain ⟨parent', hp', hd⟩ := mem_generation_succ.mp hd
    intro he
    exact ih (Nat.lt_of_succ_lt_succ h) hp hp' (clean_eq_of_mem_nested hc hd he)

theorem nodup_generation (depth : Nat) :
    ((generation policy file source depth).map fun c => c.path.clean).Nodup := by
  induction depth with
  | zero => exact nodup_nested
  | succ depth ih =>
    rw [generation, List.map_flatMap, List.nodup_flatMap]
    refine ⟨fun _ _ => nodup_nested, ?_⟩
    refine (List.pairwise_map.mp ih).imp ?_
    intro c d hne place hc hd
    obtain ⟨c', hc', rfl⟩ := List.mem_map.mp hc
    obtain ⟨d', hd', he⟩ := List.mem_map.mp hd
    exact hne (clean_eq_of_mem_nested hc' hd' he.symm)

/-- Extraction in the bodies that were extracted comes to an end, and no two components, at
whatever levels, have the same place, nor has one that of the file in which all are declared. -/
theorem generations_distinct {fileName : String} (hf : file.fileName = some fileName) :
    (∀ depth, source.utf8ByteSize ≤ depth → generation policy file source depth = []) ∧
      ∀ depth, ((generations policy file source depth).map SubComponent.path).Nodup ∧
        ((generations policy file source depth).map fun c => c.path.clean).Nodup ∧
        ∀ c ∈ generations policy file source depth, c.path ≠ file ∧ c.path.clean ≠ file.clean := by
  refine ⟨?_, fun depth => ?_⟩
  · intro depth hd
    rw [List.eq_nil_iff_forall_not_mem]
    intro c hc
    have hbody := body_of_mem_generation hc
    omega
  have hclean : ((generations policy file source depth).map fun c => c.path.clean).Nodup := by
    rw [generations, List.map_flatMap, List.nodup_flatMap]
    refine ⟨fun _ _ => nodup_generation _, ?_⟩
    refine List.pairwise_lt_range.imp ?_
    intro level level' hl place hp hp'
    obtain ⟨c, hc, rfl⟩ := List.mem_map.mp hp
    obtain ⟨d, hd, he⟩ := List.mem_map.mp hp'
    exact clean_ne_of_lt hf hl hc hd he.symm
  refine ⟨?_, hclean, fun c hc => ?_⟩
  · refine List.Nodup.of_map Path.clean ?_
    rwa [List.map_map]
  · obtain ⟨level, -, hc⟩ := List.mem_flatMap.mp hc
    have hne := clean_ne_of_mem_generation hf hc
    exact ⟨fun he => hne (congrArg Path.clean he), hne⟩

end Nested

/-- Two components of one name, the second in the first. -/
theorem generations_distinct_same_name :
    let file : Path := ⟨"/A.svelte"⟩
    let source := "<template name=A><template name=A>ü</template></template>"
    let found : List SubComponent := [⟨"A", ⟨"/A__A.svelte"⟩, "<template name=A>ü</template>"⟩,
      ⟨"A", ⟨"/A__A__A.svelte"⟩, "ü"⟩]
    file.fileName = some "A.svelte" ∧ generations .lastWins file source 3 = found ∧
      (∀ depth, source.utf8ByteSize ≤ depth → generation .lastWins file source depth = []) ∧
      ∀ depth, ((generations .lastWins file source depth).map SubComponent.path).Nodup ∧
        ((generations .lastWins file source depth).map fun c => c.path.clean).Nodup ∧
        ∀ c ∈ generations .lastWins file source depth,
          c.path ≠ file ∧ c.path.clean ≠ file.clean := by
  intro file source found
  have hf : file.fileName = some "A.svelte" := by decide +kernel
  exact ⟨hf, by decide +kernel, generations_distinct hf⟩

end InlineComponents
