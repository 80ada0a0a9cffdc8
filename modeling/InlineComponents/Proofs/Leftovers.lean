import InlineComponents.Proofs.Dropping
import InlineComponents.Proofs.Extractions
import InlineComponents.Proofs.Holding
import InlineComponents.Proofs.Uptakes

namespace InlineComponents

/-- What happens in a build: the host calls a hook, or something else changes the files or what can
be done with them. -/
inductive Happening (σ : Type) where
  | build (step : BuildStep)
  | files (change : σ → σ)

/-- The components that a transform of a parent has registered, and whether all of them were
written. -/
structure Uptake where
  parent : Path
  components : List SubComponent
  completed : Bool

/-- The components of the last transform of a parent in which all of them were written. -/
def declaredLast (ups : List Uptake) (parent : Path) : List SubComponent :=
  ups.foldl (fun cs u => if u.completed = true ∧ u.parent = parent then u.components else cs) []

/-- A transform of the parent that could not write all its components has registered one at the
path, which the parent did not declare before, and no transform that could has declared it since. -/
def LeftOver (ups : List Uptake) (parent key : Path) : Prop :=
  ∃ before u after, ups = before ++ u :: after ∧ (u.parent = parent ∧ u.completed = false) ∧
    (∃ c ∈ u.components, c.path.clean = key) ∧
    (∀ c ∈ declaredLast before parent, c.path.clean ≠ key) ∧
    ∀ later ∈ after, later.parent = parent → later.completed = true →
      ∀ c ∈ later.components, c.path.clean ≠ key

/-- A parent declares the path, or has left it over. -/
def KnownFrom (ups : List Uptake) (parent key : Path) : Prop :=
  (∃ c ∈ declaredLast ups parent, c.path.clean = key) ∨ LeftOver ups parent key

section

variable {ups : List Uptake} {parent other key : Path} {cs : List SubComponent}

theorem declaredLast_concat (u : Uptake) :
    declaredLast (ups ++ [u]) parent =
      if u.completed = true ∧ u.parent = parent then u.components else declaredLast ups parent := by
  rw [declaredLast, List.foldl_append]
  rfl

theorem leftOver_concat (u : Uptake) :
    LeftOver (ups ++ [u]) parent key ↔
      (LeftOver ups parent key ∧ (u.parent = parent → u.completed = true →
        ∀ c ∈ u.components, c.path.clean ≠ key)) ∨
      ((u.parent = parent ∧ u.completed = false) ∧ (∃ c ∈ u.components, c.path.clean = key) ∧
        ∀ c ∈ declaredLast ups parent, c.path.clean ≠ key) := by
  constructor
  · rintro ⟨before, v, after, he, hv, hc, hd, hl⟩
    rcases List.eq_nil_or_concat after with rfl | ⟨between, last, rfl⟩
    · obtain ⟨rfl, hu⟩ := List.append_inj' he rfl
      obtain rfl : u = v := by simpa using hu
      exact .inr ⟨hv, hc, hd⟩
    · rw [List.concat_eq_append, ← List.cons_append, ← List.append_assoc] at he
      obtain ⟨rfl, hu⟩ := List.append_inj' he rfl
      obtain rfl : u = last := by simpa using hu
      refine .inl ⟨⟨before, v, between, rfl, hv, hc, hd, ?_⟩, hl u (by simp)⟩
      intro later hm
      exact hl later (by simp [hm])
  · rintro (⟨⟨before, v, after, rfl, hv, hc, hd, hl⟩, hu⟩ | ⟨hu, hc, hd⟩)
    · refine ⟨before, v, after ++ [u], by simp, hv, hc, hd, ?_⟩
      intro later hm
      rcases List.mem_append.mp hm with hm | hm
      · exact hl later hm
      · rw [List.mem_singleton.mp hm]
        exact hu
    · exact ⟨ups, u, [], rfl, hu, hc, hd, by simp⟩

/-- What is left over is not declared. -/
theorem LeftOver.not_declared (h : LeftOver ups parent key) :
    ∀ c ∈ declaredLast ups parent, c.path.clean ≠ key := by
  induction ups using List.reverseRecOn with
  | nil => simp [declaredLast]
  | append_singleton ups u ih =>
    rw [declaredLast_concat]
    rcases (leftOver_concat u).mp h with ⟨hold, hu⟩ | ⟨⟨-, hfailed⟩, -, hd⟩
    · split
      · next hdone => exact hu hdone.2 hdone.1
      · exact ih hold
    · rw [hfailed, if_neg (by simp)]
      exact hd

theorem knownFrom_completed :
    KnownFrom (ups ++ [⟨other, cs, true⟩]) parent key ↔
      if parent = other then (∃ c ∈ cs, c.path.clean = key) ∨ LeftOver ups parent key
      else KnownFrom ups parent key := by
  rw [KnownFrom, declaredLast_concat, leftOver_concat]
  by_cases hp : parent = other
  · subst hp
    by_cases hc : ∃ c ∈ cs, c.path.clean = key
    · simp [hc]
    · have hne : ∀ c ∈ cs, c.path.clean ≠ key := fun c hm he => hc ⟨c, hm, he⟩
      simpa [hc] using fun _ => hne
  · simp [hp, Ne.symm hp, KnownFrom]

theorem knownFrom_failed :
    KnownFrom (ups ++ [⟨other, cs, false⟩]) parent key ↔
      KnownFrom ups parent key ∨ (parent = other ∧ ∃ c ∈ cs, c.path.clean = key) := by
  have hdeclared : declaredLast (ups ++ [⟨other, cs, false⟩]) parent = declaredLast ups parent := by
    rw [declaredLast_concat]
    exact if_neg (by simp)
  rw [KnownFrom, hdeclared, leftOver_concat, KnownFrom]
  constructor
  · rintro (h | ⟨h, -⟩ | ⟨⟨hp, -⟩, hc, -⟩)
    · exact .inl (.inl h)
    · exact .inl (.inr h)
    · exact .inr ⟨hp.symm, hc⟩
  · rintro ((h | h) | ⟨hp, hc⟩)
    · exact .inl h
    · exact .inr (.inl ⟨h, fun _ hf => Bool.noConfusion hf⟩)
    · by_cases hd : ∃ c ∈ declaredLast ups parent, c.path.clean = key
      · exact .inl hd
      · exact .inr (.inr ⟨⟨hp.symm, rfl⟩, hc, fun c hm he => hd ⟨c, hm, he⟩⟩)

theorem extractedFrom_declaredLast (hx : ∀ u ∈ ups, ExtractedFrom u.parent u.components)
    (parent : Path) : ExtractedFrom parent (declaredLast ups parent) := by
  induction ups using List.reverseRecOn with
  | nil => exact extractedFrom_nil parent
  | append_singleton ups u ih =>
    rw [declaredLast_concat]
    split
    · next hu => exact hu.2 ▸ hx u (by simp)
    · exact ih fun v hv => hx v (List.mem_append_left _ hv)

/-- A path is known from one parent alone. -/
theorem KnownFrom.parent_eq {file : Path} {name : String}
    (h : KnownFrom ups parent (artifactPath file name).clean) (hn : isDeclaredName name = true)
    (hx : ∀ u ∈ ups, ExtractedFrom u.parent u.components) : parent = file.clean := by
  rcases h with ⟨d, hd, hk⟩ | ⟨before, u, after, rfl, ⟨hp, -⟩, ⟨d, hd, hk⟩, -⟩
  · exact ((extractedFrom_declaredLast hx parent).eq_of_artifactPath hd hn hk).1
  · rw [← hp]
    exact ((hx u (by simp)).eq_of_artifactPath hd hn hk).1

end

namespace Plugin

open Session

variable {σ : Type}

/-- The known artifacts are those that the uptakes account for. -/
structure Tracks (ups : List Uptake) (s : Session σ) : Prop where
  extracted : ∀ u ∈ ups, ExtractedFrom u.parent u.components
  indexed : s.Indexed
  children : ∀ parent, s.childrenOf parent = (declaredLast ups parent).map fun c => c.path.clean
  known : ∀ key, s.Knows key ↔ ∃ parent, KnownFrom ups parent key

variable {ups : List Uptake} {s t : Session σ} {parent : Path} {cs : List SubComponent}

theorem tracks_start (files : σ) : Tracks [] (Session.start files) where
  extracted := by simp
  indexed := ⟨List.nodup_nil, by simp [Session.start, Table.find?]⟩
  children _ := rfl
  known key := by
    simp [Knows, KnownFrom, LeftOver, declaredLast, Session.start, Table.find?]

theorem Tracks.sameRegister (h : Tracks ups s) (hs : SameRegister s t) : Tracks ups t where
  extracted := h.extracted
  indexed := hs.indexed h.indexed
  children parent := (hs.children parent).trans (h.children parent)
  known key := (hs.known key).trans (h.known key)

theorem Tracks.extracted_concat (h : Tracks ups s) {u : Uptake}
    (hu : ExtractedFrom u.parent u.components) :
    ∀ v ∈ ups ++ [u], ExtractedFrom v.parent v.components := by
  intro v hv
  rcases List.mem_append.mp hv with hv | hv
  · exact h.extracted v hv
  · rwa [List.mem_singleton.mp hv]

/-- What the parent had is forgotten, and what it has left over stays. -/
theorem Tracks.completed (h : Tracks ups s) (hcs : ExtractedFrom parent cs) (hi : t.Indexed)
    (hk : ∀ key, t.Knows key ↔
      (∃ c ∈ cs, c.path.clean = key) ∨ s.Knows key ∧ key ∉ s.childrenOf parent)
    (hc : ∀ other, t.childrenOf other =
      if other = parent then cs.map fun c => c.path.clean else s.childrenOf other) :
    Tracks (ups ++ [⟨parent, cs, true⟩]) t where
  extracted := h.extracted_concat hcs
  indexed := hi
  children other := by
    rw [hc, declaredLast_concat]
    by_cases ho : other = parent
    · simp [ho]
    · simp [ho, Ne.symm ho, h.children]
  known key := by
    have hmem : key ∈ s.childrenOf parent ↔ ∃ c ∈ declaredLast ups parent, c.path.clean = key := by
      rw [h.children, List.mem_map]
    rw [hk]
    constructor
    · rintro (hc | ⟨hs, hno⟩)
      · exact ⟨parent, knownFrom_completed.mpr ((if_pos rfl).mpr (.inl hc))⟩
      · obtain ⟨other, ho⟩ := (h.known key).mp hs
        refine ⟨other, knownFrom_completed.mpr ?_⟩
        split
        · next he =>
          subst he
          exact .inr (ho.resolve_left fun hd => hno (hmem.mpr hd))
        · exact ho
    · rintro ⟨other, ho⟩
      have ho := knownFrom_completed.mp ho
      split at ho
      · next he =>
        rcases ho with hc | hl
        · exact .inl hc
        · refine .inr ⟨(h.known key).mpr ⟨parent, .inr (he ▸ hl)⟩, ?_⟩
          intro hm
          obtain ⟨d, hd, hdk⟩ := hmem.mp hm
          exact LeftOver.not_declared (he ▸ hl) d hd hdk
      · next he =>
        refine .inr ⟨(h.known key).mpr ⟨other, ho⟩, ?_⟩
        intro hm
        obtain ⟨d, hd, rfl⟩ := hmem.mp hm
        have hparent := extractedFrom_declaredLast h.extracted parent
        obtain ⟨file, hfile, hp⟩ := hparent.placed d hd
        rw [hp] at ho
        exact he ((ho.parent_eq (hparent.declared d hd) h.extracted).trans hfile)

theorem Tracks.failed (h : Tracks ups s) (hcs : ExtractedFrom parent cs) (hi : t.Indexed)
    (hk : ∀ key, t.Knows key ↔ (∃ c ∈ cs, c.path.clean = key) ∨ s.Knows key)
    (hc : ∀ other, t.childrenOf other = s.childrenOf other) :
    Tracks (ups ++ [⟨parent, cs, false⟩]) t where
  extracted := h.extracted_concat hcs
  indexed := hi
  children other := by
    rw [hc, h.children, declaredLast_concat]
    simp
  known key := by
    rw [hk, h.known]
    constructor
    · rintro (hc | ⟨other, ho⟩)
      · exact ⟨parent, knownFrom_failed.mpr (.inr ⟨rfl, hc⟩)⟩
      · exact ⟨other, knownFrom_failed.mpr (.inl ho)⟩
    · rintro ⟨other, ho⟩
      rcases knownFrom_failed.mp ho with ho | ⟨-, hc⟩
      · exact .inr ⟨other, ho⟩
      · exact .inl hc

variable [FileSystem σ]

def happen (p : Plugin) (s : Session σ) : Happening σ → Session σ
  | .build step => p.step s step
  | .files change => { s with files := change s.files }

/-- What a step registers, and whether it comes to its end with it. -/
def uptake? (p : Plugin) (s : Session σ) : BuildStep → Option Uptake
  | .transform code id => (p.extraction? code id).map fun e =>
    ⟨Path.clean ⟨id⟩, (writeEach s.files e.components).1, (writeEach s.files e.components).2⟩
  | .moduleParsed _ | .buildStart => none

def uptakes (p : Plugin) (s : Session σ) : List (Happening σ) → List Uptake
  | [] => []
  | .build step :: run => (p.uptake? s step).toList ++ p.uptakes (p.step s step) run
  | .files change :: run => p.uptakes { s with files := change s.files } run

variable {p : Plugin}

theorem uptake?_writable {s : Session Memory} (hw : s.files.readOnly = false) {code id : String}
    {e : Extraction} (he : p.extraction? code id = some e) :
    p.uptake? s (.transform code id) = some ⟨Path.clean ⟨id⟩, e.components, true⟩ := by
  rw [uptake?, he, Option.map_some, writeEach_writable hw]

theorem Tracks.transformed (h : Tracks ups s) (code id : String) :
    Tracks (ups ++ (p.uptake? s (.transform code id)).toList) (p.transform code id s).2 := by
  have htakes := p.takes_transform code id s
  rw [uptake?]
  cases he : p.extraction? code id with
  | none =>
    rw [he] at htakes
    rw [Option.map_none, Option.toList_none, List.append_nil]
    exact h.sameRegister (SameStore.sameRegister htakes)
  | some e =>
    rw [he] at htakes
    obtain ⟨u, hu, ht⟩ := htakes
    have hall := extractedFrom_of_extraction? he
    have htracks : Tracks ups u := h.sameRegister hu.sameRegister
    have hindexed := htracks.indexed.takeUp ⟨id⟩ e.components
    rw [Option.map_some, Option.toList_some, ← hu.files]
    refine Tracks.sameRegister ?_ ht.sameRegister
    obtain ⟨hpart, heq⟩ := writeEach_fst u.files e.components
    rcases u.takeUp_cases ⟨id⟩ e.components with ⟨hdone, hk, hc⟩ | ⟨hfailed, hk, hc⟩
    · rw [hdone, heq hdone]
      exact htracks.completed hall hindexed hk hc
    · rw [hfailed]
      exact htracks.failed (hall.sublist hpart.sublist) hindexed hk hc

theorem Tracks.step (h : Tracks ups s) (step : BuildStep) :
    Tracks (ups ++ (p.uptake? s step).toList) (p.step s step) := by
  cases step with
  | transform code id => exact h.transformed code id
  | moduleParsed id =>
    rw [uptake?, Option.toList_none, List.append_nil]
    exact h.sameRegister (sameRegister_moduleParsed p id s)
  | buildStart =>
    rw [uptake?, Option.toList_none, List.append_nil]
    exact h.sameRegister (sameRegister_materializeAll s)

theorem tracks_foldl (h : Tracks ups s) (run : List (Happening σ)) :
    Tracks (ups ++ p.uptakes s run) (run.foldl p.happen s) := by
  induction run generalizing ups s with
  | nil =>
    rw [uptakes, List.append_nil]
    exact h
  | cons happening run ih =>
    cases happening with
    | build step =>
      have hrest := ih (h.step (p := p) step)
      rw [List.append_assoc] at hrest
      exact hrest
    | files change =>
      have hchanged : Tracks ups { s with files := change s.files } :=
        h.sameRegister ⟨fun _ => rfl, fun _ => rfl, id⟩
      exact ih hchanged

theorem tracks_run (p : Plugin) (files : σ) (run : List (Happening σ)) :
    Tracks (p.uptakes (.start files) run) (run.foldl p.happen (.start files)) :=
  tracks_foldl (tracks_start files) run

/-- After a transform in which everything was written, the artifacts known of its parent are the
components that were extracted and, besides, those that earlier transforms of it left over when
they could not write them. All known artifacts are written when a build starts, those as well. -/
theorem knows_after_completed [LawfulFileSystem σ] (p : Plugin) (files : σ)
    (run : List (Happening σ)) {code id : String} {e : Extraction}
    (he : p.extraction? code id = some e)
    (hw : (writeEach (run.foldl p.happen (.start files)).files e.components).2 = true) :
    let t := p.step (run.foldl p.happen (.start files)) (.transform code id)
    (∀ name, isDeclaredName name = true →
      (t.Knows (artifactPath ⟨id⟩ name).clean ↔ (∃ c ∈ e.components, c.name = name) ∨
        LeftOver (p.uptakes (.start files) run) (Path.clean ⟨id⟩)
          (artifactPath ⟨id⟩ name).clean)) ∧
    ∀ count u, t.materializeAll = (.ok count, u) → ∀ key,
      (t.Knows key → ∃ a, t.artifacts.find? key = some a ∧
        u.content key = some a.component.body.toUTF8) ∧
      (¬ t.Knows key → u.content key = t.content key) := by
  intro t
  let s := run.foldl p.happen (.start files)
  let ups := p.uptakes (.start files) run
  have htracks : Tracks (ups ++ [⟨Path.clean ⟨id⟩, e.components, true⟩]) t := by
    have hs : Tracks (ups ++ (p.uptake? s (.transform code id)).toList) t :=
      (tracks_run p files run).step (.transform code id)
    have huptake : p.uptake? s (.transform code id) =
        some ⟨Path.clean ⟨id⟩, e.components, true⟩ := by
      rw [uptake?, he, Option.map_some, hw, (writeEach_fst s.files e.components).2 hw]
    rwa [huptake] at hs
  refine ⟨?_, ?_⟩
  · intro name hname
    rw [htracks.known, ← exists_path_clean_iff he hname]
    constructor
    · rintro ⟨parent, hp⟩
      obtain rfl := hp.parent_eq hname htracks.extracted
      have hk := knownFrom_completed.mp hp
      rwa [if_pos rfl] at hk
    · intro hk
      refine ⟨Path.clean ⟨id⟩, knownFrom_completed.mpr ?_⟩
      rwa [if_pos rfl]
  · intro count u hu key
    exact content_materializeAll htracks.indexed hu key

/-- A block whose file could not be written is renamed, and known by its old name as well. -/
theorem knows_after_completed_renamed :
    let p : Plugin := ⟨.default, none, none, fun _ _ => .error ""⟩
    let run : List (Happening Memory) := [.files (·.setReadOnly true),
      .build (.transform "<template name=A>a</template>" "/P.svelte"), .files (·.setReadOnly false)]
    let s := run.foldl p.happen (.start .empty)
    let e : Extraction := ⟨"", [⟨"B", ⟨"/P__B.svelte"⟩, "b"⟩]⟩
    let t := p.step s (.transform "<template name=B>b</template>" "/P.svelte")
    (p.extraction? "<template name=B>b</template>" "/P.svelte" = some e ∧
      (writeEach s.files e.components).2 = true) ∧
      t.Knows (artifactPath ⟨"/P.svelte"⟩ "B").clean ∧
      t.Knows (artifactPath ⟨"/P.svelte"⟩ "A").clean := by
  intro p run s e t
  let a : SubComponent := ⟨"A", ⟨"/P__A.svelte"⟩, "a"⟩
  have ha : (artifactPath ⟨"/P.svelte"⟩ "A").clean = a.path.clean :=
    Path.clean_eq_clean_iff.mpr (by decide +kernel)
  have hbefore : p.extraction? "<template name=A>a</template>" "/P.svelte" = some ⟨"", [a]⟩ := by
    decide +kernel
  have he : p.extraction? "<template name=B>b</template>" "/P.svelte" = some e := by decide +kernel
  have hwritable : s.files.readOnly = false := rfl
  have hw : (writeEach s.files e.components).2 = true := by rw [writeEach_writable hwritable]
  have hups : p.uptakes (.start .empty) run = [⟨Path.clean ⟨"/P.svelte"⟩, [a], false⟩] := by
    rw [uptakes, uptakes, uptake?, hbefore, Option.map_some, writeEach_readOnly rfl]
    rfl
  have hdeclared : ∃ c ∈ e.components, c.name = "B" :=
    ⟨⟨"B", ⟨"/P__B.svelte"⟩, "b"⟩, List.mem_singleton_self _, rfl⟩
  have hleft : LeftOver (p.uptakes (.start .empty) run) (Path.clean ⟨"/P.svelte"⟩)
      (artifactPath ⟨"/P.svelte"⟩ "A").clean := by
    rw [hups, ha]
    exact ⟨[], _, [], rfl, ⟨rfl, rfl⟩, ⟨a, List.mem_singleton_self a, rfl⟩,
      fun c hc => absurd hc List.not_mem_nil, fun u hu => absurd hu List.not_mem_nil⟩
  have hb : isDeclaredName "B" = true := by decide +kernel
  have hname : isDeclaredName "A" = true := by decide +kernel
  obtain ⟨hknown, -⟩ := @knows_after_completed Memory _ _ p .empty run _ _ e he hw
  exact ⟨⟨he, hw⟩, (hknown "B" hb).mpr (.inl hdeclared), (hknown "A" hname).mpr (.inr hleft)⟩

/-- A block whose file could not be written is renamed, and when a build starts its old file is
written, which was not there. -/
theorem undeclared_written_of_renamed :
    let p : Plugin := ⟨.default, none, none, fun _ _ => .error ""⟩
    let run : List (Happening Memory) := [.files (·.setReadOnly true),
      .build (.transform "<template name=A>a</template>" "/P.svelte"), .files (·.setReadOnly false)]
    let s := run.foldl p.happen (.start .empty)
    let e : Extraction := ⟨"", [⟨"B", ⟨"/P__B.svelte"⟩, "b"⟩]⟩
    let t := p.step s (.transform "<template name=B>b</template>" "/P.svelte")
    (p.extraction? "<template name=B>b</template>" "/P.svelte" = some e ∧
      (writeEach s.files e.components).2 = true) ∧
      (isDeclaredName "A" = true ∧ ∀ c ∈ e.components, c.name ≠ "A") ∧
      t.Knows (artifactPath ⟨"/P.svelte"⟩ "A").clean ∧
      t.content (artifactPath ⟨"/P.svelte"⟩ "A").clean = none ∧
      (p.step t .buildStart).content (artifactPath ⟨"/P.svelte"⟩ "A").clean =
        some "a".toUTF8 := by
  intro p run s e t
  let a : SubComponent := ⟨"A", ⟨"/P__A.svelte"⟩, "a"⟩
  have ha : (artifactPath ⟨"/P.svelte"⟩ "A").clean = a.path.clean :=
    Path.clean_eq_clean_iff.mpr (by decide +kernel)
  have hbefore : p.extraction? "<template name=A>a</template>" "/P.svelte" = some ⟨"", [a]⟩ := by
    decide +kernel
  have he : p.extraction? "<template name=B>b</template>" "/P.svelte" = some e := by decide +kernel
  have hwritable : s.files.readOnly = false := rfl
  have hw : (writeEach s.files e.components).2 = true := by rw [writeEach_writable hwritable]
  have hname : isDeclaredName "A" = true := by decide +kernel
  let locked : Session Memory := p.happen (.start .empty) (.files (·.setReadOnly true))
  -- The first transform registers the block and writes nothing.
  obtain ⟨u, hu, hs⟩ : ∃ u, locked.SameStore u ∧ (u.register a).SameStore
      (p.step locked (.transform "<template name=A>a</template>" "/P.svelte")) := by
    have htakes := p.takes_transform "<template name=A>a</template>" "/P.svelte" locked
    rw [hbefore] at htakes
    obtain ⟨u, hu, ht⟩ := htakes
    have hlocked : u.files.readOnly = true := by
      rw [hu.files]
      rfl
    rw [takeUp_readOnly hlocked] at ht
    exact ⟨u, hu, ht⟩
  have hchildren : s.children = [] := by
    show (p.step locked (.transform "<template name=A>a</template>" "/P.svelte")).children = []
    rw [hs.children]
    exact hu.children
  -- The second one publishes the other block, and forgets nothing, as the parent has no children.
  have htook : TookUp (Path.clean ⟨"/P.svelte"⟩) e.components s t := by
    have htakes := p.takes_transform "<template name=B>b</template>" "/P.svelte" s
    rw [he] at htakes
    obtain ⟨v, hv, ht⟩ := htakes
    have hnone : (v.children.find? (Path.clean ⟨"/P.svelte"⟩)).getD [] = [] := by
      rw [hv.children, hchildren]
      rfl
    have htaken := tookUp_takeUp (s := v) (by rwa [hv.files])
      (extractedFrom_of_extraction? he).nodup_paths (by rw [hnone]; simp)
    exact htaken.sameStore hv ht
  have htracks := tracks_run p Memory.empty run
  have hindexed : t.Indexed :=
    (htracks.step (p := p) (.transform "<template name=B>b</template>" "/P.svelte")).indexed
  have hapart : ∀ c ∈ e.components, c.path.clean ≠ a.path.clean := by
    intro c hc hp
    rw [List.mem_singleton.mp hc, ← ha] at hp
    have hall := extractedFrom_of_extraction? he
    exact absurd (hall.eq_of_artifactPath List.mem_cons_self hname hp).2 (by decide)
  have hother := htook.other a.path.clean (by rw [hchildren]; exact List.not_mem_nil) hapart
  have hknown : t.artifacts.find? a.path.clean = some ⟨a, false⟩ := by
    rw [hother.1]
    show (p.step locked (.transform _ _)).artifacts.find? a.path.clean = _
    rw [hs.artifacts, find?_register, if_pos rfl]
  have hwritten := (wrote_materializeAll htook.writable hindexed.nodup hindexed.placed).written a
    (List.mem_map.mpr ⟨_, Table.mem_of_find? hknown, rfl⟩)
  rw [ha]
  refine ⟨⟨he, hw⟩, ⟨hname, by simp [e]⟩, ?_, ?_, hwritten.2⟩
  · rw [Knows, hknown]
    rfl
  · rw [hother.2]
    exact (hs.content _).trans (hu.content _)

end Plugin

end InlineComponents
