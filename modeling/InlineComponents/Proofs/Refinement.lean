import InlineComponents.Proofs.Dropping
import InlineComponents.Proofs.Extractions

namespace InlineComponents

open Session Plugin

variable {p : Plugin} {m : Memory} {run : List BuildStep} {s t : Session Memory}

/-- What the store holds after a run, said by what was extracted, written and released. -/
structure Refines (p : Plugin) (m : Memory) (run : List BuildStep) (s : Session Memory) :
    Prop where
  writable : s.files.readOnly = false
  nodup : s.artifacts.keys.Nodup
  children : ∀ parent, (s.children.find? parent).getD [] =
    (p.lastExtracted run parent).map fun c => c.path.clean
  known : ∀ key c, (s.artifacts.find? key).map Artifact.component = some c ↔ p.Declares run key c
  published : ∀ key a, s.artifacts.find? key = some a →
    (a.published = true ↔ p.WrittenLast run key)
  content : ∀ key a, s.artifacts.find? key = some a →
    s.content key = if a.published then some a.component.body.toUTF8 else none
  dropped : ∀ c ∈ p.everExtracted run, s.artifacts.find? c.path.clean = none →
    s.content c.path.clean = none
  untouched : ∀ key, (∀ c ∈ p.everExtracted run, c.path.clean ≠ key) →
    s.content key = m.files.find? key

theorem refines_start (p : Plugin) (hm : m.readOnly = false) :
    Refines p m [] (Session.start m) where
  writable := hm
  nodup := List.nodup_nil
  children _ := rfl
  known key c := by
    constructor
    · intro h
      cases h
    · rintro ⟨parent, hc, -⟩
      cases hc
  published key a h := by cases h
  content key a h := by cases h
  dropped c hc := by cases hc
  untouched key _ := rfl

theorem Refines.path_of_known (h : Refines p m run s) {key : Path} {a : Artifact}
    (ha : s.artifacts.find? key = some a) : a.component.path.clean = key := by
  obtain ⟨parent, hc, hk⟩ := (h.known key a.component).mp (by rw [ha]; rfl)
  exact hk

theorem Refines.mem_everExtracted (h : Refines p m run s) {key : Path} {a : Artifact}
    (ha : s.artifacts.find? key = some a) : ∃ c ∈ p.everExtracted run, c.path.clean = key := by
  obtain ⟨parent, hc, hk⟩ := (h.known key a.component).mp (by rw [ha]; rfl)
  exact ⟨a.component, lastExtracted_subset run parent hc, hk⟩

/-- A step that extracts nothing leaves the same components known, and changes the files of known
artifacts alone. -/
theorem Refines.keep {step : BuildStep} (h : Refines p m run s) (hx : p.extracts step = none)
    (hwritable : t.files.readOnly = s.files.readOnly)
    (hnodup : s.artifacts.keys.Nodup → t.artifacts.keys.Nodup) (hchildren : t.children = s.children)
    (hknown : ∀ key, (t.artifacts.find? key).map Artifact.component =
      (s.artifacts.find? key).map Artifact.component)
    (hpublished : ∀ key a, t.artifacts.find? key = some a → (a.published = true ↔
      p.Writes run key step ∨ p.WrittenLast run key ∧ ¬ p.Releases key step))
    (hcontent : ∀ key a, t.artifacts.find? key = some a →
      t.content key = if a.published then some a.component.body.toUTF8 else none)
    (hother : ∀ key, s.artifacts.find? key = none → t.content key = s.content key) :
    Refines p m (run ++ [step]) t := by
  have hlast (parent : Path) : p.lastExtracted (run ++ [step]) parent =
      p.lastExtracted run parent := by
    rw [lastExtracted_concat, hx]
  have hever : p.everExtracted (run ++ [step]) = p.everExtracted run := by
    rw [everExtracted_concat, hx]
    exact List.append_nil _
  refine ⟨hwritable.trans h.writable, hnodup h.nodup, ?_, ?_, ?_, hcontent, ?_, ?_⟩
  · intro parent
    rw [hchildren, hlast]
    exact h.children parent
  · intro key c
    rw [hknown, h.known]
    simp only [Declares, hlast]
  · intro key a ha
    rw [writtenLast_concat]
    exact hpublished key a ha
  · rw [hever]
    intro c hc hn
    have hs : s.artifacts.find? c.path.clean = none := by
      have hk := hknown c.path.clean
      rw [hn] at hk
      simpa using hk.symm
    rw [hother _ hs]
    exact h.dropped c hc hs
  · rw [hever]
    intro key hk
    have hs : s.artifacts.find? key = none := by
      cases ha : s.artifacts.find? key with
      | none => rfl
      | some a =>
        obtain ⟨c, hc, he⟩ := h.mem_everExtracted ha
        exact absurd he (hk c hc)
    rw [hother key hs]
    exact h.untouched key hk

theorem Refines.idle {step : BuildStep} (h : Refines p m run s) (hs : SameStore s t)
    (hx : p.extracts step = none) (hw : ∀ key, ¬ p.Writes run key step)
    (hr : ∀ key, ¬ p.Releases key step) : Refines p m (run ++ [step]) t := by
  refine h.keep hx (by rw [hs.files]) (by rw [hs.artifacts]; exact id) hs.children ?_ ?_ ?_ ?_
  · intro key
    rw [hs.artifacts]
  · intro key a ha
    rw [hs.artifacts] at ha
    simp only [hw key, hr key, false_or, not_false_eq_true, and_true]
    exact h.published key a ha
  · intro key a ha
    rw [hs.artifacts] at ha
    rw [hs.content]
    exact h.content key a ha
  · intro key _
    exact hs.content key

theorem Refines.released {id : String} (h : Refines p m run s)
    (hid : isArtifactId id p.options.extensions = true) (ht : Released (Path.clean ⟨id⟩) s t) :
    Refines p m (run ++ [.moduleParsed id]) t := by
  refine h.keep rfl ht.writable ht.nodup ht.children ?_ ?_ ?_ ?_
  · intro key
    rw [ht.artifacts]
    split
    · next hk =>
      rw [hk, Option.map_map]
      rfl
    · rfl
  · intro key a ha
    rw [ht.artifacts] at ha
    have hw : ¬ p.Writes run key (.moduleParsed id) := fun hw => hw
    split at ha
    · next hk =>
      obtain ⟨b, hb, rfl⟩ := Option.map_eq_some_iff.mp ha
      have hr : p.Releases key (.moduleParsed id) := ⟨hid, hk.symm⟩
      simp [hw, hr]
    · next hk =>
      have hr : ¬ p.Releases key (.moduleParsed id) := fun hr => hk hr.2.symm
      simp only [hw, hr, false_or, not_false_eq_true, and_true]
      exact h.published key a ha
  · intro key a ha
    rw [ht.artifacts] at ha
    rw [ht.content]
    split at ha
    · next hk =>
      obtain ⟨b, hb, rfl⟩ := Option.map_eq_some_iff.mp ha
      subst hk
      rw [hb, h.content _ b hb]
      cases hp : b.published <;> simp [hp]
    · next hk =>
      rw [if_neg fun hc => hk hc.1]
      exact h.content key a ha
  · intro key hn
    rw [ht.content, if_neg]
    rintro ⟨rfl, hp⟩
    rw [hn] at hp
    cases hp

theorem Refines.rewritten (h : Refines p m run s)
    (ht : Wrote (s.artifacts.map fun entry => entry.2.component) s t) :
    Refines p m (run ++ [.buildStart]) t := by
  have hsome {key : Path} {a : Artifact} (ha : s.artifacts.find? key = some a) :
      t.artifacts.find? key = some ⟨a.component, true⟩ ∧
        t.content key = some a.component.body.toUTF8 := by
    have hw := ht.written a.component (List.mem_map.mpr ⟨(key, a), Table.mem_of_find? ha, rfl⟩)
    rwa [h.path_of_known ha] at hw
  have hnone {key : Path} (hn : s.artifacts.find? key = none) :
      t.artifacts.find? key = none ∧ t.content key = s.content key := by
    rw [← hn]
    refine ht.other key ?_
    intro c hc he
    obtain ⟨⟨other, a⟩, hm, rfl⟩ := List.mem_map.mp hc
    have ha := Table.find?_of_mem h.nodup hm
    rw [h.path_of_known ha] at he
    rw [he, hn] at ha
    cases ha
  refine h.keep rfl ht.writable ht.nodup ht.children ?_ ?_ ?_ fun key hn => (hnone hn).2
  · intro key
    cases hs : s.artifacts.find? key with
    | none => rw [(hnone hs).1]
    | some a =>
      rw [(hsome hs).1]
      rfl
  · intro key a ha
    cases hs : s.artifacts.find? key with
    | none =>
      rw [(hnone hs).1] at ha
      cases ha
    | some b =>
      rw [(hsome hs).1] at ha
      obtain rfl := Option.some.inj ha
      have hw : p.Writes run key .buildStart := ⟨b.component, (h.known key _).mp (by rw [hs]; rfl)⟩
      simp [hw]
  · intro key a ha
    cases hs : s.artifacts.find? key with
    | none =>
      rw [(hnone hs).1] at ha
      cases ha
    | some b =>
      rw [(hsome hs).1] at ha
      obtain rfl := Option.some.inj ha
      exact (hsome hs).2

theorem declares_concat {step : BuildStep} {parent : Path} {cs : List SubComponent}
    (hx : p.extracts step = some (parent, cs)) {key : Path} {c : SubComponent} :
    p.Declares (run ++ [step]) key c ↔ c.path.clean = key ∧
      (c ∈ cs ∨ ∃ other ≠ parent, c ∈ p.lastExtracted run other) := by
  constructor
  · rintro ⟨other, hc, hk⟩
    rw [lastExtracted_concat, hx] at hc
    dsimp only at hc
    split at hc
    · exact ⟨hk, .inl hc⟩
    · next ho => exact ⟨hk, .inr ⟨other, ho, hc⟩⟩
  · rintro ⟨hk, hc | ⟨other, ho, hc⟩⟩
    · refine ⟨parent, ?_, hk⟩
      rw [lastExtracted_concat, hx]
      dsimp only
      rwa [if_pos rfl]
    · refine ⟨other, ?_, hk⟩
      rw [lastExtracted_concat, hx]
      dsimp only
      rwa [if_neg ho]

theorem Refines.mem_children (h : Refines p m run s) {parent key : Path} :
    key ∈ (s.children.find? parent).getD [] ↔
      ∃ d ∈ p.lastExtracted run parent, d.path.clean = key := by
  rw [h.children, List.mem_map]

/-- The components that a parent has now replace those that it had, and those of other parents
stay. -/
theorem Refines.known_tookUp {step : BuildStep} {parent : Path} {cs : List SubComponent}
    (h : Refines p m run s) (hx : p.extracts step = some (parent, cs)) (ht : TookUp parent cs s t)
    (key : Path) (c : SubComponent) :
    (t.artifacts.find? key).map Artifact.component = some c ↔ p.Declares (run ++ [step]) key c := by
  have hcs : ExtractedFrom parent cs := extractedFrom_of_extracts hx
  rw [declares_concat hx]
  rcases ht.at_path key with ⟨d, hd, hk, ha, -⟩ | ⟨hne, ⟨hm, ha, -⟩ | ⟨hm, ha, -⟩⟩
  · rw [ha]
    constructor
    · intro he
      obtain rfl : d = c := by simpa using he
      exact ⟨hk, .inl hd⟩
    · rintro ⟨hkc, hc | ⟨other, ho, hc⟩⟩
      · rw [hcs.eq_of_path_clean hd hc (hk.trans hkc.symm)]
        rfl
      · exact absurd (parent_eq_of_lastExtracted hcs hd hc (hkc.trans hk.symm)) ho
  · rw [ha]
    obtain ⟨d, hd, hk⟩ := h.mem_children.mp hm
    have hparent : ExtractedFrom parent (p.lastExtracted run parent) :=
      extractedFrom_lastExtracted run parent
    constructor
    · intro he
      cases he
    · rintro ⟨hkc, hc | ⟨other, ho, hc⟩⟩
      · exact absurd hkc (hne c hc)
      · exact absurd (parent_eq_of_lastExtracted hparent hd hc (hkc.trans hk.symm)) ho
  · rw [ha, h.known]
    constructor
    · rintro ⟨other, hc, hkc⟩
      refine ⟨hkc, .inr ⟨other, ?_, hc⟩⟩
      rintro rfl
      exact hm (h.mem_children.mpr ⟨c, hc, hkc⟩)
    · rintro ⟨hkc, hc | ⟨other, ho, hc⟩⟩
      · exact absurd hkc (hne c hc)
      · exact ⟨other, hc, hkc⟩

/-- What is taken up is published with its body, and the rest stays as published as it was. -/
theorem Refines.published_tookUp {parent : Path} {cs : List SubComponent}
    (h : Refines p m run s) (ht : TookUp parent cs s t) {key : Path} {a : Artifact}
    (ha : t.artifacts.find? key = some a) :
    (a.published = true ↔ (∃ c ∈ cs, c.path.clean = key) ∨ p.WrittenLast run key) ∧
      t.content key = if a.published then some a.component.body.toUTF8 else none := by
  rcases ht.at_path key with ⟨d, hd, hk, he, hf⟩ | ⟨hne, ⟨-, he, -⟩ | ⟨-, he, hf⟩⟩
  · rw [he] at ha
    obtain rfl := Option.some.inj ha
    have hc : ∃ c ∈ cs, c.path.clean = key := ⟨d, hd, hk⟩
    exact ⟨iff_of_true rfl (.inl hc), hf⟩
  · rw [he] at ha
    cases ha
  · rw [he] at ha
    have hno : ¬ ∃ c ∈ cs, c.path.clean = key := fun ⟨c, hc, hk⟩ => hne c hc hk
    rw [hf, or_iff_right hno]
    exact ⟨h.published key a ha, h.content key a ha⟩

theorem Refines.tookUp {step : BuildStep} {parent : Path} {cs : List SubComponent}
    (h : Refines p m run s) (hx : p.extracts step = some (parent, cs))
    (hw : ∀ key, p.Writes run key step ↔ ∃ c ∈ cs, c.path.clean = key)
    (hr : ∀ key, ¬ p.Releases key step) (ht : TookUp parent cs s t) :
    Refines p m (run ++ [step]) t := by
  have hever : p.everExtracted (run ++ [step]) = p.everExtracted run ++ cs := by
    rw [everExtracted_concat, hx]
    rfl
  refine ⟨ht.writable, ht.nodup h.nodup, ?_, h.known_tookUp hx ht, ?_, ?_, ?_, ?_⟩
  · intro other
    rw [ht.children, lastExtracted_concat, hx]
    dsimp only
    split
    · rfl
    · exact h.children other
  · intro key a ha
    rw [writtenLast_concat, hw, and_iff_left (hr key)]
    exact (h.published_tookUp ht ha).1
  · intro key a ha
    exact (h.published_tookUp ht ha).2
  · intro c hc hn
    rcases ht.at_path c.path.clean with ⟨d, -, -, he, -⟩ | ⟨hne, ⟨-, -, hf⟩ | ⟨-, he, hf⟩⟩
    · rw [he] at hn
      cases hn
    · exact hf
    · rw [hever] at hc
      rcases List.mem_append.mp hc with hc | hc
      · rw [hf]
        rw [he] at hn
        exact h.dropped c hc hn
      · exact absurd rfl (hne c hc)
  · intro key hk
    rw [hever] at hk
    have hold : ∀ c ∈ p.everExtracted run, c.path.clean ≠ key := fun c hc =>
      hk c (List.mem_append_left cs hc)
    rcases ht.at_path key with ⟨d, hd, he, -⟩ | ⟨hne, ⟨hm, -, -⟩ | ⟨-, -, hf⟩⟩
    · exact absurd he (hk d (List.mem_append_right _ hd))
    · obtain ⟨d, hd, he⟩ := h.mem_children.mp hm
      exact absurd he (hold d (lastExtracted_subset run parent hd))
    · rw [hf]
      exact h.untouched key hold

theorem Refines.transformed (h : Refines p m run s) (code id : String) :
    Refines p m (run ++ [.transform code id]) (p.transform code id s).2 := by
  have htakes := takes_transform p code id s
  have hr : ∀ key, ¬ p.Releases key (.transform code id) := fun _ hr => hr
  cases he : p.extraction? code id with
  | none =>
    rw [he] at htakes
    refine h.idle htakes (by rw [extracts, he]; rfl) ?_ hr
    rintro key ⟨e, hs, -⟩
    rw [he] at hs
    cases hs
  | some e =>
    rw [he] at htakes
    obtain ⟨u, hs, ht⟩ := htakes
    have hw : ∀ key, p.Writes run key (.transform code id) ↔
        ∃ c ∈ e.components, c.path.clean = key := by
      intro key
      constructor
      · rintro ⟨e', hs, hc⟩
        rw [he] at hs
        obtain rfl := Option.some.inj hs
        exact hc
      · intro hc
        exact ⟨e, he, hc⟩
    have hkeys : ∀ key ∈ (u.children.find? (Path.clean ⟨id⟩)).getD [], key.clean = key := by
      intro key hm
      rw [hs.children, h.children] at hm
      obtain ⟨c, -, rfl⟩ := List.mem_map.mp hm
      exact c.path.clean_clean
    have hwritable : u.files.readOnly = false := by
      rw [hs.files]
      exact h.writable
    have htook := tookUp_takeUp hwritable (extractedFrom_of_extraction? he).nodup_paths hkeys
    exact h.tookUp (by rw [extracts, he]; rfl) hw hr (htook.sameStore hs ht)

/-- One step of a build keeps the store in line with what was extracted. -/
theorem Refines.step (h : Refines p m run s) (step : BuildStep) :
    Refines p m (run ++ [step]) (p.step s step) := by
  cases step with
  | transform code id => exact h.transformed code id
  | moduleParsed id =>
    by_cases hid : isArtifactId id p.options.extensions = true
    · have hs : p.step s (.moduleParsed id) = (s.release ⟨id⟩).2 := by
        rw [Plugin.step, Plugin.moduleParsed, if_pos hid]
      rw [hs]
      exact h.released hid (released_release s ⟨id⟩)
    · have hs : p.step s (.moduleParsed id) = s := by
        rw [Plugin.step, Plugin.moduleParsed, if_neg hid]
      rw [hs]
      exact h.idle (.refl s) rfl (fun _ hw => hw) (fun _ hr => hid hr.1)
  | buildStart =>
    refine h.rewritten (wrote_materializeAll h.writable h.nodup ?_)
    intro key a ha
    exact h.path_of_known ha

theorem refines_run (p : Plugin) (hm : m.readOnly = false) (run : List BuildStep) :
    Refines p m run (run.foldl p.step (Session.start m)) := by
  induction run using List.reverseRecOn with
  | nil => exact refines_start p hm
  | append_singleton run step ih =>
    rw [List.foldl_append]
    exact ih.step step

/-- What a parent has declared and no longer declares is nobody's. -/
theorem Refines.content_of_not_declared (h : Refines p m run s) {parent : Path}
    {cs : List SubComponent} (hm : (parent, cs) ∈ run.filterMap p.extracts) {c : SubComponent}
    (hc : c ∈ cs) (hd : ∀ d ∈ p.lastExtracted run parent, d.path.clean ≠ c.path.clean) :
    s.content c.path.clean = none := by
  apply h.dropped c (List.mem_flatMap.mpr ⟨(parent, cs), hm, hc⟩)
  cases ha : s.artifacts.find? c.path.clean with
  | none => rfl
  | some a =>
    obtain ⟨other, ho, hk⟩ := (h.known c.path.clean a.component).mp (by rw [ha]; rfl)
    have hsame := parent_eq_of_lastExtracted (extractedFrom_of_mem hm) hc ho hk
    rw [hsame] at ho
    exact absurd hk (hd a.component ho)

theorem Refines.isPublished_iff (h : Refines p m run s) (path : Path) :
    s.isPublished path = true ↔
      (∃ c, p.Declares run path.clean c) ∧ p.WrittenLast run path.clean := by
  constructor
  · intro hp
    obtain ⟨a, ha, hpub⟩ := (Option.any_eq_true _ _).mp hp
    have hk : s.artifacts.find? path.clean = some a := ha
    exact ⟨⟨a.component, (h.known _ _).mp (by rw [hk]; rfl)⟩, (h.published _ a hk).mp hpub⟩
  · rintro ⟨⟨c, hc⟩, hw⟩
    obtain ⟨a, ha, -⟩ := Option.map_eq_some_iff.mp ((h.known _ c).mpr hc)
    exact (Option.any_eq_true _ _).mpr ⟨a, ha, (h.published _ a ha).mpr hw⟩

/-- After every run over files that can be written, the known artifacts are the components of the
last extraction from each parent, the published ones those not released since they were written
last. The file of a published artifact holds its body, no other artifact has a file, nor has what a
parent no longer declares, and a path where nothing was ever extracted holds what it held. -/
theorem artifacts_of_run (p : Plugin) (m : Memory) (run : List BuildStep)
    (hm : m.readOnly = false) :
    let s := run.foldl p.step (Session.start m)
    (∀ key c, (s.artifacts.find? key).map Artifact.component = some c ↔ p.Declares run key c) ∧
    (∀ path, s.isPublished path = true ↔
      (∃ c, p.Declares run path.clean c) ∧ p.WrittenLast run path.clean) ∧
    (∀ path a, s.artifact? path = some a →
      s.files.contents path = if a.published then some a.component.body.toUTF8 else none) ∧
    (∀ parent cs, (parent, cs) ∈ run.filterMap p.extracts → ∀ c ∈ cs,
      (∀ d ∈ p.lastExtracted run parent, d.path.clean ≠ c.path.clean) →
        s.files.contents c.path = none) ∧
    ∀ path, (∀ c ∈ p.everExtracted run, c.path.clean ≠ path.clean) →
      s.files.contents path = m.contents path := by
  intro s
  have h : Refines p m run s := refines_run p hm run
  refine ⟨h.known, h.isPublished_iff, ?_, ?_, ?_⟩
  · intro path a ha
    exact h.content path.clean a ha
  · intro parent cs hmem c hc hd
    exact h.content_of_not_declared hmem hc hd
  · intro path hp
    exact h.untouched path.clean hp

/-- A block that is removed leaves no file. -/
theorem artifacts_of_run_block_removed :
    let p : Plugin := ⟨.default, none, none, fun _ _ => .error ""⟩
    let m : Memory := .empty
    let run : List BuildStep :=
      [.transform "<template name=A>a</template>" "/P.svelte", .transform "" "/./P.svelte"]
    let s := run.foldl p.step (Session.start m)
    m.readOnly = false ∧ s.files.contents ⟨"/P__A.svelte"⟩ = none := by
  intro p m run s
  have he : p.extraction? "<template name=A>a</template>" "/P.svelte" =
      some ⟨"", [⟨"A", ⟨"/P__A.svelte"⟩, "a"⟩]⟩ := by decide +kernel
  have he' : p.extraction? "" "/./P.svelte" = some ⟨"", []⟩ := by decide +kernel
  have hp : Path.clean ⟨"/P.svelte"⟩ = ⟨"/P.svelte"⟩ := (Path.clean_eq _).trans (by decide +kernel)
  have hp' : Path.clean ⟨"/./P.svelte"⟩ = ⟨"/P.svelte"⟩ :=
    (Path.clean_eq _).trans (by decide +kernel)
  have hx : run.filterMap p.extracts =
      [(⟨"/P.svelte"⟩, [⟨"A", ⟨"/P__A.svelte"⟩, "a"⟩]), (⟨"/P.svelte"⟩, [])] := by
    simp [run, extracts, he, he', hp, hp']
  have hlast : p.lastExtracted run ⟨"/P.svelte"⟩ = [] := by
    rw [lastExtracted, hx]
    rfl
  obtain ⟨-, -, -, hgone, -⟩ := artifacts_of_run p m run rfl
  refine ⟨rfl, hgone ⟨"/P.svelte"⟩ _ (hx ▸ List.mem_cons_self) ⟨"A", ⟨"/P__A.svelte"⟩, "a"⟩
    List.mem_cons_self ?_⟩
  rw [hlast]
  intro d hd
  cases hd

end InlineComponents
