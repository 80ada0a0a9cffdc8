import InlineComponents.Proofs.Compilation
import InlineComponents.Proofs.Leftovers
import InlineComponents.Proofs.Refinement

namespace InlineComponents

namespace Session

variable {σ : Type} [FileSystem σ]

theorem component_publishAll_of_ne {s : Session σ} {cs : List SubComponent} {key : Path}
    (hne : ∀ c ∈ cs, c.path.clean ≠ key) :
    ((s.publishAll cs).2.artifacts.find? key).map Artifact.component =
      (s.artifacts.find? key).map Artifact.component := by
  refine forEach_induction (P := fun t => (t.artifacts.find? key).map Artifact.component =
    (s.artifacts.find? key).map Artifact.component) ?_ rfl
  intro t ht c hc
  rw [(sameRegister_publish t c).component, find?_register, if_neg (Ne.symm (hne c hc)), ht]

theorem component_foldl_drop_of_not_mem {s : Session σ} {keys : List Path} {key : Path}
    (hk : key ∉ keys) : ((keys.foldl drop s).artifacts.find? key).map Artifact.component =
      (s.artifacts.find? key).map Artifact.component := by
  induction keys generalizing s with
  | nil => rfl
  | cons other keys ih =>
    obtain ⟨hne, hk⟩ := not_or.mp fun h => hk (List.mem_cons.mpr h)
    rw [List.foldl_cons, ih hk, (sameRegister_drop s other).component,
      Table.find?_erase_of_ne _ hne]

/-- What is taken up to its end is registered, and whatever was registered at another path stays,
unless the parent had it. -/
theorem component_takeUp [LawfulFileSystem σ] {s : Session σ} {parent : Path}
    {cs : List SubComponent} (hdone : (writeEach s.files cs).2 = true)
    (hn : (cs.map fun c => c.path.clean).Nodup)
    (hk : ∀ key ∈ s.childrenOf parent.clean, key.clean = key) :
    (∀ c ∈ cs, ((s.takeUp parent cs).artifacts.find? c.path.clean).map Artifact.component =
      some c) ∧
    ∀ key, (∀ c ∈ cs, c.path.clean ≠ key) → key ∉ s.childrenOf parent.clean →
      ((s.takeUp parent cs).artifacts.find? key).map Artifact.component =
        (s.artifacts.find? key).map Artifact.component := by
  have hok := (s.publishAll_eq_writeEach cs).1.mpr hdone
  have hchildren := s.childrenOf_publishAll cs parent.clean
  rw [takeUp]
  rcases hp : s.publishAll cs with ⟨result, t⟩
  rw [hp] at hok hchildren
  obtain rfl : result = .ok () := hok
  refine ⟨?_, ?_⟩
  · intro c hc
    have hkept : (t.retain parent cs).2.Holds c :=
      (holds_publishAll hn hp c hc).retain (by rwa [hchildren]) hc
    exact congrArg (Option.map _) hkept.published
  · intro key hne hno
    have hpublished := component_publishAll_of_ne (s := s) hne
    rw [hp] at hpublished
    have hstale : key ∉ (t.childrenOf parent.clean).filter
        (· ∉ cs.map fun c => c.path.clean) := by
      rw [hchildren]
      exact fun hm => hno (List.mem_filter.mp hm).1
    rw [← hpublished, (sameStore_retain t parent cs).artifacts,
      component_foldl_drop_of_not_mem hstale]
    rfl

end Session

namespace Plugin

open Session Work

variable {σ : Type}

theorem Tracks.cleanChildren {ups : List Uptake} {s : Session σ} (h : Tracks ups s) :
    s.CleanChildren := by
  intro parent key hk
  rw [h.children] at hk
  obtain ⟨c, -, rfl⟩ := List.mem_map.mp hk
  exact c.path.clean_clean

/-- The artifacts are those that the last transforms of their parents have declared. -/
structure InLine (ups : List Uptake) (s : Session σ) : Prop extends Tracks ups s where
  completed : ∀ u ∈ ups, u.completed = true
  component : ∀ parent, ∀ c ∈ declaredLast ups parent,
    (s.artifacts.find? c.path.clean).map Artifact.component = some c

variable {ups : List Uptake} {s t : Session σ} {p : Plugin} {code id : String}

theorem inLine_start (files : σ) : InLine [] (Session.start files) where
  toTracks := tracks_start files
  completed := by simp
  component := by simp [declaredLast]

theorem InLine.sameRegister (h : InLine ups s) (hs : SameRegister s t) : InLine ups t where
  toTracks := h.toTracks.sameRegister hs
  completed := h.completed
  component parent c hc := (hs.component _).trans (h.component parent c hc)

theorem InLine.knows_iff (h : InLine ups s) (key : Path) :
    s.Knows key ↔ ∃ parent, ∃ c ∈ declaredLast ups parent, c.path.clean = key := by
  rw [h.known]
  constructor
  · rintro ⟨parent, hdeclared | ⟨before, u, after, rfl, ⟨-, hfailed⟩, -⟩⟩
    · exact ⟨parent, hdeclared⟩
    · have hcompleted := h.completed u (by simp)
      rw [hfailed] at hcompleted
      cases hcompleted
  · rintro ⟨parent, hdeclared⟩
    exact ⟨parent, .inl hdeclared⟩

/-- A component is known if and only if its own parent declares it still. -/
theorem InLine.knows_iff_of_mem (h : InLine ups s) {u : Uptake} (hu : u ∈ ups) {c : SubComponent}
    (hc : c ∈ u.components) :
    s.Knows c.path.clean ↔ ∃ d ∈ declaredLast ups u.parent, d.path.clean = c.path.clean := by
  rw [h.knows_iff]
  constructor
  · rintro ⟨parent, d, hd, he⟩
    have hdeclared := extractedFrom_declaredLast h.extracted parent
    obtain ⟨rfl, -⟩ := hdeclared.path_clean_inj (h.extracted u hu) hd hc he
    exact ⟨d, hd, he⟩
  · rintro ⟨d, hd, he⟩
    exact ⟨u.parent, d, hd, he⟩

theorem InLine.registered_iff (h : InLine ups s) (key : Path) (c : SubComponent) :
    (s.artifacts.find? key).map Artifact.component = some c ↔
      c.path.clean = key ∧ ∃ parent, c ∈ declaredLast ups parent := by
  constructor
  · intro hc
    have hknown : s.Knows key := by
      rw [Knows, ← Option.isSome_map, hc]
      rfl
    obtain ⟨parent, d, hd, rfl⟩ := (h.knows_iff key).mp hknown
    obtain rfl := Option.some.inj ((h.component parent d hd).symm.trans hc)
    exact ⟨rfl, parent, hd⟩
  · rintro ⟨rfl, parent, hc⟩
    exact h.component parent c hc

variable [FileSystem σ]

/-- The hook gives the host a result. -/
def Succeeds (p : Plugin) (s : Session σ) : Happening σ → Prop
  | .build (.transform code id) => ∃ output, (p.transform code id s).1 = .ok output
  | .build .buildStart => (onBuildStart s).1.isOk = true
  | .build (.moduleParsed _) | .files _ => True

/-- All hooks of the run give the host a result. -/
def FailureFree (p : Plugin) (s : Session σ) : List (Happening σ) → Prop
  | [] => True
  | happening :: run => p.Succeeds s happening ∧ p.FailureFree (p.happen s happening) run

theorem completed_of_transform {output : Option TransformOutput}
    (h : (p.transform code id s).1 = .ok output) {u : Uptake}
    (hu : p.uptake? s (.transform code id) = some u) : u.completed = true := by
  obtain ⟨e, he, rfl⟩ := Option.map_eq_some_iff.mp hu
  obtain ⟨hid, -⟩ := exists_of_extraction? he
  rw [transform, if_pos hid] at h
  rcases hr : (p.run (.ofId id code) id).run s with ⟨result, t⟩
  rw [hr] at h
  cases result with
  | error halt => cases h
  | ok output =>
    rw [Plugin.run, run_bind_eq_ok] at hr
    obtain ⟨assembled, v, hassembled, -⟩ := hr
    obtain ⟨e', w, x, he', hw, hpublished, -⟩ := assemble_eq_ok hassembled
    rw [extraction?, if_pos hid, he'] at he
    obtain rfl := Option.some.inj he
    rw [← hw.files]
    exact (w.publishAll_eq_writeEach e'.components).1.mp (by rw [hpublished])

variable [LawfulFileSystem σ]

theorem InLine.transformed (h : InLine ups s) {output : Option TransformOutput}
    (hok : (p.transform code id s).1 = .ok output) :
    InLine (ups ++ (p.uptake? s (.transform code id)).toList) (p.transform code id s).2 where
  toTracks := h.toTracks.transformed code id
  completed := by
    intro u hu
    rcases List.mem_append.mp hu with hu | hu
    · exact h.completed u hu
    · exact completed_of_transform hok (Option.mem_toList.mp hu)
  component := by
    have htakes := p.takes_transform code id s
    cases he : p.extraction? code id with
    | none =>
      rw [he] at htakes
      rw [uptake?, he, Option.map_none, Option.toList_none, List.append_nil]
      exact (h.sameRegister (SameStore.sameRegister htakes)).component
    | some e =>
      rw [he] at htakes
      obtain ⟨v, hv, ht⟩ := htakes
      have hall := extractedFrom_of_extraction? he
      have huptake : p.uptake? s (.transform code id) = some ⟨Path.clean ⟨id⟩,
          (writeEach s.files e.components).1, (writeEach s.files e.components).2⟩ := by
        rw [uptake?, he, Option.map_some]
      have hdone : (writeEach s.files e.components).2 = true := completed_of_transform hok huptake
      have hchildren : v.childrenOf (Path.clean ⟨id⟩) =
          (declaredLast ups (Path.clean ⟨id⟩)).map fun c => c.path.clean :=
        (hv.sameRegister.children _).trans (h.children _)
      obtain ⟨hown, hrest⟩ := component_takeUp (s := v) (by rwa [hv.files]) hall.nodup_paths
        (h.cleanChildren.congr hv.sameRegister.children _)
      rw [huptake, Option.toList_some, hdone, (writeEach_fst s.files e.components).2 hdone]
      intro parent c hc
      rw [ht.artifacts]
      rw [declaredLast_concat] at hc
      split at hc
      · exact hown c hc
      · next hne =>
        have hparent : Path.clean ⟨id⟩ ≠ parent := fun he => hne ⟨rfl, he⟩
        have hdeclared := extractedFrom_declaredLast h.extracted
        rw [hrest, hv.artifacts]
        · exact h.component parent c hc
        · intro d hd he
          exact hparent (hall.path_clean_inj (hdeclared parent) hd hc he).1
        · intro hm
          rw [hchildren] at hm
          obtain ⟨d, hd, he⟩ := List.mem_map.mp hm
          exact hparent ((hdeclared _).path_clean_inj (hdeclared parent) hd hc he).1

theorem inLine_foldl (h : InLine ups s) {run : List (Happening σ)} (hrun : p.FailureFree s run) :
    InLine (ups ++ p.uptakes s run) (run.foldl p.happen s) := by
  induction run generalizing ups s with
  | nil =>
    rw [uptakes, List.append_nil]
    exact h
  | cons happening run ih =>
    obtain ⟨hok, hrun⟩ := hrun
    cases happening with
    | build step =>
      have hstep : InLine (ups ++ (p.uptake? s step).toList) (p.step s step) := by
        cases step with
        | transform code id =>
          obtain ⟨output, hok⟩ := hok
          exact h.transformed hok
        | moduleParsed id =>
          rw [uptake?, Option.toList_none, List.append_nil]
          exact h.sameRegister (sameRegister_moduleParsed p id s)
        | buildStart =>
          rw [uptake?, Option.toList_none, List.append_nil]
          exact h.sameRegister (sameRegister_materializeAll s)
      have hrest := ih hstep hrun
      rw [List.append_assoc] at hrest
      exact hrest
    | files change =>
      have hchanged : InLine ups { s with files := change s.files } :=
        h.sameRegister ⟨fun _ => rfl, fun _ => rfl, id⟩
      exact ih hchanged hrun

/-- A block with a block in it is extracted, and the inner block from it. Then their file is without
blocks. -/
def outerRemoved : List BuildStep :=
  [.transform "<template name=A><template name=B>b</template></template>" "/P.svelte",
    .transform "<template name=B>b</template>" "/P__A.svelte", .transform "" "/P.svelte"]

theorem failureFree_outerRemoved :
    let p : Plugin := ⟨.default, none, none, fun _ _ => .ok ⟨"", none, none, [], []⟩⟩
    let a : SubComponent := ⟨"A", ⟨"/P__A.svelte"⟩, "<template name=B>b</template>"⟩
    let b : SubComponent := ⟨"B", ⟨"/P__A__B.svelte"⟩, "b"⟩
    let run : List (Happening Memory) := outerRemoved.map .build
    let ups := p.uptakes (.start .empty) run
    p.FailureFree (.start .empty) run ∧ (∃ u ∈ ups, u.parent = ⟨"/P.svelte"⟩ ∧ a ∈ u.components) ∧
      declaredLast ups ⟨"/P.svelte"⟩ = [] ∧ declaredLast ups a.path.clean = [b] := by
  intro p a b run ups
  have he : p.extraction? "<template name=A><template name=B>b</template></template>"
      "/P.svelte" = some ⟨"", [a]⟩ := by decide +kernel
  have he' : p.extraction? "<template name=B>b</template>" "/P__A.svelte" = some ⟨"", [b]⟩ := by
    decide +kernel
  have he'' : p.extraction? "" "/P.svelte" = some ⟨"", []⟩ := by decide +kernel
  have hi : injectImports "" ⟨"/P.svelte"⟩ (Extraction.imports ⟨"", [a]⟩) =
      .ok "<script>\nimport A from './P__A.svelte';\n</script>\n" :=
    toOption_eq_some_iff.mp (by decide +kernel)
  have hi' : injectImports "" ⟨"/P__A.svelte"⟩ (Extraction.imports ⟨"", [b]⟩) =
      .ok "<script>\nimport B from './P__A__B.svelte';\n</script>\n" :=
    toOption_eq_some_iff.mp (by decide +kernel)
  have hi'' : injectImports "" ⟨"/P.svelte"⟩ (Extraction.imports ⟨"", []⟩) = .ok "" := rfl
  let first : BuildStep :=
    .transform "<template name=A><template name=B>b</template></template>" "/P.svelte"
  let second : BuildStep := .transform "<template name=B>b</template>" "/P__A.svelte"
  let s : Session Memory := p.step (.start .empty) first
  let t : Session Memory := p.step s second
  have hs : s.files.readOnly = false := (refines_run p rfl [first]).writable
  have ht : t.files.readOnly = false := (refines_run p rfl [first, second]).writable
  have hp : Path.clean ⟨"/P.svelte"⟩ = ⟨"/P.svelte"⟩ := (Path.clean_eq _).trans (by decide +kernel)
  have ha : Path.clean ⟨"/P__A.svelte"⟩ = ⟨"/P__A.svelte"⟩ :=
    (Path.clean_eq _).trans (by decide +kernel)
  have hups : ups =
      [⟨⟨"/P.svelte"⟩, [a], true⟩, ⟨a.path, [b], true⟩, ⟨⟨"/P.svelte"⟩, [], true⟩] := by
    show p.uptakes _ [.build first, .build second, .build (.transform "" "/P.svelte")] = _
    rw [uptakes, uptakes, uptakes, uptakes, uptake?_writable rfl he,
      uptake?_writable hs he', uptake?_writable ht he'', hp, ha]
    rfl
  rw [show a.path.clean = a.path from ha, hups]
  refine ⟨⟨?_, ?_, ?_, trivial⟩, ⟨_, List.mem_cons_self, rfl, List.mem_cons_self⟩, ?_, ?_⟩
  · exact exists_transform rfl he hi rfl
  · exact exists_transform hs he' hi' rfl
  · exact exists_transform ht he'' hi'' rfl
  · simp [declaredLast]
  · simp [declaredLast, a]

/-- Where no hook has failed, the known artifacts are those that the last transforms of their
parents have declared. A block is known if and only if its own parent declares it still. What the
file of a block was last found to declare is known whether or not the block is, and is written when
a build starts, while the block is left as it is where its parent no longer declares it. -/
theorem artifacts_of_failureFree (p : Plugin) (files : σ) {run : List (Happening σ)}
    (hrun : p.FailureFree (.start files) run) :
    let s := run.foldl p.happen (.start files)
    let ups := p.uptakes (.start files) run
    (∀ key c, (s.artifacts.find? key).map Artifact.component = some c ↔
      c.path.clean = key ∧ ∃ parent, c ∈ declaredLast ups parent) ∧
    ∀ u ∈ ups, ∀ block ∈ u.components,
      (s.Knows block.path.clean ↔
        ∃ c ∈ declaredLast ups u.parent, c.path.clean = block.path.clean) ∧
      (∀ nested ∈ declaredLast ups block.path.clean, s.Knows nested.path.clean) ∧
      ∀ count t, s.materializeAll = (.ok count, t) →
        ((∀ c ∈ declaredLast ups u.parent, c.path.clean ≠ block.path.clean) →
          t.content block.path.clean = s.content block.path.clean) ∧
        ∀ nested ∈ declaredLast ups block.path.clean,
          t.content nested.path.clean = some nested.body.toUTF8 := by
  intro s ups
  have h : InLine ups s := inLine_foldl (inLine_start files) hrun
  refine ⟨h.registered_iff, ?_⟩
  intro u hu block hblock
  have hknows := h.knows_iff_of_mem hu hblock
  refine ⟨hknows, ?_, ?_⟩
  · intro nested hn
    exact (h.knows_iff _).mpr ⟨_, nested, hn, rfl⟩
  · intro count t ht
    refine ⟨?_, ?_⟩
    · intro hdropped
      apply (content_materializeAll h.indexed ht _).2
      intro hk
      obtain ⟨c, hc, he⟩ := hknows.mp hk
      exact hdropped c hc he
    · intro nested hn
      obtain ⟨a, ha, rfl⟩ := Option.map_eq_some_iff.mp (h.component _ nested hn)
      exact ((holds_materializeAll h.indexed ht).1 _ a ha).written

/-- The inner block is known without the outer one. -/
theorem artifacts_of_failureFree_outerRemoved :
    let p : Plugin := ⟨.default, none, none, fun _ _ => .ok ⟨"", none, none, [], []⟩⟩
    let a : SubComponent := ⟨"A", ⟨"/P__A.svelte"⟩, "<template name=B>b</template>"⟩
    let b : SubComponent := ⟨"B", ⟨"/P__A__B.svelte"⟩, "b"⟩
    let run : List (Happening Memory) := outerRemoved.map .build
    let s := run.foldl p.happen (.start .empty)
    p.FailureFree (.start .empty) run ∧ ¬ s.Knows a.path.clean ∧ s.Knows b.path.clean := by
  intro p a b run s
  obtain ⟨hrun, ⟨u, hu, hparent, hblock⟩, houter, hinner⟩ := failureFree_outerRemoved
  obtain ⟨-, hblocks⟩ := @artifacts_of_failureFree Memory _ _ p .empty _ hrun
  obtain ⟨hknows, hnested, -⟩ := hblocks u hu a hblock
  rw [hparent, houter] at hknows
  rw [hinner] at hnested
  refine ⟨hrun, ?_, hnested b List.mem_cons_self⟩
  intro hk
  obtain ⟨c, hc, -⟩ := hknows.mp hk
  cases hc

/-- The inner block is known without the outer one, and written when a build starts. -/
theorem nested_written_of_outerRemoved :
    let p : Plugin := ⟨.default, none, none, fun _ _ => .ok ⟨"", none, none, [], []⟩⟩
    let a : SubComponent := ⟨"A", ⟨"/P__A.svelte"⟩, "<template name=B>b</template>"⟩
    let b : SubComponent := ⟨"B", ⟨"/P__A__B.svelte"⟩, "b"⟩
    let run : List (Happening Memory) := outerRemoved.map .build
    let s := run.foldl p.happen (.start .empty)
    let ups := p.uptakes (.start .empty) run
    p.FailureFree (.start .empty) run ∧
      (∃ u ∈ ups, a ∈ u.components) ∧ b ∈ declaredLast ups a.path.clean ∧
      s.Knows b.path.clean ∧ ¬ s.Knows a.path.clean ∧
      (p.step s .buildStart).content b.path.clean = some "b".toUTF8 := by
  intro p a b run s ups
  obtain ⟨hrun, ⟨u, hu, hparent, hblock⟩, houter, hinner⟩ := failureFree_outerRemoved
  have h : InLine ups s := inLine_foldl (inLine_start Memory.empty) hrun
  have hb : b ∈ declaredLast ups a.path.clean := by
    rw [hinner]
    exact List.mem_cons_self
  have hwritable : s.files.readOnly = false := by
    rw [show s = outerRemoved.foldl p.step (.start .empty) from List.foldl_map]
    exact (refines_run p rfl outerRemoved).writable
  obtain ⟨known, hknown, hcomponent⟩ := Option.map_eq_some_iff.mp (h.component _ b hb)
  have hwritten := (wrote_materializeAll hwritable h.indexed.nodup h.indexed.placed).written b
    (List.mem_map.mpr ⟨_, Table.mem_of_find? hknown, hcomponent⟩)
  refine ⟨hrun, ⟨u, hu, hblock⟩, hb, (h.knows_iff _).mpr ⟨_, b, hb, rfl⟩, ?_, hwritten.2⟩
  rw [h.knows_iff_of_mem hu hblock, hparent, houter]
  simp

end Plugin

end InlineComponents
