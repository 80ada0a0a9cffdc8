import InlineComponents.Proofs.Deeds

namespace InlineComponents

namespace Session

variable {σ : Type}

/-- What the deeds are known to be: published artifacts lie there as they were written, children
were written and at most once removed since, and no file is removed a third time. -/
structure Accounted (s : Session (Watched σ)) : Prop where
  published : s.PublishedWritten
  child : ∀ parent, ∀ key ∈ s.childrenOf parent, WrittenLately (s.deedsAt key)
  paced : ∀ key, Paced (s.deedsAt key)

variable {s t : Session (Watched σ)}

theorem accounted_start (files : σ) : Accounted (.start ⟨files, []⟩) where
  published key a ha := by simp [Session.start, Table.find?] at ha
  child parent key hk := by simp [childrenOf, Session.start, Table.find?] at hk
  paced key newer older he := by simp [deedsAt, Watched.deedsAt, Session.start] at he

theorem Accounted.filled (h : s.Accounted) (hf : Filled s t)
    (hc : ∀ parent, t.childrenOf parent = s.childrenOf parent) : t.Accounted := by
  refine ⟨hf.published h.published, ?_, ?_⟩
  · intro parent key hk
    rw [hc] at hk
    obtain ⟨n, hn⟩ := hf.deeds key
    rw [hn]
    exact (h.child parent key hk).replicate_wrote n
  · intro key
    obtain ⟨n, hn⟩ := hf.deeds key
    rw [hn]
    exact (eachRemoval_replicate_wrote n).mpr (h.paced key)

theorem Accounted.sameStore (h : s.Accounted) (hs : SameStore s t) : t.Accounted :=
  h.filled hs.filled hs.sameRegister.children

end Session

namespace Plugin

open Session

section

variable {σ : Type} {ups : List Uptake} {s : Session σ}

theorem Tracks.nodup_childrenOf (h : Tracks ups s) (parent : Path) :
    (s.childrenOf parent).Nodup := by
  rw [h.children]
  exact (extractedFrom_declaredLast h.extracted parent).nodup_paths

/-- An artifact is the child of one parent alone. -/
theorem Tracks.parent_unique (h : Tracks ups s) {parent other key : Path}
    (hk : key ∈ s.childrenOf parent) (hk' : key ∈ s.childrenOf other) : parent = other := by
  rw [h.children] at hk hk'
  obtain ⟨c, hc, rfl⟩ := List.mem_map.mp hk
  obtain ⟨d, hd, he⟩ := List.mem_map.mp hk'
  have hfrom := extractedFrom_declaredLast h.extracted parent
  exact (hfrom.path_clean_inj (extractedFrom_declaredLast h.extracted other) hc hd he.symm).1

/-- The step transforms a parent that had the artifact at the path, and no longer declares it. -/
def Undeclares (p : Plugin) (s : Session σ) (key : Path) : BuildStep → Prop
  | .transform code id => key ∈ s.childrenOf (Path.clean ⟨id⟩) ∧
    ∃ e, p.extraction? code id = some e ∧ ∀ c ∈ e.components, c.path.clean ≠ key
  | .moduleParsed _ | .buildStart => False

/-- What holds of every step of a run holds of those before its end and of its end. -/
theorem forall_build_concat {run : List (Happening σ)} {h : Happening σ}
    {P : List (Happening σ) → BuildStep → Prop} :
    (∀ before step after, run ++ [h] = before ++ .build step :: after → P before step) ↔
      (∀ before step after, run = before ++ .build step :: after → P before step) ∧
        ∀ step, h = .build step → P run step := by
  constructor
  · intro hall
    refine ⟨?_, ?_⟩
    · rintro before step after rfl
      exact hall before step (after ++ [h]) (by simp)
    · rintro step rfl
      exact hall run step [] rfl
  · rintro ⟨hrun, hlast⟩ before step after he
    rcases List.eq_nil_or_concat after with rfl | ⟨between, last, rfl⟩
    · obtain ⟨rfl, hh⟩ := List.append_inj' he rfl
      exact hlast step (List.singleton_inj.mp hh)
    · rw [List.concat_eq_append, ← List.cons_append, ← List.append_assoc] at he
      obtain ⟨rfl, -⟩ := List.append_inj' he rfl
      exact hrun before step between rfl

end

variable {σ : Type} [FileSystem σ] {ups : List Uptake} {s : Session (Watched σ)}

/-- A step removes the file of an artifact that was released already: its transform no longer
declares it. -/
structure RemovesAgain (p : Plugin) (s : Session (Watched σ)) (key : Path) (step : BuildStep) :
    Prop where
  undeclares : p.Undeclares s key step
  unpublished : s.isPublished key = false
  before : ∃ rest, s.deedsAt key = .removed :: .wrote :: rest
  removed : (p.step s step).deedsAt key = .removed :: s.deedsAt key

theorem accounted_takeUp (h : s.Accounted) (htracks : Tracks ups s) (parent : Path)
    (cs : List SubComponent) :
    (s.takeUp parent cs).Accounted ∧ ∀ key,
      (∃ n, (s.takeUp parent cs).deedsAt key = List.replicate n .wrote ++ s.deedsAt key) ∨
      key ∈ s.childrenOf parent.clean ∧ (∀ c ∈ cs, c.path.clean ≠ key) ∧
        (s.takeUp parent cs).deedsAt key = .removed :: s.deedsAt key := by
  have hfilled : Filled s (s.publishAll cs).2 := frame_filled.forEach filled_publish s cs
  have hchildren := s.childrenOf_publishAll cs
  have hother (key : Path) (hk : ∀ c ∈ cs, c.path.clean ≠ key) := deedsAt_publishAll_of_ne hk s
  unfold takeUp
  rcases hp : s.publishAll cs with ⟨result, v⟩
  rw [hp] at hfilled hchildren hother
  have hv : v.Accounted := h.filled hfilled hchildren
  cases result with
  | error failure => exact ⟨hv, fun key => .inl (hfilled.deeds key)⟩
  | ok u =>
    have hwritten := head_deedsAt_publishAll hp
    have hv_children : v.childrenOf parent.clean = s.childrenOf parent.clean := hchildren _
    have hcleared := cleared_retain (hv_children ▸ htracks.cleanChildren parent.clean)
      (hv_children ▸ htracks.nodup_childrenOf parent.clean) cs
    rw [hv_children] at hcleared
    -- only what the parent had and does not declare is removed, and it was not written before
    have hdeeds (key : Path) : (v.retain parent cs).2.deedsAt key = v.deedsAt key ∨
        key ∈ s.childrenOf parent.clean ∧ (∀ c ∈ cs, c.path.clean ≠ key) ∧
          (v.retain parent cs).2.deedsAt key = .removed :: s.deedsAt key := by
      rcases hcleared.deeds key with hd | ⟨hm, hd⟩
      · exact .inl hd
      · obtain ⟨hchild, hno⟩ := List.mem_filter.mp hm
        have hne : ∀ c ∈ cs, c.path.clean ≠ key := by simpa using hno
        rw [hother key hne] at hd
        exact .inr ⟨hchild, hne, hd⟩
    refine ⟨⟨hcleared.published hv.published, ?_, ?_⟩, ?_⟩
    · intro other key hk
      rw [childrenOf_retain] at hk
      split at hk
      · obtain ⟨c, hc, rfl⟩ := List.mem_map.mp hk
        rcases hdeeds c.path.clean with hd | ⟨-, hne, -⟩
        · rw [hd]
          exact .of_head (hwritten c hc)
        · exact absurd rfl (hne c hc)
      · next ho =>
        rcases hdeeds key with hd | ⟨hchild, -, -⟩
        · rw [hd]
          exact hv.child other key hk
        · rw [hchildren] at hk
          exact absurd (htracks.parent_unique hk hchild) ho
    · intro key
      rcases hdeeds key with hd | ⟨hchild, -, hd⟩
      · rw [hd]
        exact hv.paced key
      · rw [hd]
        exact eachRemoval_cons.mpr ⟨h.paced key, fun _ => h.child _ key hchild⟩
    · intro key
      rcases hdeeds key with hd | hremoved
      · rw [hd]
        exact .inl (hfilled.deeds key)
      · exact .inr hremoved

theorem accounted_release (h : s.Accounted) (path : Path) :
    (s.release path).2.Accounted ∧ ∀ key, (s.release path).2.deedsAt key = s.deedsAt key ∨
      (s.deedsAt key).head? = some .wrote ∧
        (s.release path).2.deedsAt key = .removed :: s.deedsAt key := by
  have hcleared := cleared_release s path
  have hdeeds (key : Path) : (s.release path).2.deedsAt key = s.deedsAt key ∨
      (s.deedsAt key).head? = some .wrote ∧
        (s.release path).2.deedsAt key = .removed :: s.deedsAt key := by
    by_cases hp : s.isPublished path = true
    · obtain ⟨a, ha, hpub⟩ := (Option.any_eq_true _ _).mp hp
      rcases hcleared.deeds key with hd | ⟨hm, hd⟩
      · exact .inl hd
      · rw [List.mem_singleton.mp hm] at hd ⊢
        exact .inr ⟨h.published path.clean a ha hpub, hd⟩
    · rw [release, if_neg hp]
      exact .inl rfl
  refine ⟨⟨hcleared.published h.published, ?_, ?_⟩, hdeeds⟩
  · intro parent key hk
    rw [(sameRegister_release s path).children] at hk
    rcases hdeeds key with hd | ⟨hw, hd⟩
    · rw [hd]
      exact h.child parent key hk
    · rw [hd]
      exact .removed hw
  · intro key
    rcases hdeeds key with hd | ⟨hw, hd⟩
    · rw [hd]
      exact h.paced key
    · rw [hd]
      exact eachRemoval_cons.mpr ⟨h.paced key, fun _ => .of_head hw⟩

/-- At each path, a step writes, or it removes what was written last, or what its transform no
longer declares. -/
theorem accounted_step (h : s.Accounted) (htracks : Tracks ups s) (p : Plugin)
    (step : BuildStep) :
    (p.step s step).Accounted ∧ ∀ key,
      (∃ n, (p.step s step).deedsAt key = List.replicate n .wrote ++ s.deedsAt key) ∨
      ((s.deedsAt key).head? = some .wrote ∨ p.Undeclares s key step) ∧
        (p.step s step).deedsAt key = .removed :: s.deedsAt key := by
  cases step with
  | transform code id =>
    have htakes := p.takes_transform code id s
    cases he : p.extraction? code id with
    | none =>
      rw [he] at htakes
      have hsame : SameStore s (p.step s (.transform code id)) := htakes
      exact ⟨h.sameStore hsame, fun key => .inl ⟨0, hsame.deedsAt key⟩⟩
    | some e =>
      rw [he] at htakes
      obtain ⟨u, hu, ht⟩ := htakes
      have ht : SameStore _ (p.step s (.transform code id)) := ht
      obtain ⟨haccounted, hdeeds⟩ := accounted_takeUp (h.sameStore hu)
        (htracks.sameRegister hu.sameRegister) ⟨id⟩ e.components
      refine ⟨haccounted.sameStore ht, ?_⟩
      intro key
      rw [ht.deedsAt]
      have hkey := hdeeds key
      rw [hu.deedsAt, hu.sameRegister.children] at hkey
      rcases hkey with hwrote | ⟨hchild, hne, hd⟩
      · exact .inl hwrote
      · exact .inr ⟨.inr ⟨hchild, e, he, hne⟩, hd⟩
  | moduleParsed id =>
    rw [step, moduleParsed]
    split
    · obtain ⟨haccounted, hdeeds⟩ := accounted_release h ⟨id⟩
      refine ⟨haccounted, ?_⟩
      intro key
      rcases hdeeds key with hd | ⟨hw, hd⟩
      · exact .inl ⟨0, hd⟩
      · exact .inr ⟨.inl hw, hd⟩
    · exact ⟨h, fun key => .inl ⟨0, rfl⟩⟩
  | buildStart =>
    have hfilled : Filled s (p.step s .buildStart) := filled_materializeAll s
    have hchildren := (sameRegister_materializeAll s).children
    exact ⟨h.filled hfilled hchildren, fun key => .inl (hfilled.deeds key)⟩

theorem accounted_watch (p : Plugin) (files : σ) (run : List (Happening σ)) :
    (p.watch files run).Accounted := by
  induction run using List.reverseRecOn with
  | nil => exact accounted_start files
  | append_singleton run h ih =>
    rw [watch_concat]
    cases h with
    | build step =>
      exact (accounted_step ih (tracks_run p ⟨files, []⟩ (run.map Happening.watched)) p step).1
    | files change => exact ⟨ih.published, ih.child, ih.paced⟩

/-- After a run, a step writes at a path, or removes what was written last there, or removes it
once more. -/
theorem deedsAt_step (p : Plugin) (files : σ) (run : List (Happening σ)) (step : BuildStep)
    (key : Path) :
    let s := p.watch files run
    (∃ n, (p.step s step).deedsAt key = List.replicate n .wrote ++ s.deedsAt key) ∨
    ((s.deedsAt key).head? = some .wrote ∧
      (p.step s step).deedsAt key = .removed :: s.deedsAt key) ∨
    p.RemovesAgain s key step := by
  intro s
  have hs : s.Accounted := accounted_watch p files run
  have htracks : Tracks _ s := tracks_run p ⟨files, []⟩ (run.map Happening.watched)
  rcases (accounted_step hs htracks p step).2 key with hwrote | ⟨hhead | hundeclared, hremoved⟩
  · exact .inl hwrote
  · exact .inr (.inl ⟨hhead, hremoved⟩)
  · refine .inr ?_
    cases step with
    | moduleParsed id => exact hundeclared.elim
    | buildStart => exact hundeclared.elim
    | transform code id =>
      obtain ⟨rest, hrest | hrest⟩ := hs.child _ key hundeclared.1
      · exact .inl ⟨by rw [hrest, List.head?_cons], hremoved⟩
      · refine .inr ⟨hundeclared, ?_, ⟨rest, hrest⟩, hremoved⟩
        -- what is published was written last, and not removed
        rw [Bool.eq_false_iff]
        intro hp
        obtain ⟨a, ha, hpub⟩ := (Option.any_eq_true _ _).mp hp
        rw [artifact?, htracks.cleanChildren _ key hundeclared.1] at ha
        have hhead := hs.published key a ha hpub
        rw [hrest] at hhead
        cases hhead

/-- Each removal comes right after a write. -/
def OncePerWrite (deeds : List Deed) : Prop :=
  EachRemoval (fun older => older.head? = some .wrote) deeds

/-- The files of a run are removed once after each write, unless a transform no longer declares an
artifact that was released already and a file is found at its path. There are never more than two
removals between writes, and none before the first. -/
theorem oncePerWrite_iff (p : Plugin) (files : σ) (run : List (Happening σ)) (key : Path) :
    (p.watch files run).onFiles Watched.files = run.foldl p.happen (.start files) ∧
    Paced ((p.watch files run).deedsAt key) ∧
    (OncePerWrite ((p.watch files run).deedsAt key) ↔
      ∀ before step after, run = before ++ .build step :: after →
        ¬ p.RemovesAgain (p.watch files before) key step) := by
  refine ⟨onFiles_watch p files run, (accounted_watch p files run).paced key, ?_⟩
  induction run using List.reverseRecOn with
  | nil =>
    have hnone : OncePerWrite ((p.watch files []).deedsAt key) := by
      intro newer older he
      simp [watch, deedsAt, Watched.deedsAt, Session.start] at he
    exact iff_of_true hnone (by simp)
  | append_singleton run h ih =>
    rw [forall_build_concat, ← ih, watch_concat]
    -- a change of the files from outside is no deed, and a step adds a condition of its own
    cases h with
    | files change =>
      have hsame : OncePerWrite ((p.watch files run).deedsAt key) ↔
          OncePerWrite ((p.happen (p.watch files run) (Happening.files change).watched).deedsAt
            key) := Iff.rfl
      rw [← hsame]
      simp
    | build step =>
      have hstep : p.happen (p.watch files run) (Happening.build step).watched =
          p.step (p.watch files run) step := rfl
      simp only [hstep, Happening.build.injEq, forall_eq']
      rcases deedsAt_step p files run step key with ⟨n, hn⟩ | ⟨hhead, hremoved⟩ | hagain
      · have hno : ¬ p.RemovesAgain (p.watch files run) key step := by
          intro hagain
          have he := hn.symm.trans hagain.removed
          cases n with
          | zero => simp at he
          | succ n => cases he
        rw [hn, OncePerWrite, eachRemoval_replicate_wrote]
        exact (and_iff_left hno).symm
      · have hno : ¬ p.RemovesAgain (p.watch files run) key step := by
          intro hagain
          obtain ⟨rest, hrest⟩ := hagain.before
          rw [hrest] at hhead
          cases hhead
        rw [hremoved, OncePerWrite, eachRemoval_cons]
        simp [hhead, hno, OncePerWrite]
      · obtain ⟨rest, hrest⟩ := hagain.before
        rw [hagain.removed, OncePerWrite, eachRemoval_cons]
        simp [hrest, hagain]

/-- An artifact is released, the user puts a file where it was, and its parent no longer declares
it: the user's file is removed. -/
theorem removed_twice_of_undeclared :
    let p : Plugin := ⟨.default, none, none, fun source _ => .ok ⟨source, none, none, [], []⟩⟩
    let run : List (Happening Memory) :=
      [.build (.transform "<template name=A>a</template>" "/P.svelte"),
        .build (.moduleParsed "/P__A.svelte"),
        .files (·.insert ⟨"/P__A.svelte"⟩ "mine".toUTF8)]
    let s := p.watch .empty run
    let t := p.step s (.transform "" "/P.svelte")
    s.files.files.contents ⟨"/P__A.svelte"⟩ = some "mine".toUTF8 ∧
      t.files.files.contents ⟨"/P__A.svelte"⟩ = none ∧
      ¬ OncePerWrite (t.deedsAt ⟨"/P__A.svelte"⟩) := by
  intro p run s t
  let key : Path := ⟨"/P__A.svelte"⟩
  let a : SubComponent := ⟨"A", key, "a"⟩
  have hkey : key.clean = key := (Path.clean_eq _).trans (by decide +kernel)
  have hdeclared : p.extraction? "<template name=A>a</template>" "/P.svelte" = some ⟨"", [a]⟩ := by
    decide +kernel
  have hundeclared : p.extraction? "" "/P.svelte" = some ⟨"", []⟩ := by decide +kernel
  have hartifact : isArtifactId "/P__A.svelte" p.options.extensions = true := by decide +kernel
  -- The block is written and declared.
  let start : Session (Watched Memory) := .start ⟨.empty, []⟩
  let written := p.step start (.transform "<template name=A>a</template>" "/P.svelte")
  have hwritten : SameStore _ written := sameStore_transform_first hdeclared rfl rfl rfl
  have hpublished : written.isPublished key = true := by
    rw [isPublished, artifact?, hwritten.artifacts, Table.find?_put_self]
    rfl
  have hchildren : written.childrenOf (Path.clean ⟨"/P.svelte"⟩) = [key.clean] := by
    rw [childrenOf, hwritten.children, Table.find?_put_self]
    rfl
  -- Its file is removed as it is parsed.
  let parsed := p.step written (.moduleParsed "/P__A.svelte")
  have hparsed : parsed = (written.release key).2 := by
    show (p.moduleParsed _ written).2 = _
    rw [moduleParsed, if_pos hartifact]
  have hreleased : parsed.files.deeds = [(key.clean, .removed), (key.clean, .wrote)] := by
    have hthere : written.files.files.contents key.clean = some "a".toUTF8 := by
      rw [hwritten.files, Memory.contents, Path.clean_clean]
      exact Table.find?_put_self _ _ _
    rw [hparsed, files_release hpublished, Watched.remove_of_contents hthere, hwritten.files,
      Path.clean_clean]
    rfl
  have hkept : parsed.childrenOf (Path.clean ⟨"/P.svelte"⟩) = [key.clean] := by
    rw [hparsed, (sameRegister_release written key).children, hchildren]
  -- The file that the user puts there is removed as the block is gone.
  have hmine : s.files.files.contents key.clean = some "mine".toUTF8 := by
    rw [Memory.contents, Path.clean_clean]
    exact Table.find?_put_self _ _ _
  have hremoved : t.files = ⟨{ s.files.files with files := s.files.files.files.erase key.clean },
      [(key.clean, .removed), (key.clean, .removed), (key.clean, .wrote)]⟩ := by
    have hlast : t.files = (FileSystem.remove s.files key.clean).2 :=
      files_transform_nil hundeclared rfl hkept
    have hdeeds : s.files.deeds = parsed.files.deeds := rfl
    rw [hlast, Watched.remove_of_contents hmine, hdeeds, hreleased, Path.clean_clean]
  rw [hkey] at hmine hremoved
  refine ⟨hmine, ?_, ?_⟩
  · rw [hremoved, Memory.contents, hkey]
    exact Table.find?_erase_self _ _
  · have hdeeds : t.deedsAt key = [.removed, .removed, .wrote] := by
      rw [deedsAt, hremoved]
      decide +kernel
    intro honce
    cases honce [] [.removed, .wrote] hdeeds

end Plugin

end InlineComponents
