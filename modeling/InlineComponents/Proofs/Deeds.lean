import InlineComponents.Proofs.Watching

namespace InlineComponents

/-- The file was written last, or once removed since. -/
def WrittenLately (deeds : List Deed) : Prop :=
  ∃ rest, deeds = .wrote :: rest ∨ deeds = .removed :: .wrote :: rest

/-- Of the deeds, the last one first, each removal comes after some that are as required. -/
def EachRemoval (Before : List Deed → Prop) (deeds : List Deed) : Prop :=
  ∀ newer older, deeds = newer ++ .removed :: older → Before older

/-- At most two removals come between writes, and none before the first. -/
def Paced (deeds : List Deed) : Prop :=
  EachRemoval WrittenLately deeds

section

variable {Before : List Deed → Prop} {deed : Deed} {deeds : List Deed}

theorem WrittenLately.of_head (h : deeds.head? = some .wrote) : WrittenLately deeds := by
  obtain ⟨rest, rfl⟩ := List.head?_eq_some_iff.mp h
  exact ⟨rest, .inl rfl⟩

theorem WrittenLately.removed (h : deeds.head? = some .wrote) :
    WrittenLately (.removed :: deeds) := by
  obtain ⟨rest, rfl⟩ := List.head?_eq_some_iff.mp h
  exact ⟨rest, .inr rfl⟩

theorem head?_replicate_wrote (h : deeds.head? = some .wrote) (n : Nat) :
    (List.replicate n Deed.wrote ++ deeds).head? = some .wrote := by
  cases n with
  | zero => exact h
  | succ n => rfl

theorem WrittenLately.replicate_wrote (h : WrittenLately deeds) (n : Nat) :
    WrittenLately (List.replicate n .wrote ++ deeds) := by
  cases n with
  | zero => exact h
  | succ n => exact .of_head rfl

theorem eachRemoval_cons :
    EachRemoval Before (deed :: deeds) ↔
      EachRemoval Before deeds ∧ (deed = .removed → Before deeds) := by
  constructor
  · intro h
    refine ⟨?_, ?_⟩
    · rintro newer older rfl
      exact h (deed :: newer) older rfl
    · rintro rfl
      exact h [] deeds rfl
  · rintro ⟨hdeeds, hdeed⟩ newer older he
    cases newer with
    | nil =>
      obtain ⟨rfl, rfl⟩ := List.cons.inj he
      exact hdeed rfl
    | cons first newer => exact hdeeds newer older (List.cons.inj he).2

theorem eachRemoval_replicate_wrote (n : Nat) :
    EachRemoval Before (List.replicate n .wrote ++ deeds) ↔ EachRemoval Before deeds := by
  induction n with
  | zero => rfl
  | succ n ih =>
    rw [List.replicate_succ, List.cons_append, eachRemoval_cons, ih]
    simp

end

namespace Session

variable {σ : Type}

/-- The deeds at a cleaned path, the last one first. -/
def deedsAt (s : Session (Watched σ)) (key : Path) : List Deed :=
  s.files.deedsAt key

/-- The file of a published artifact was written last. -/
def PublishedWritten (s : Session (Watched σ)) : Prop :=
  ∀ key a, s.artifacts.find? key = some a → a.published = true →
    (s.deedsAt key).head? = some .wrote

variable {s t u : Session (Watched σ)} {keys : List Path}

theorem SameStore.deedsAt (h : SameStore s t) (key : Path) : t.deedsAt key = s.deedsAt key := by
  rw [Session.deedsAt, Session.deedsAt, h.files]

theorem PublishedWritten.sameStore (h : s.PublishedWritten) (hs : SameStore s t) :
    t.PublishedWritten := by
  intro key a ha hp
  rw [hs.artifacts] at ha
  rw [hs.deedsAt]
  exact h key a ha hp

/-- Files are written, and those of the artifacts that get published among them. -/
structure Filled (s t : Session (Watched σ)) : Prop where
  deeds : ∀ key, ∃ n, t.deedsAt key = List.replicate n .wrote ++ s.deedsAt key
  published : s.PublishedWritten → t.PublishedWritten

theorem SameStore.filled (h : SameStore s t) : Filled s t :=
  ⟨fun key => ⟨0, h.deedsAt key⟩, fun hp => hp.sameStore h⟩

theorem Filled.trans (h : Filled s t) (h' : Filled t u) : Filled s u := by
  refine ⟨?_, fun hp => h'.published (h.published hp)⟩
  intro key
  obtain ⟨m, hm⟩ := h.deeds key
  obtain ⟨n, hn⟩ := h'.deeds key
  refine ⟨n + m, ?_⟩
  rw [hn, hm, ← List.append_assoc, List.replicate_append_replicate]

theorem Filled.head (h : Filled s t) {key : Path} (hw : (s.deedsAt key).head? = some .wrote) :
    (t.deedsAt key).head? = some .wrote := by
  obtain ⟨n, hn⟩ := h.deeds key
  rw [hn]
  exact head?_replicate_wrote hw n

/-- Files may be removed at the given paths, each of them once, and nothing is written. -/
structure Cleared (keys : List Path) (s t : Session (Watched σ)) : Prop where
  deeds : ∀ key, t.deedsAt key = s.deedsAt key ∨
    key ∈ keys ∧ t.deedsAt key = .removed :: s.deedsAt key
  published : s.PublishedWritten → t.PublishedWritten

theorem Cleared.sameStore (h : Cleared keys s t) (hs : SameStore t u) : Cleared keys s u := by
  refine ⟨?_, fun hp => (h.published hp).sameStore hs⟩
  intro key
  rw [hs.deedsAt]
  exact h.deeds key

theorem filled_register (s : Session (Watched σ)) (c : SubComponent) :
    Filled s (s.register c) := by
  refine ⟨fun _ => ⟨0, rfl⟩, ?_⟩
  intro hs key a ha hp
  rw [find?_register] at ha
  split at ha
  · obtain rfl := Option.some.inj ha
    cases hp
  · exact hs key a ha hp

theorem frame_filled : Frame (@Filled σ) where
  refl s := (SameStore.refl s).filled
  trans := Filled.trans
  log s event := (sameStore_log s event).filled
  handled s d := (frame_sameStore.handled s d).filled

variable [FileSystem σ]

theorem deedsAt_materialize (s : Session (Watched σ)) (c : SubComponent) (key : Path) :
    (s.materialize c).2.deedsAt key =
      match (s.materialize c).1 with
      | .ok () => if key = c.path.clean then .wrote :: s.deedsAt key else s.deedsAt key
      | .error _ => s.deedsAt key := by
  obtain ⟨result, files, hwrite, hcases⟩ := s.materialize_cases c
  have hdeeds := s.files.deedsAt_note c.path .wrote
    (FileSystem.write s.files.files c.path c.body.toUTF8) key
  rw [show s.files.note c.path .wrote _ = (result, files) from hwrite] at hdeeds
  rcases hcases with ⟨cause, rfl, hm⟩ | ⟨rfl, hm⟩
  · rw [hm]
    exact hdeeds
  · rw [hm, setPublished_eq]
    exact hdeeds

theorem filled_materialize (s : Session (Watched σ)) (c : SubComponent) :
    Filled s (s.materialize c).2 := by
  have hdeeds := deedsAt_materialize s c
  obtain ⟨result, files, -, ⟨cause, -, hm⟩ | ⟨-, hm⟩⟩ := s.materialize_cases c
  · rw [hm] at hdeeds ⊢
    refine ⟨fun key => ⟨0, hdeeds key⟩, ?_⟩
    intro hs key a ha hp
    rw [hdeeds]
    exact hs key a ha hp
  · rw [hm] at hdeeds ⊢
    dsimp only at hdeeds ⊢
    refine ⟨?_, ?_⟩
    · intro key
      rw [hdeeds]
      split
      · exact ⟨1, rfl⟩
      · exact ⟨0, rfl⟩
    · intro hs key a ha hp
      rw [find?_setPublished] at ha
      rw [hdeeds]
      split at ha
      · -- what is marked as published has just been written
        next hk => rw [if_pos hk, List.head?_cons]
      · next hk =>
        rw [if_neg hk]
        exact hs key a ha hp

theorem filled_publish (s : Session (Watched σ)) (c : SubComponent) :
    Filled s (s.publish c).2 :=
  ((filled_register s c).trans (filled_materialize (s.register c) c)).trans
    (frame_filled.publish s c)

theorem deedsAt_publish_of_ne {c : SubComponent} {key : Path} (h : c.path.clean ≠ key)
    (s : Session (Watched σ)) : (s.publish c).2.deedsAt key = s.deedsAt key := by
  have hm : ((s.register c).materialize c).2.deedsAt key = s.deedsAt key := by
    rw [deedsAt_materialize]
    split
    · exact if_neg (Ne.symm h)
    · rfl
  exact ((frame_sameStore.publish s c).deedsAt key).trans hm

theorem deedsAt_publishAll_of_ne {cs : List SubComponent} {key : Path}
    (h : ∀ c ∈ cs, c.path.clean ≠ key) (s : Session (Watched σ)) :
    (s.publishAll cs).2.deedsAt key = s.deedsAt key :=
  forEach_induction (P := fun t => t.deedsAt key = s.deedsAt key)
    (fun t ht c hc => (deedsAt_publish_of_ne (h c hc) t).trans ht) rfl

theorem head_deedsAt_publish {c : SubComponent} (h : s.publish c = (.ok (), t)) :
    (t.deedsAt c.path.clean).head? = some .wrote := by
  have hdeeds := deedsAt_materialize (s.register c) c c.path.clean
  unfold publish at h
  split at h
  · cases h
  · next u hu =>
    obtain ⟨-, rfl⟩ := Prod.mk.inj h
    rw [hu] at hdeeds
    dsimp only at hdeeds
    rw [if_pos rfl] at hdeeds
    rw [(sameStore_log u _).deedsAt, hdeeds, List.head?_cons]

theorem filled_materializeAll (s : Session (Watched σ)) : Filled s s.materializeAll.2 :=
  (frame_filled.forEach filled_materialize s _).trans (frame_filled.materializeAll s)

/-- Where all components are published, each of their files was written last. -/
theorem head_deedsAt_publishAll {cs : List SubComponent} (h : s.publishAll cs = (.ok (), t)) :
    ∀ c ∈ cs, (t.deedsAt c.path.clean).head? = some .wrote := by
  induction cs generalizing s with
  | nil => simp
  | cons c cs ih =>
    rw [publishAll, forEach] at h
    split at h
    · cases h
    · next u hu =>
      intro d hd
      rcases List.mem_cons.mp hd with rfl | hd
      · have hrest := frame_filled.forEach filled_publish u cs
        rw [h] at hrest
        exact hrest.head (head_deedsAt_publish hu)
      · exact ih h d hd

theorem deedsAt_removeFile {key : Path} (hk : key.clean = key) (s : Session (Watched σ))
    (other : Path) : (s.removeFile key).deedsAt other = s.deedsAt other ∨
      other = key ∧ (s.removeFile key).deedsAt other = .removed :: s.deedsAt other := by
  have hdeeds := s.files.deedsAt_note key .removed (FileSystem.remove s.files.files key) other
  rw [hk] at hdeeds
  have hafter : (s.removeFile key).deedsAt other =
      (s.files.note key .removed (FileSystem.remove s.files.files key)).2.deedsAt other :=
    (frame_sameStore.removeFile s key).deedsAt other
  rw [hafter, hdeeds]
  split
  · split
    · next ho => exact .inr ⟨ho, rfl⟩
    · exact .inl rfl
  · exact .inl rfl

/-- The file of an artifact that is not published may go. -/
theorem cleared_removeFile {key : Path} (hk : key.clean = key)
    (hu : ∀ a, s.artifacts.find? key = some a → a.published = false) :
    Cleared [key] s (s.removeFile key) := by
  have hdeeds := deedsAt_removeFile hk s
  refine ⟨?_, ?_⟩
  · intro other
    simpa using hdeeds other
  · intro hs other a ha hp
    have hstore : (s.removeFile key).artifacts = s.artifacts :=
      (frame_sameStore.removeFile s key).artifacts
    rw [hstore] at ha
    rcases hdeeds other with he | ⟨rfl, -⟩
    · rw [he]
      exact hs other a ha hp
    · rw [hu a ha] at hp
      cases hp

theorem cleared_drop {key : Path} (hk : key.clean = key) (s : Session (Watched σ)) :
    Cleared [key] s (s.drop key) := by
  let erased : Session (Watched σ) := { s with artifacts := s.artifacts.erase key }
  have hremoved : Cleared [key] erased (s.drop key) := by
    refine cleared_removeFile hk ?_
    intro a ha
    rw [Table.find?_erase_self] at ha
    cases ha
  refine ⟨hremoved.deeds, ?_⟩
  intro hs
  apply hremoved.published
  intro other a ha hp
  rw [Table.find?_erase] at ha
  split at ha
  · cases ha
  · exact hs other a ha hp

theorem cleared_foldl_drop (hk : ∀ key ∈ keys, key.clean = key) (hn : keys.Nodup)
    (s : Session (Watched σ)) : Cleared keys s (keys.foldl drop s) := by
  induction keys generalizing s with
  | nil => exact ⟨fun _ => .inl rfl, id⟩
  | cons key keys ih =>
    obtain ⟨hnot, hn⟩ := List.nodup_cons.mp hn
    have hfirst := cleared_drop (hk key List.mem_cons_self) s
    have hrest := ih (fun other ho => hk other (List.mem_cons_of_mem key ho)) hn (s.drop key)
    refine ⟨?_, fun hs => hrest.published (hfirst.published hs)⟩
    intro other
    rw [List.foldl_cons]
    rcases hrest.deeds other with he | ⟨hm, he⟩
    · rw [he]
      rcases hfirst.deeds other with hd | ⟨hm, hd⟩
      · exact .inl hd
      · exact .inr ⟨List.mem_cons.mpr (.inl (List.mem_singleton.mp hm)), hd⟩
    · -- no path is dropped twice
      rcases hfirst.deeds other with hd | ⟨hm', -⟩
      · rw [he, hd]
        exact .inr ⟨List.mem_cons_of_mem key hm, rfl⟩
      · rw [List.mem_singleton.mp hm'] at hm
        exact absurd hm hnot

theorem cleared_release (s : Session (Watched σ)) (path : Path) :
    Cleared [path.clean] s (s.release path).2 := by
  unfold release
  split
  · have hoff : Cleared [path.clean] (s.setPublished path.clean false)
        ((s.setPublished path.clean false).removeFile path.clean) := by
      refine cleared_removeFile path.clean_clean ?_
      intro a ha
      rw [find?_setPublished, if_pos rfl] at ha
      obtain ⟨b, -, rfl⟩ := Option.map_eq_some_iff.mp ha
      rfl
    have hsame : ∀ key, (s.setPublished path.clean false).deedsAt key = s.deedsAt key := by
      intro key
      rw [setPublished_eq]
      rfl
    refine ⟨?_, ?_⟩
    · intro key
      rw [← hsame]
      exact hoff.deeds key
    · intro hs
      apply hoff.published
      intro key a ha hp
      rw [hsame]
      rw [find?_setPublished] at ha
      split at ha
      · obtain ⟨b, -, rfl⟩ := Option.map_eq_some_iff.mp ha
        cases hp
      · exact hs key a ha hp
  · exact ⟨fun _ => .inl rfl, id⟩

theorem cleared_retain {parent : Path} (hk : ∀ key ∈ s.childrenOf parent.clean, key.clean = key)
    (hn : (s.childrenOf parent.clean).Nodup) (cs : List SubComponent) :
    Cleared ((s.childrenOf parent.clean).filter (· ∉ cs.map fun c => c.path.clean)) s
      (s.retain parent cs).2 := by
  let stale := (s.childrenOf parent.clean).filter (· ∉ cs.map fun c => c.path.clean)
  have hset : Cleared stale (s.setChildren parent.clean (cs.map fun c => c.path.clean)) _ :=
    cleared_foldl_drop (fun key hm => hk key (List.mem_filter.mp hm).1) (hn.filter _) _
  have hdropped : Cleared stale s _ := ⟨hset.deeds, hset.published⟩
  exact hdropped.sameStore (sameStore_retain s parent cs)

end Session

end InlineComponents
