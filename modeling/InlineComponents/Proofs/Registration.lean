import InlineComponents.Proofs.Transforms

namespace InlineComponents

namespace Session

variable {σ : Type}

/-- An artifact is known at a cleaned path, published or not. -/
def Knows (s : Session σ) (key : Path) : Prop :=
  (s.artifacts.find? key).isSome = true

/-- The cleaned paths of the artifacts that a cleaned path has for children. -/
def childrenOf (s : Session σ) (parent : Path) : List Path :=
  (s.children.find? parent).getD []

/-- The same components are registered, whether or not they are published, and they have the same
parents. -/
structure SameRegister (s t : Session σ) : Prop where
  component : ∀ key, (t.artifacts.find? key).map Artifact.component =
    (s.artifacts.find? key).map Artifact.component
  children : ∀ parent, t.childrenOf parent = s.childrenOf parent
  nodup : s.artifacts.keys.Nodup → t.artifacts.keys.Nodup

/-- Each artifact is there once, at the cleaned path of its component. -/
structure Indexed (s : Session σ) : Prop where
  nodup : s.artifacts.keys.Nodup
  placed : ∀ key a, s.artifacts.find? key = some a → a.component.path.clean = key

variable {s t u : Session σ}

theorem SameRegister.refl (s : Session σ) : SameRegister s s :=
  ⟨fun _ => rfl, fun _ => rfl, id⟩

theorem SameRegister.trans (h : SameRegister s t) (h' : SameRegister t u) : SameRegister s u :=
  ⟨fun key => (h'.component key).trans (h.component key),
    fun parent => (h'.children parent).trans (h.children parent), fun hn => h'.nodup (h.nodup hn)⟩

theorem SameRegister.known (h : SameRegister s t) (key : Path) : t.Knows key ↔ s.Knows key := by
  have hc := congrArg Option.isSome (h.component key)
  rw [Option.isSome_map, Option.isSome_map] at hc
  rw [Knows, Knows, hc]

theorem SameRegister.indexed (h : SameRegister s t) (hs : s.Indexed) : t.Indexed := by
  refine ⟨h.nodup hs.nodup, ?_⟩
  intro key a ha
  have hc := h.component key
  rw [ha] at hc
  obtain ⟨b, hb, hba⟩ := Option.map_eq_some_iff.mp hc.symm
  rw [← hba]
  exact hs.placed key b hb

theorem SameStore.sameRegister (h : SameStore s t) : SameRegister s t := by
  refine ⟨?_, ?_, ?_⟩
  · intro key
    rw [h.artifacts]
  · intro parent
    rw [childrenOf, childrenOf, h.children]
  · rw [h.artifacts]
    exact id

theorem knows_register (s : Session σ) (c : SubComponent) (key : Path) :
    (s.register c).Knows key ↔ c.path.clean = key ∨ s.Knows key := by
  rw [Knows, find?_register]
  split
  · next h => exact iff_of_true rfl (.inl h.symm)
  · next h => rw [or_iff_right (Ne.symm h), Knows]

theorem Indexed.register (h : s.Indexed) (c : SubComponent) : (s.register c).Indexed := by
  refine ⟨Table.nodup_keys_put h.nodup _ _, ?_⟩
  intro key a ha
  rw [find?_register] at ha
  split at ha
  · next hk =>
    obtain rfl := Option.some.inj ha
    exact hk.symm
  · exact h.placed key a ha

theorem Indexed.erase (h : s.Indexed) (key : Path) :
    Indexed { s with artifacts := s.artifacts.erase key } := by
  refine ⟨Table.nodup_keys_erase h.nodup key, ?_⟩
  intro other a ha
  rw [Table.find?_erase] at ha
  split at ha
  · cases ha
  · exact h.placed other a ha

theorem sameRegister_setPublished (s : Session σ) (key : Path) (published : Bool) :
    SameRegister s (s.setPublished key published) := by
  refine ⟨?_, ?_, fun hn => nodup_setPublished hn key published⟩
  · intro other
    rw [find?_setPublished]
    split
    · next ho =>
      rw [ho, Option.map_map]
      rfl
    · rfl
  · intro parent
    rw [setPublished_eq]
    rfl

variable [FileSystem σ]

theorem sameRegister_materialize (s : Session σ) (c : SubComponent) :
    SameRegister s (s.materialize c).2 := by
  obtain ⟨result, files, -, ⟨cause, -, hm⟩ | ⟨-, hm⟩⟩ := s.materialize_cases c
  · rw [hm]
    exact ⟨fun _ => rfl, fun _ => rfl, id⟩
  · have hwritten : SameRegister s { s with files } := ⟨fun _ => rfl, fun _ => rfl, id⟩
    rw [hm]
    exact hwritten.trans (sameRegister_setPublished _ _ _)

theorem sameRegister_removeFile (s : Session σ) (path : Path) :
    SameRegister s (s.removeFile path) := by
  have hremoved : SameRegister s { s with files := (FileSystem.remove s.files path).2 } :=
    ⟨fun _ => rfl, fun _ => rfl, id⟩
  exact hremoved.trans (frame_sameStore.removeFile s path).sameRegister

theorem sameRegister_release (s : Session σ) (path : Path) :
    SameRegister s (s.release path).2 := by
  unfold release
  split
  · exact (sameRegister_setPublished s _ _).trans (sameRegister_removeFile _ _)
  · exact .refl s

theorem sameRegister_materializeAll (s : Session σ) : SameRegister s s.materializeAll.2 := by
  have hloop (cs : List SubComponent) : SameRegister s (s.forEach materialize cs).2 :=
    forEach_induction (fun t ht c _ => ht.trans (sameRegister_materialize t c)) (.refl s)
  exact (hloop _).trans (frame_sameStore.materializeAll s).sameRegister

/-- A component is written after it is registered, and is known whether or not it is written. -/
theorem sameRegister_publish (s : Session σ) (c : SubComponent) :
    SameRegister (s.register c) (s.publish c).2 :=
  (sameRegister_materialize (s.register c) c).trans (frame_sameStore.publish s c).sameRegister

theorem knows_publish (s : Session σ) (c : SubComponent) (key : Path) :
    (s.publish c).2.Knows key ↔ c.path.clean = key ∨ s.Knows key :=
  ((sameRegister_publish s c).known key).trans (knows_register s c key)

theorem childrenOf_publish (s : Session σ) (c : SubComponent) (parent : Path) :
    (s.publish c).2.childrenOf parent = s.childrenOf parent :=
  (sameRegister_publish s c).children parent

theorem childrenOf_publishAll (s : Session σ) (cs : List SubComponent) (parent : Path) :
    (s.publishAll cs).2.childrenOf parent = s.childrenOf parent :=
  @forEach_induction _ (fun t => t.childrenOf parent = s.childrenOf parent) _ _
    (fun t ht c _ => (childrenOf_publish t c parent).trans ht) _ rfl

theorem Indexed.publish (h : s.Indexed) (c : SubComponent) : (s.publish c).2.Indexed :=
  (sameRegister_publish s c).indexed (h.register c)

theorem Indexed.publishAll (h : s.Indexed) (cs : List SubComponent) :
    (s.publishAll cs).2.Indexed :=
  forEach_induction (fun _ ht c _ => ht.publish c) h

theorem sameRegister_drop (s : Session σ) (key : Path) :
    SameRegister { s with artifacts := s.artifacts.erase key } (s.drop key) :=
  sameRegister_removeFile { s with artifacts := s.artifacts.erase key } key

theorem knows_drop (s : Session σ) (key other : Path) :
    (s.drop key).Knows other ↔ other ≠ key ∧ s.Knows other := by
  refine ((sameRegister_drop s key).known other).trans ?_
  rw [Knows, Table.find?_erase]
  split
  · next ho => simp [ho]
  · next ho => rw [and_iff_right ho, Knows]

theorem knows_foldl_drop (s : Session σ) (keys : List Path) (other : Path) :
    (keys.foldl drop s).Knows other ↔ other ∉ keys ∧ s.Knows other := by
  induction keys generalizing s with
  | nil => simp
  | cons key keys ih => rw [List.foldl_cons, ih, knows_drop, List.mem_cons, not_or, and_left_comm,
      and_assoc]

theorem childrenOf_foldl_drop (s : Session σ) (keys : List Path) (parent : Path) :
    (keys.foldl drop s).childrenOf parent = s.childrenOf parent := by
  induction keys generalizing s with
  | nil => rfl
  | cons key keys ih =>
    rw [List.foldl_cons, ih]
    exact (sameRegister_drop s key).children parent

theorem Indexed.dropAll (h : s.Indexed) (keys : List Path) : (keys.foldl drop s).Indexed := by
  induction keys generalizing s with
  | nil => exact h
  | cons key keys ih => exact ih ((sameRegister_drop s key).indexed (h.erase key))

theorem sameStore_retain (s : Session σ) (parent : Path) (cs : List SubComponent) :
    let keep := cs.map fun c => c.path.clean
    SameStore (((s.childrenOf parent.clean).filter (· ∉ keep)).foldl drop
      (s.setChildren parent.clean keep)) (s.retain parent cs).2 :=
  frame_sameStore.retain s parent cs

/-- The artifacts that a parent had and no longer has are forgotten. -/
theorem knows_retain (s : Session σ) (parent : Path) (cs : List SubComponent) (key : Path) :
    (s.retain parent cs).2.Knows key ↔
      s.Knows key ∧ (key ∈ s.childrenOf parent.clean → ∃ c ∈ cs, c.path.clean = key) := by
  refine ((sameStore_retain s parent cs).sameRegister.known key).trans ?_
  rw [knows_foldl_drop, and_comm]
  apply and_congr_right
  intro _
  simp

theorem childrenOf_retain (s : Session σ) (parent : Path) (cs : List SubComponent) (other : Path) :
    (s.retain parent cs).2.childrenOf other =
      if other = parent.clean then cs.map fun c => c.path.clean else s.childrenOf other := by
  refine ((sameStore_retain s parent cs).sameRegister.children other).trans ?_
  rw [childrenOf_foldl_drop]
  exact find?_setChildren s parent.clean other _

theorem Indexed.retain (h : s.Indexed) (parent : Path) (cs : List SubComponent) :
    (s.retain parent cs).2.Indexed := by
  have hset : (s.setChildren parent.clean (cs.map fun c => c.path.clean)).Indexed := ⟨h.1, h.2⟩
  exact (sameStore_retain s parent cs).sameRegister.indexed (hset.dropAll _)

theorem Indexed.takeUp (h : s.Indexed) (parent : Path) (cs : List SubComponent) :
    (s.takeUp parent cs).Indexed := by
  have hpublished := h.publishAll cs
  unfold Session.takeUp
  split
  · next failure t ht => rwa [ht] at hpublished
  · next t ht =>
    rw [ht] at hpublished
    exact hpublished.retain parent cs

/-- A parent without artifacts takes up its first. -/
theorem sameStore_takeUp_first {c : SubComponent} {parent : Path} {files : σ}
    (hnone : s.childrenOf parent.clean = [])
    (h : FileSystem.write s.files c.path c.body.toUTF8 = (.ok (), files)) :
    SameStore { s with
      files
      artifacts := s.artifacts.put c.path.clean ⟨c, true⟩
      children := s.children.put parent.clean [c.path.clean] } (s.takeUp parent [c]) := by
  let published : Session σ :=
    { s with files, artifacts := s.artifacts.put c.path.clean ⟨c, true⟩ }.log
      (.artifactPublished c.path)
  have hretained := sameStore_retain published parent [c]
  have hnone' : published.childrenOf parent.clean = [] := hnone
  rw [hnone'] at hretained
  rw [takeUp, publishAll, forEach, publish_of_written h]
  exact ⟨hretained.files, hretained.artifacts, hretained.children⟩

theorem files_release {path : Path} (h : s.isPublished path = true) :
    (s.release path).2.files = (FileSystem.remove s.files path.clean).2 := by
  rw [release, if_pos h, (frame_sameStore.removeFile _ _).files, setPublished_eq]

theorem files_takeUp_nil {parent key : Path} (h : s.childrenOf parent.clean = [key]) :
    (s.takeUp parent []).files = (FileSystem.remove s.files key).2 := by
  have hretained := sameStore_retain s parent []
  rw [h] at hretained
  exact hretained.files.trans (frame_sameStore.removeFile _ key).files

end Session

theorem Plugin.sameRegister_moduleParsed {σ : Type} [FileSystem σ] (p : Plugin) (id : String)
    (s : Session σ) : s.SameRegister (p.moduleParsed id s).2 := by
  rw [Plugin.moduleParsed]
  split
  · exact Session.sameRegister_release s _
  · exact .refl s

namespace Plugin

open Session

variable {σ : Type} [FileSystem σ] {s : Session σ} {p : Plugin} {code id : String} {e : Extraction}

/-- A transform that finds the first component of its file writes and registers it. -/
theorem sameStore_transform_first {c : SubComponent} {files : σ}
    (he : p.extraction? code id = some e) (hc : e.components = [c])
    (hnone : s.childrenOf (Path.clean ⟨id⟩) = [])
    (h : FileSystem.write s.files c.path c.body.toUTF8 = (.ok (), files)) :
    SameStore { s with
      files
      artifacts := s.artifacts.put c.path.clean ⟨c, true⟩
      children := s.children.put (Path.clean ⟨id⟩) [c.path.clean] } (p.transform code id s).2 := by
  have htakes := p.takes_transform code id s
  rw [he] at htakes
  obtain ⟨u, hu, ht⟩ := htakes
  rw [hc] at ht
  have hnone' : u.childrenOf (Path.clean ⟨id⟩) = [] := by
    rw [hu.sameRegister.children, hnone]
  have htaken := (sameStore_takeUp_first hnone' (hu.files ▸ h)).trans ht
  rw [hu.artifacts, hu.children] at htaken
  exact ⟨htaken.files, htaken.artifacts, htaken.children⟩

/-- A transform that finds nothing removes the one component that the file had. -/
theorem files_transform_nil {key : Path} (he : p.extraction? code id = some e)
    (hc : e.components = []) (hkey : s.childrenOf (Path.clean ⟨id⟩) = [key]) :
    (p.transform code id s).2.files = (FileSystem.remove s.files key).2 := by
  have htakes := p.takes_transform code id s
  rw [he] at htakes
  obtain ⟨u, hu, ht⟩ := htakes
  rw [hc] at ht
  have hkey' : u.childrenOf (Path.clean ⟨id⟩) = [key] := by
    rw [hu.sameRegister.children, hkey]
  rw [ht.files, files_takeUp_nil hkey', hu.files]

end Plugin

end InlineComponents
