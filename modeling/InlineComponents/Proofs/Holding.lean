import InlineComponents.Proofs.Registration

namespace InlineComponents

namespace Session

variable {σ : Type} [FileSystem σ] [LawfulFileSystem σ] {s t : Session σ} {c d : SubComponent}

/-- The component is registered and published, and its file holds its body. -/
structure Holds (s : Session σ) (c : SubComponent) : Prop where
  published : s.artifact? c.path = some ⟨c, true⟩
  written : s.content c.path.clean = some c.body.toUTF8

theorem Holds.congr (h : s.Holds c)
    (ha : t.artifacts.find? c.path.clean = s.artifacts.find? c.path.clean)
    (hf : t.content c.path.clean = s.content c.path.clean) : t.Holds c :=
  ⟨ha.trans h.published, hf.trans h.written⟩

theorem Holds.sameStore (h : s.Holds c) (hs : SameStore s t) : t.Holds c :=
  h.congr (by rw [hs.artifacts]) (hs.content _)

/-- A write is about the file and the artifact at its own path alone. -/
theorem materialize_other {key : Path} (hne : key ≠ c.path.clean) :
    (s.materialize c).2.artifacts.find? key = s.artifacts.find? key ∧
      (s.materialize c).2.content key = s.content key := by
  obtain ⟨result, files, hwrite, hcases⟩ := s.materialize_cases c
  have hlaw := LawfulFileSystem.content_write s.files c.path c.body.toUTF8 key
  rw [hwrite] at hlaw
  rcases hcases with ⟨cause, rfl, hm⟩ | ⟨rfl, hm⟩
  · rw [hm]
    exact ⟨rfl, hlaw⟩
  · rw [hm]
    refine ⟨(find?_setPublished _ _ _ _).trans (if_neg hne), ?_⟩
    rw [content, setPublished_eq]
    exact hlaw.trans (if_neg hne)

/-- A component that is registered is there when its write has succeeded. -/
theorem holds_materialize
    (hc : (s.artifacts.find? c.path.clean).map Artifact.component = some c)
    (h : s.materialize c = (.ok (), t)) : t.Holds c := by
  obtain ⟨result, files, hwrite, ⟨cause, -, hm⟩ | ⟨rfl, hm⟩⟩ := s.materialize_cases c
  · rw [hm] at h
    cases h
  · rw [hm] at h
    obtain ⟨-, rfl⟩ := Prod.mk.inj h
    refine ⟨?_, ?_⟩
    · obtain ⟨a, ha, rfl⟩ := Option.map_eq_some_iff.mp hc
      refine (find?_setPublished _ _ _ _).trans ((if_pos rfl).trans ?_)
      exact congrArg (Option.map _) ha
    · have hlaw := LawfulFileSystem.content_write s.files c.path c.body.toUTF8 c.path.clean
      rw [hwrite] at hlaw
      rw [content, setPublished_eq]
      exact hlaw.trans (if_pos rfl)

theorem holds_publish (h : s.publish c = (.ok (), t)) : t.Holds c := by
  have hregistered : ((s.register c).artifacts.find? c.path.clean).map Artifact.component =
      some c := by
    rw [find?_register, if_pos rfl]
    rfl
  unfold publish at h
  split at h
  · cases h
  · next u hu =>
    obtain ⟨-, rfl⟩ := Prod.mk.inj h
    exact (holds_materialize hregistered hu).sameStore (sameStore_log u _)

theorem Holds.materialize (h : s.Holds d) (hne : d.path.clean ≠ c.path.clean) :
    (s.materialize c).2.Holds d :=
  h.congr (materialize_other hne).1 (materialize_other hne).2

theorem Holds.publish (h : s.Holds d) (hne : d.path.clean ≠ c.path.clean) :
    (s.publish c).2.Holds d := by
  have hregistered : (s.register c).Holds d :=
    h.congr ((find?_register s c _).trans (if_neg hne)) rfl
  exact (hregistered.materialize hne).sameStore (frame_sameStore.publish s c)

/-- Where all components of different paths are written, each of them is there in the end, as none
undoes another. -/
theorem holds_forEach {act : Session σ → SubComponent → Except Failure Unit × Session σ}
    (Ready : Session σ → SubComponent → Prop)
    (hact : ∀ s t c, Ready s c → act s c = (.ok (), t) → t.Holds c)
    (hkeeps : ∀ s c d, d.path.clean ≠ c.path.clean → s.Holds d → (act s c).2.Holds d)
    (hready : ∀ s c d, Ready s d → Ready (act s c).2 d) {cs : List SubComponent}
    (hn : (cs.map fun c => c.path.clean).Nodup) (hcs : ∀ c ∈ cs, Ready s c)
    (h : s.forEach act cs = (.ok (), t)) : ∀ c ∈ cs, t.Holds c := by
  induction cs generalizing s with
  | nil => simp
  | cons c cs ih =>
    obtain ⟨hc, hn⟩ := List.nodup_cons.mp hn
    rw [forEach] at h
    split at h
    · cases h
    · next u hu =>
      intro d hd
      rcases List.mem_cons.mp hd with rfl | hd
      · have hfirst : u.Holds d := hact s u d (hcs d List.mem_cons_self) hu
        have hkept : (u.forEach act cs).2.Holds d := by
          refine forEach_induction (P := fun v => v.Holds d) ?_ hfirst
          intro v hv e he
          exact hkeeps v e d (fun heq => hc (List.mem_map.mpr ⟨e, he, heq.symm⟩)) hv
        rwa [h] at hkept
      · refine ih hn ?_ h d hd
        intro e he
        have hrest := hready s c e (hcs e (List.mem_cons_of_mem c he))
        rwa [hu] at hrest

theorem holds_publishAll {cs : List SubComponent} (hn : (cs.map fun c => c.path.clean).Nodup)
    (h : s.publishAll cs = (.ok (), t)) : ∀ c ∈ cs, t.Holds c :=
  holds_forEach (fun _ _ => True) (fun _ _ _ _ => holds_publish)
    (fun _ _ _ hne hd => hd.publish hne) (fun _ _ _ _ => trivial) hn (fun _ _ => trivial) h

/-- Where all known components are written again, each of them is there in the end, and no other
file is changed. -/
theorem holds_materializeAll (hs : s.Indexed) {count : Nat}
    (h : s.materializeAll = (.ok count, t)) :
    (∀ key a, s.artifacts.find? key = some a → t.Holds a.component) ∧
      ∀ key, s.artifacts.find? key = none → t.content key = s.content key := by
  have hpaths := paths_components hs.nodup hs.placed
  have hready (c : SubComponent) (hc : c ∈ s.components) : s.Registers c :=
    registers_of_mem_components hs.nodup hs.placed hc
  obtain ⟨u, hu, hsame⟩ : ∃ u, s.forEach Session.materialize s.components = (.ok (), u) ∧
      SameStore u t := by
    unfold materializeAll at h
    dsimp only at h
    split at h
    · cases h
    · next u hu =>
      obtain ⟨-, rfl⟩ := Prod.mk.inj h
      refine ⟨u, hu, ?_⟩
      split
      · exact .refl u
      · exact sameStore_log u _
  refine ⟨?_, ?_⟩
  · intro key a ha
    have hmem : a.component ∈ s.components := List.mem_map.mpr ⟨(key, a), Table.mem_of_find? ha, rfl⟩
    refine Holds.sameStore ?_ hsame
    refine holds_forEach Registers (fun _ _ _ => holds_materialize)
      (fun _ _ _ hne hd => hd.materialize hne) ?_ (hpaths ▸ hs.nodup) hready hu a.component hmem
    intro v c d hd
    rw [Registers, map_component_materialize, hd]
  · intro key hnone
    have hkept : (s.forEach Session.materialize s.components).2.content key = s.content key := by
      refine forEach_induction (P := fun v => v.content key = s.content key) ?_ rfl
      intro v hv c hc
      refine (materialize_other ?_).2.trans hv
      rintro rfl
      have hfind := hready c hc
      rw [Registers, hnone] at hfind
      cases hfind
    rw [hu] at hkept
    rw [hsame.content, hkept]

/-- Known artifacts are written, and no other file is. -/
theorem content_materializeAll (hs : s.Indexed) {count : Nat}
    (h : s.materializeAll = (.ok count, t)) (key : Path) :
    (s.Knows key → ∃ a, s.artifacts.find? key = some a ∧
      t.content key = some a.component.body.toUTF8) ∧
    (¬ s.Knows key → t.content key = s.content key) := by
  obtain ⟨hheld, hother⟩ := holds_materializeAll hs h
  refine ⟨?_, ?_⟩
  · intro hk
    obtain ⟨a, ha⟩ := Option.isSome_iff_exists.mp hk
    have hwritten := (hheld key a ha).written
    rw [hs.placed key a ha] at hwritten
    exact ⟨a, ha, hwritten⟩
  · intro hk
    exact hother key (by simpa [Knows] using hk)

theorem Holds.drop {key : Path} (h : s.Holds c) (hk : key.clean = key) (hne : c.path.clean ≠ key) :
    (s.drop key).Holds c := by
  have herased : Holds { s with artifacts := s.artifacts.erase key } c :=
    h.congr (Table.find?_erase_of_ne _ hne) rfl
  have hremoved : Holds { s with
      artifacts := s.artifacts.erase key
      files := (FileSystem.remove s.files key).2 } c :=
    herased.congr rfl (LawfulFileSystem.content_remove s.files key _ (by rwa [hk]))
  exact hremoved.sameStore
    (frame_sameStore.removeFile { s with artifacts := s.artifacts.erase key } key)

theorem Holds.dropAll {keys : List Path} (h : s.Holds c)
    (hk : ∀ key ∈ keys, key.clean = key ∧ c.path.clean ≠ key) :
    (keys.foldl Session.drop s).Holds c := by
  induction keys generalizing s with
  | nil => exact h
  | cons key keys ih =>
    obtain ⟨hclean, hne⟩ := hk key List.mem_cons_self
    exact ih (h.drop hclean hne) fun other ho => hk other (List.mem_cons_of_mem key ho)

/-- The components that a parent has now are none of those that are dropped. -/
theorem Holds.retain {parent : Path} {cs : List SubComponent} (h : s.Holds c)
    (hk : ∀ key ∈ s.childrenOf parent.clean, key.clean = key) (hc : c ∈ cs) :
    (s.retain parent cs).2.Holds c := by
  have hset : (s.setChildren parent.clean (cs.map fun c => c.path.clean)).Holds c := h.congr rfl rfl
  refine Holds.sameStore (hset.dropAll ?_) (sameStore_retain s parent cs)
  intro key hstale
  obtain ⟨hchild, hno⟩ := List.mem_filter.mp hstale
  refine ⟨hk key hchild, ?_⟩
  rintro rfl
  exact absurd (List.mem_map.mpr ⟨c, hc, rfl⟩) (by simpa using hno)

end Session

end InlineComponents
