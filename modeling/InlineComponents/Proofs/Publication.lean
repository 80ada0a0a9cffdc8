import InlineComponents.Proofs.Artifacts
import Mathlib.Data.List.Induction

namespace InlineComponents

namespace Session

variable {σ : Type} [FileSystem σ] [LawfulFileSystem σ]

/-- Every artifact and every child is that of a component that was given, and the file of a
published artifact holds the artifact's body. -/
structure Consistent (given : List SubComponent) (s : Session σ) : Prop where
  nodup : s.artifacts.keys.Nodup
  known : ∀ key a, s.artifacts.find? key = some a →
    a.component ∈ given ∧ a.component.path.clean = key
  children : ∀ parent, ∀ key ∈ (s.children.find? parent).getD [],
    ∃ c ∈ given, c.path.clean = key
  written : ∀ key a, s.artifacts.find? key = some a → a.published = true →
    s.content key = some a.component.body.toUTF8

/-- The state stays consistent, and no file changes but those of the components that were given. -/
structure Preserved (given : List SubComponent) (s t : Session σ) : Prop where
  consistent : Consistent given t
  untouched : ∀ key, (∀ c ∈ given, c.path.clean ≠ key) → t.content key = s.content key

theorem consistent_start (files : σ) : Consistent [] (Session.start files) where
  nodup := List.nodup_nil
  known key a ha := by simp [Session.start, Table.find?] at ha
  children parent key hk := by simp [Session.start, Table.find?] at hk
  written key a ha := by simp [Session.start, Table.find?] at ha

theorem Consistent.mono {given given' : List SubComponent} {s : Session σ}
    (h : Consistent given s) (hg : given ⊆ given') : Consistent given' s where
  nodup := h.nodup
  known key a ha := ⟨hg (h.known key a ha).1, (h.known key a ha).2⟩
  children parent key hk := by
    obtain ⟨c, hc, rfl⟩ := h.children parent key hk
    exact ⟨c, hg hc, rfl⟩
  written := h.written

variable {given : List SubComponent} {s t u : Session σ}

theorem Consistent.preserved (h : Consistent given s) : Preserved given s s :=
  ⟨h, fun _ _ => rfl⟩

theorem Preserved.trans (h : Preserved given s t) (h' : Preserved given t u) :
    Preserved given s u :=
  ⟨h'.consistent, fun key hk => (h'.untouched key hk).trans (h.untouched key hk)⟩

/-- What is not in the store does not matter, and of the files only what they hold. -/
theorem Consistent.congr (h : Consistent given s) (ha : t.artifacts = s.artifacts)
    (hc : t.children = s.children) (hf : ∀ key, t.content key = s.content key) :
    Preserved given s t := by
  refine ⟨⟨?_, ?_, ?_, ?_⟩, fun key _ => hf key⟩
  · rw [ha]
    exact h.nodup
  · rw [ha]
    exact h.known
  · rw [hc]
    exact h.children
  · intro key a
    rw [ha, hf]
    exact h.written key a

theorem Consistent.sameStore (h : Consistent given s) (hs : SameStore s t) :
    Preserved given s t :=
  h.congr hs.artifacts hs.children hs.content

theorem Consistent.register {c : SubComponent} (h : Consistent given s) (hc : c ∈ given) :
    Preserved given s (s.register c) := by
  refine ⟨⟨Table.nodup_keys_put h.nodup _ _, ?_, h.children, ?_⟩, fun _ _ => rfl⟩
  · intro key a ha
    rw [find?_register] at ha
    split at ha
    · next hk =>
      obtain rfl := Option.some.inj ha
      exact ⟨hc, hk.symm⟩
    · exact h.known key a ha
  · intro key a ha hp
    rw [find?_register] at ha
    split at ha
    · obtain rfl := Option.some.inj ha
      exact Bool.noConfusion hp
    · exact h.written key a ha hp

/-- An artifact is marked as published where its file holds its body, or as not published. -/
theorem Consistent.setPublished {key : Path} {published : Bool} (h : Consistent given s)
    (hw : published = true → ∀ a, s.artifacts.find? key = some a →
      s.content key = some a.component.body.toUTF8) :
    Preserved given s (s.setPublished key published) := by
  have hfiles (other : Path) : (s.setPublished key published).content other = s.content other := by
    rw [setPublished_eq]
    rfl
  refine ⟨⟨nodup_setPublished h.nodup key published, ?_, ?_, ?_⟩, fun other _ => hfiles other⟩
  · intro other a ha
    rw [find?_setPublished] at ha
    split at ha
    · next ho =>
      obtain ⟨b, hb, rfl⟩ := Option.map_eq_some_iff.mp ha
      rw [ho]
      exact h.known key b hb
    · exact h.known other a ha
  · rw [setPublished_eq]
    exact h.children
  · intro other a ha hp
    rw [find?_setPublished] at ha
    rw [hfiles]
    split at ha
    · next ho =>
      obtain ⟨b, hb, rfl⟩ := Option.map_eq_some_iff.mp ha
      rw [ho]
      exact hw hp b hb
    · exact h.written other a ha hp

theorem Consistent.materialize {c : SubComponent} (h : Consistent given s)
    (hc : (s.artifacts.find? c.path.clean).map Artifact.component = some c) :
    Preserved given s (s.materialize c).2 := by
  obtain ⟨a, ha, hac⟩ := Option.map_eq_some_iff.mp hc
  obtain ⟨result, files, hwrite, hcases⟩ := s.materialize_cases c
  have hlaw := LawfulFileSystem.content_write s.files c.path c.body.toUTF8
  rw [hwrite] at hlaw
  rcases hcases with ⟨cause, rfl, hm⟩ | ⟨rfl, hm⟩
  · rw [hm]
    exact h.congr rfl rfl hlaw
  · -- the file holds the body before the artifact is marked, whether or not it was published
    have hwritten : Preserved given s { s with files } := by
      refine ⟨⟨h.nodup, h.known, h.children, ?_⟩, ?_⟩
      · intro key b hb hp
        refine (hlaw key).trans ?_
        dsimp only
        split
        · next hk =>
          subst hk
          obtain rfl : a = b := Option.some.inj (ha.symm.trans hb)
          rw [hac]
        · exact h.written key b hb hp
      · intro key hk
        have hg := hk a.component (h.known _ a ha).1
        rw [hac] at hg
        exact (hlaw key).trans (if_neg (Ne.symm hg))
    rw [hm]
    refine hwritten.trans (hwritten.consistent.setPublished ?_)
    intro _ b hb
    obtain rfl : a = b := Option.some.inj (ha.symm.trans hb)
    rw [hac]
    exact (hlaw c.path.clean).trans (if_pos rfl)

theorem Consistent.publish {c : SubComponent} (h : Consistent given s) (hc : c ∈ given) :
    Preserved given s (s.publish c).2 := by
  have hr := h.register hc
  have hm : Preserved given s ((s.register c).materialize c).2 := by
    refine hr.trans (hr.consistent.materialize ?_)
    rw [find?_register, if_pos rfl]
    rfl
  exact hm.trans (hm.consistent.sameStore (frame_sameStore.publish s c))

/-- The file of an artifact that is not published may go. -/
theorem Consistent.removeFile {c : SubComponent} (h : Consistent given s) (hc : c ∈ given)
    (hu : ∀ a, s.artifacts.find? c.path.clean = some a → a.published = false) :
    Preserved given s (s.removeFile c.path.clean) := by
  have hlaw := LawfulFileSystem.content_remove s.files c.path.clean
  rw [Path.clean_clean] at hlaw
  have hremoved : Preserved given s
      { s with files := (FileSystem.remove s.files c.path.clean).2 } := by
    refine ⟨⟨h.nodup, h.known, h.children, ?_⟩, ?_⟩
    · intro key a ha hp
      refine (hlaw key ?_).trans (h.written key a ha hp)
      rintro rfl
      rw [hu a ha] at hp
      exact Bool.noConfusion hp
    · intro key hk
      exact hlaw key (Ne.symm (hk c hc))
  exact hremoved.trans (hremoved.consistent.sameStore (frame_sameStore.removeFile s _))

theorem Consistent.release (h : Consistent given s) (path : Path) :
    Preserved given s (s.release path).2 := by
  unfold Session.release
  split
  · next hp =>
    obtain ⟨a, ha, -⟩ := (Option.any_eq_true _ _).mp hp
    obtain ⟨hc, hk⟩ := h.known _ a ha
    have hoff : Preserved given s (s.setPublished path.clean false) :=
      h.setPublished fun hf => Bool.noConfusion hf
    rw [← hk] at hoff ⊢
    refine hoff.trans (hoff.consistent.removeFile hc ?_)
    intro b hb
    rw [find?_setPublished, if_pos rfl] at hb
    obtain ⟨_, -, rfl⟩ := Option.map_eq_some_iff.mp hb
    rfl
  · exact h.preserved

theorem Consistent.drop {c : SubComponent} (h : Consistent given s) (hc : c ∈ given) :
    Preserved given s (s.drop c.path.clean) := by
  have herased : Preserved given s { s with artifacts := s.artifacts.erase c.path.clean } := by
    refine ⟨⟨Table.nodup_keys_erase h.nodup _, ?_, h.children, ?_⟩, fun _ _ => rfl⟩
    · intro key a ha
      rw [Table.find?_erase] at ha
      split at ha
      · simp at ha
      · exact h.known key a ha
    · intro key a ha
      rw [Table.find?_erase] at ha
      split at ha
      · simp at ha
      · exact h.written key a ha
  refine herased.trans (herased.consistent.removeFile hc ?_)
  intro a ha
  rw [Table.find?_erase_self] at ha
  simp at ha

theorem Consistent.materializeAll (h : Consistent given s) :
    Preserved given s s.materializeAll.2 := by
  -- what is written again stays registered, as an artifact keeps its component
  let P := fun t : Session σ => Preserved given s t ∧ ∀ c ∈ s.components, t.Registers c
  have hstart : P s :=
    ⟨h.preserved, fun c hc => registers_of_mem_components h.nodup (fun key a ha =>
      (h.known key a ha).2) hc⟩
  have hloop : P (s.forEach Session.materialize s.components).2 := by
    refine forEach_induction ?_ hstart
    intro t ht c hc
    refine ⟨ht.1.trans (ht.1.consistent.materialize (ht.2 c hc)), ?_⟩
    intro d hd
    rw [Registers, map_component_materialize]
    exact ht.2 d hd
  exact hloop.1.trans (hloop.1.consistent.sameStore (frame_sameStore.materializeAll s))

theorem Consistent.setChildren {keys : List Path} (h : Consistent given s) (parent : Path)
    (hk : ∀ key ∈ keys, ∃ c ∈ given, c.path.clean = key) :
    Preserved given s (s.setChildren parent keys) := by
  refine ⟨⟨h.nodup, h.known, ?_, h.written⟩, fun _ _ => rfl⟩
  intro other key hm
  rw [find?_setChildren] at hm
  split at hm
  · exact hk key hm
  · exact h.children other key hm

theorem Consistent.dropAll {keys : List Path} (h : Consistent given s)
    (hk : ∀ key ∈ keys, ∃ c ∈ given, c.path.clean = key) :
    Preserved given s (keys.foldl Session.drop s) := by
  induction keys generalizing s with
  | nil => exact h.preserved
  | cons key keys ih =>
    obtain ⟨c, hc, rfl⟩ := hk key List.mem_cons_self
    have hd := h.drop hc
    exact hd.trans (ih hd.consistent fun other ho => hk other (List.mem_cons_of_mem _ ho))

theorem Consistent.retain {current : List SubComponent} (h : Consistent given s) (parent : Path)
    (hc : current ⊆ given) : Preserved given s (s.retain parent current).2 := by
  have hkeep : ∀ key ∈ current.map fun c => c.path.clean, ∃ c ∈ given, c.path.clean = key := by
    intro key hk
    obtain ⟨c, hm, rfl⟩ := List.mem_map.mp hk
    exact ⟨c, hc hm, rfl⟩
  let keep := current.map fun c => c.path.clean
  let stale := ((s.children.find? parent.clean).getD []).filter (· ∉ keep)
  have hgone : ∀ key ∈ stale, ∃ c ∈ given, c.path.clean = key := by
    intro key hk
    exact h.children parent.clean key (List.mem_filter.mp hk).1
  have hset := h.setChildren parent.clean hkeep
  have hdropped := hset.trans (hset.consistent.dropAll hgone)
  exact hdropped.trans (hdropped.consistent.sameStore (frame_sameStore.retain s parent current))

end Session

/-- What is asked for the artifacts, and what befalls the files in between: writing may be forbidden,
and any call on a path may be made to fail. Known components are written again all at once, or one
by one in whatever order. -/
inductive StoreOp where
  | register (c : SubComponent)
  | publish (c : SubComponent)
  | materializeAll
  | writeAgain (path : Path)
  | release (path : Path)
  | retain (parent : Path) (current : List SubComponent)
  | setReadOnly (readOnly : Bool)
  | setFault (fault : Fault)
  | clearFaults

namespace StoreOp

def run (s : Session (Faulty Memory)) : StoreOp → Session (Faulty Memory)
  | .register c => s.register c
  | .publish c => (s.publish c).2
  | .materializeAll => s.materializeAll.2
  | .writeAgain path =>
    match s.artifact? path with
    | some artifact => (s.materialize artifact.component).2
    | none => s
  | .release path => (s.release path).2
  | .retain parent current => (s.retain parent current).2
  | .setReadOnly readOnly =>
    { s with files := { s.files with files := s.files.files.setReadOnly readOnly } }
  | .setFault fault => { s with files := s.files.addFault fault }
  | .clearFaults => { s with files := s.files.clearFaults }

/-- The components that are handed over. -/
def given : StoreOp → List SubComponent
  | .register c | .publish c => [c]
  | .retain _ current => current
  | .materializeAll | .writeAgain _ | .release _ | .setReadOnly _ | .setFault _ | .clearFaults => []

theorem preserved_run {given : List SubComponent} {s : Session (Faulty Memory)}
    (h : s.Consistent given) (op : StoreOp) (hg : op.given ⊆ given) :
    s.Preserved given (op.run s) := by
  cases op with
  | register c => exact h.register (hg List.mem_cons_self)
  | publish c => exact h.publish (hg List.mem_cons_self)
  | materializeAll => exact h.materializeAll
  | writeAgain path =>
    unfold run
    dsimp only
    split
    · next a ha =>
      refine h.materialize ?_
      have hk : s.artifacts.find? path.clean = some a := ha
      rw [(h.known path.clean a hk).2, hk]
      rfl
    · exact h.preserved
  | release path => exact h.release path
  | retain parent current => exact h.retain parent hg
  | setReadOnly readOnly => exact h.congr rfl rfl fun _ => rfl
  | setFault fault => exact h.congr rfl rfl fun _ => rfl
  | clearFaults => exact h.congr rfl rfl fun _ => rfl

theorem consistent_foldl_run (files : Faulty Memory) (ops : List StoreOp) :
    (ops.foldl run (Session.start files)).Consistent (ops.flatMap given) := by
  induction ops using List.reverseRecOn with
  | nil => exact Session.consistent_start files
  | append_singleton ops op ih =>
    rw [List.foldl_append, List.flatMap_append]
    have hs := ih.mono (List.subset_append_left _ ([op].flatMap given))
    exact (preserved_run hs op (by simp)).consistent

end StoreOp

/-- In every state that is reached, the file of a published artifact holds the body of the component
that is registered for it, and whatever is asked for next changes no file but that of a component
that was handed over. -/
theorem content_of_isPublished (files : Faulty Memory) (ops : List StoreOp) :
    let s := ops.foldl StoreOp.run (Session.start files)
    (∀ path, s.isPublished path = true → ∃ a, s.artifact? path = some a ∧
      s.files.files.contents path = some a.component.body.toUTF8) ∧
    ∀ (op : StoreOp) (path : Path),
      (op.run s).files.files.contents path ≠ s.files.files.contents path →
        ∃ c ∈ (ops ++ [op]).flatMap StoreOp.given, c.path.clean = path.clean := by
  intro s
  have hs : s.Consistent (ops.flatMap StoreOp.given) := StoreOp.consistent_foldl_run files ops
  refine ⟨?_, ?_⟩
  · intro path hp
    obtain ⟨a, ha, hpub⟩ := (Option.any_eq_true _ _).mp hp
    exact ⟨a, ha, hs.written path.clean a ha hpub⟩
  · intro op path hne
    have hgrown := hs.mono (List.subset_append_left _ ([op].flatMap StoreOp.given))
    rw [← List.flatMap_append] at hgrown
    have hop := op.preserved_run hgrown (by simp)
    by_contra hno
    exact hne (hop.untouched path.clean fun c hc he => hno ⟨c, hc, he⟩)

end InlineComponents
