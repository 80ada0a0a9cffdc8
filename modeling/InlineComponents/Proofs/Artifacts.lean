import InlineComponents.Proofs.Contents
import InlineComponents.Proofs.NormalPaths
import InlineComponents.Session.Artifacts

namespace InlineComponents

namespace Session

variable {σ : Type}

/-- The same files, artifacts and children; the rest of a session is no matter to its artifacts. -/
structure SameStore (s t : Session σ) : Prop where
  files : t.files = s.files
  artifacts : t.artifacts = s.artifacts
  children : t.children = s.children

theorem SameStore.refl (s : Session σ) : SameStore s s :=
  ⟨rfl, rfl, rfl⟩

theorem SameStore.trans {s t u : Session σ} (h : SameStore s t) (h' : SameStore t u) :
    SameStore s u :=
  ⟨h'.files.trans h.files, h'.artifacts.trans h.artifacts, h'.children.trans h.children⟩

theorem sameStore_log (s : Session σ) (event : Event) : SameStore s (s.log event) :=
  ⟨rfl, rfl, rfl⟩

theorem find?_register (s : Session σ) (c : SubComponent) (key : Path) :
    (s.register c).artifacts.find? key =
      if key = c.path.clean then some ⟨c, false⟩ else s.artifacts.find? key :=
  Table.find?_put ..

theorem setPublished_eq (s : Session σ) (key : Path) (published : Bool) :
    s.setPublished key published =
      { s with artifacts := (s.setPublished key published).artifacts } := by
  unfold setPublished
  split <;> rfl

theorem find?_setPublished (s : Session σ) (key other : Path) (published : Bool) :
    (s.setPublished key published).artifacts.find? other =
      if other = key then (s.artifacts.find? key).map fun a => { a with published }
      else s.artifacts.find? other := by
  unfold setPublished
  split
  · next a h =>
    rw [h]
    exact Table.find?_put ..
  · next h =>
    rw [h]
    split
    · next ho => rw [ho, h]; rfl
    · rfl

/-- The paths that are children of a parent, none if it has none. -/
theorem find?_setChildren (s : Session σ) (parent other : Path) (paths : List Path) :
    ((s.setChildren parent paths).children.find? other).getD [] =
      if other = parent then paths else (s.children.find? other).getD [] := by
  unfold setChildren
  cases paths with
  | nil =>
    show ((s.children.erase parent).find? other).getD [] = _
    rw [Table.find?_erase]
    split <;> rfl
  | cons path paths =>
    show ((s.children.put parent (path :: paths)).find? other).getD [] = _
    rw [Table.find?_put]
    split <;> rfl

theorem nodup_setPublished {s : Session σ} (h : s.artifacts.keys.Nodup) (key : Path)
    (published : Bool) : (s.setPublished key published).artifacts.keys.Nodup := by
  unfold setPublished
  split
  · exact Table.nodup_keys_put h key _
  · exact h

/-- The components of the known artifacts, in the order in which they happen to be kept. -/
def components (s : Session σ) : List SubComponent :=
  s.artifacts.map fun entry => entry.2.component

/-- A component is the one that is known at its path. -/
def Registers (s : Session σ) (c : SubComponent) : Prop :=
  (s.artifacts.find? c.path.clean).map Artifact.component = some c

section Placed

variable {s : Session σ} (hn : s.artifacts.keys.Nodup)
  (hp : ∀ key a, s.artifacts.find? key = some a → a.component.path.clean = key)

include hn hp

theorem registers_of_mem_components {c : SubComponent} (hc : c ∈ s.components) :
    s.Registers c := by
  obtain ⟨entry, he, rfl⟩ := List.mem_map.mp hc
  have hfind := Table.find?_of_mem hn he
  rw [Registers, hp entry.1 entry.2 hfind, hfind]
  rfl

theorem paths_components : (s.components.map fun c => c.path.clean) = s.artifacts.keys := by
  rw [components, List.map_map]
  apply List.map_congr_left
  intro entry he
  exact hp entry.1 entry.2 (Table.find?_of_mem hn he)

end Placed

theorem forEach_induction {P : Session σ → Prop}
    {act : Session σ → SubComponent → Except Failure Unit × Session σ} {cs : List SubComponent}
    (hstep : ∀ s, P s → ∀ c ∈ cs, P (act s c).2) {s : Session σ} (h : P s) :
    P (s.forEach act cs).2 := by
  induction cs generalizing s with
  | nil => exact h
  | cons c cs ih =>
    have hc := hstep s h c List.mem_cons_self
    rw [forEach]
    split
    · next failure t ht => rwa [ht] at hc
    · next t ht =>
      rw [ht] at hc
      exact ih (fun s hs d hd => hstep s hs d (List.mem_cons_of_mem c hd)) hc

/-- A relation of a session to what becomes of it, whatever is told of it except to the compiler. -/
structure Frame (R : Session σ → Session σ → Prop) : Prop where
  refl : ∀ s, R s s
  trans : ∀ {s t u}, R s t → R t u → R s u
  log : ∀ s event, R s (s.log event)
  handled : ∀ s diagnostic, R s (s.tell (.warningHandled diagnostic))

theorem frame_sameStore : Frame (@SameStore σ) where
  refl := SameStore.refl
  trans := SameStore.trans
  log := sameStore_log
  handled _ _ := ⟨rfl, rfl, rfl⟩

namespace Frame

variable {R : Session σ → Session σ → Prop} (h : Frame R)

include h

theorem foldl {α : Type} {act : Session σ → α → Session σ} (hact : ∀ s a, R s (act s a))
    (as : List α) (s : Session σ) : R s (as.foldl act s) :=
  List.foldlRecOn as act (h.refl s) fun t ht a _ => h.trans ht (hact t a)

theorem forEach {act : Session σ → SubComponent → Except Failure Unit × Session σ}
    (hact : ∀ s c, R s (act s c).2) (s : Session σ) (cs : List SubComponent) :
    R s (s.forEach act cs).2 :=
  forEach_induction (P := R s) (fun t ht c _ => h.trans ht (hact t c)) (h.refl s)

end Frame

variable [FileSystem σ]

/-- The body of a component is written, and the component published if that succeeds. -/
theorem materialize_cases (s : Session σ) (c : SubComponent) :
    ∃ result files, FileSystem.write s.files c.path c.body.toUTF8 = (result, files) ∧
      ((∃ cause, result = .error cause ∧
        s.materialize c = (.error (.artifactNotWritten c.path cause), { s with files })) ∨
      (result = .ok () ∧
        s.materialize c = (.ok (), { s with files }.setPublished c.path.clean true))) := by
  rcases hw : FileSystem.write s.files c.path c.body.toUTF8 with ⟨result, files⟩
  refine ⟨result, files, rfl, ?_⟩
  unfold materialize
  rw [hw]
  cases result with
  | error cause => exact .inl ⟨cause, rfl, rfl⟩
  | ok u => exact .inr ⟨rfl, rfl⟩

/-- What a publication leaves behind whose write succeeds. -/
theorem publish_of_written {s : Session σ} {c : SubComponent} {files : σ}
    (h : FileSystem.write s.files c.path c.body.toUTF8 = (.ok (), files)) :
    s.publish c = (.ok (),
      { s with files, artifacts := s.artifacts.put c.path.clean ⟨c, true⟩ }.log
        (.artifactPublished c.path)) := by
  have hregistered : (s.register c).files = s.files := rfl
  have hset : { s.register c with files }.setPublished c.path.clean true =
      { s with files, artifacts := s.artifacts.put c.path.clean ⟨c, true⟩ } := by
    rw [setPublished, register, Table.find?_put_self]
    simp only [Table.put_put]
  rw [publish, materialize, hregistered, h]
  dsimp only
  rw [hset]

namespace Frame

variable {R : Session σ → Session σ → Prop} (h : Frame R)

include h

/-- A publication is a registration and a write, and is told. -/
theorem publish (s : Session σ) (c : SubComponent) :
    R ((s.register c).materialize c).2 (s.publish c).2 := by
  unfold Session.publish
  rcases (s.register c).materialize c with ⟨result, t⟩
  cases result with
  | error failure => exact h.refl t
  | ok u => exact h.log t _

theorem materializeAll (s : Session σ) :
    R (s.forEach materialize (s.artifacts.map fun entry => entry.2.component)).2
      s.materializeAll.2 := by
  unfold Session.materializeAll
  dsimp only
  rcases s.forEach materialize _ with ⟨result, t⟩
  cases result with
  | error failure => exact h.refl t
  | ok u =>
    dsimp only
    split
    · exact h.refl t
    · exact h.log t _

/-- A file is removed, and nothing else is changed. -/
theorem removeFile (s : Session σ) (path : Path) :
    R { s with files := (FileSystem.remove s.files path).2 } (s.removeFile path) := by
  unfold Session.removeFile
  rcases FileSystem.remove s.files path with ⟨result, files⟩
  cases result with
  | ok u => exact h.log _ _
  | error cause =>
    dsimp only
    split
    · exact h.refl _
    · exact h.log _ _

/-- What is not declared any more is dropped, and how many those are is told. -/
theorem retain (s : Session σ) (parent : Path) (cs : List SubComponent) :
    let keep := cs.map fun c => c.path.clean
    let stale := ((s.children.find? parent.clean).getD []).filter (· ∉ keep)
    R (stale.foldl drop (s.setChildren parent.clean keep)) (s.retain parent cs).2 := by
  intro keep stale
  unfold Session.retain
  dsimp only
  split
  · exact h.refl _
  · exact h.log _ _

end Frame

/-- A write is about the files and the artifacts alone. -/
theorem materialize_snd (s : Session σ) (c : SubComponent) : (s.materialize c).2 =
    { s with
      files := (s.materialize c).2.files
      artifacts := (s.materialize c).2.artifacts } := by
  obtain ⟨result, files, -, ⟨cause, -, hm⟩ | ⟨-, hm⟩⟩ := s.materialize_cases c
  · rw [hm]
  · rw [hm, setPublished_eq]

theorem map_component_materialize (s : Session σ) (c : SubComponent) (key : Path) :
    ((s.materialize c).2.artifacts.find? key).map Artifact.component =
      (s.artifacts.find? key).map Artifact.component := by
  obtain ⟨result, files, -, ⟨cause, -, hm⟩ | ⟨-, hm⟩⟩ := s.materialize_cases c
  · rw [hm]
  · rw [hm, find?_setPublished]
    split
    · next hk =>
      rw [hk, Option.map_map]
      rfl
    · rfl

/-- What the file at a cleaned path holds. -/
def content [LawfulFileSystem σ] (s : Session σ) (key : Path) : Option ByteArray :=
  LawfulFileSystem.content s.files key

theorem SameStore.content [LawfulFileSystem σ] {s t : Session σ} (h : SameStore s t) (key : Path) :
    t.content key = s.content key := by
  rw [Session.content, Session.content, h.files]

end Session

end InlineComponents
