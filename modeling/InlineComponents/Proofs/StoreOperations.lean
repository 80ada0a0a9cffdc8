import InlineComponents.Proofs.Artifacts

namespace InlineComponents

namespace Session

variable {σ : Type} {s t : Session σ}

/-- An operation of the store gives the same result and leaves the same store, whatever a session
has beside it. -/
def SameOutcome {α : Type} (a b : α × Session σ) : Prop :=
  b.1 = a.1 ∧ SameStore a.2 b.2

theorem SameStore.register (h : SameStore s t) (c : SubComponent) :
    SameStore (s.register c) (t.register c) := by
  refine ⟨h.files, ?_, h.children⟩
  rw [Session.register, Session.register, h.artifacts]

theorem SameStore.setPublished (h : SameStore s t) (key : Path) (published : Bool) :
    SameStore (s.setPublished key published) (t.setPublished key published) := by
  unfold Session.setPublished
  rw [h.artifacts]
  split
  · exact ⟨h.files, rfl, h.children⟩
  · exact h

theorem SameStore.setChildren (h : SameStore s t) (parent : Path) (paths : List Path) :
    SameStore (s.setChildren parent paths) (t.setChildren parent paths) := by
  refine ⟨h.files, h.artifacts, ?_⟩
  rw [Session.setChildren, Session.setChildren, h.children]

theorem SameStore.forEach
    {act : Session σ → SubComponent → Except Failure Unit × Session σ}
    (hact : ∀ {s t : Session σ}, SameStore s t → ∀ c, SameOutcome (act s c) (act t c))
    (h : SameStore s t) (cs : List SubComponent) :
    SameOutcome (s.forEach act cs) (t.forEach act cs) := by
  induction cs generalizing s t with
  | nil => exact ⟨rfl, h⟩
  | cons c cs ih =>
    obtain ⟨hresult, hstore⟩ := hact h c
    rw [Session.forEach, Session.forEach]
    rcases hs : act s c with ⟨result, u⟩
    rcases ht : act t c with ⟨result', v⟩
    rw [hs, ht] at hresult hstore
    obtain rfl : result' = result := hresult
    cases result' with
    | error failure => exact ⟨rfl, hstore⟩
    | ok a => exact ih hstore

variable [FileSystem σ]

theorem SameStore.materialize (h : SameStore s t) (c : SubComponent) :
    SameOutcome (s.materialize c) (t.materialize c) := by
  unfold Session.materialize
  rw [h.files]
  split
  · exact ⟨rfl, rfl, h.artifacts, h.children⟩
  · next files _ =>
    have hwritten : SameStore { s with files } { t with files } := ⟨rfl, h.artifacts, h.children⟩
    exact ⟨rfl, hwritten.setPublished _ _⟩

theorem SameStore.publish (h : SameStore s t) (c : SubComponent) :
    SameOutcome (s.publish c) (t.publish c) := by
  obtain ⟨hresult, hstore⟩ := (h.register c).materialize c
  unfold Session.publish
  rcases hs : (s.register c).materialize c with ⟨result, u⟩
  rcases ht : (t.register c).materialize c with ⟨result', v⟩
  rw [hs, ht] at hresult hstore
  obtain rfl : result' = result := hresult
  cases result' with
  | error failure => exact ⟨rfl, hstore⟩
  | ok a => exact ⟨rfl, hstore.files, hstore.artifacts, hstore.children⟩

theorem SameStore.publishAll (h : SameStore s t) (cs : List SubComponent) :
    SameOutcome (s.publishAll cs) (t.publishAll cs) :=
  h.forEach SameStore.publish cs

theorem SameStore.removeFile (h : SameStore s t) (path : Path) :
    SameStore (s.removeFile path) (t.removeFile path) := by
  unfold Session.removeFile
  rw [h.files]
  split
  · exact ⟨rfl, h.artifacts, h.children⟩
  · split
    · exact ⟨rfl, h.artifacts, h.children⟩
    · exact ⟨rfl, h.artifacts, h.children⟩

theorem SameStore.drop (h : SameStore s t) (key : Path) : SameStore (s.drop key) (t.drop key) := by
  have herased : SameStore { s with artifacts := s.artifacts.erase key }
      { t with artifacts := t.artifacts.erase key } := by
    refine ⟨h.files, ?_, h.children⟩
    rw [h.artifacts]
  exact herased.removeFile key

theorem SameStore.dropAll (h : SameStore s t) (keys : List Path) :
    SameStore (keys.foldl Session.drop s) (keys.foldl Session.drop t) := by
  induction keys generalizing s t with
  | nil => exact h
  | cons key keys ih => exact ih (h.drop key)

theorem SameStore.retain (h : SameStore s t) (parent : Path) (cs : List SubComponent) :
    SameOutcome (s.retain parent cs) (t.retain parent cs) := by
  have hdropped := (h.setChildren parent.clean (cs.map fun c => c.path.clean)).dropAll
    (((s.children.find? parent.clean).getD []).filter (· ∉ cs.map fun c => c.path.clean))
  unfold Session.retain
  rw [h.children]
  dsimp only
  refine ⟨rfl, ?_⟩
  split
  · exact hdropped
  · exact ⟨hdropped.files, hdropped.artifacts, hdropped.children⟩

end Session

end InlineComponents
