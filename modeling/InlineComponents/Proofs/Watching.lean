import InlineComponents.Proofs.Carrying
import InlineComponents.Proofs.NestedArtifacts

namespace InlineComponents

/-- What can be done to the file at a path. -/
inductive Deed where
  | wrote
  | removed
  deriving DecidableEq, Repr

/-- Files together with what was done to them, the last deed first. What fails is no deed. -/
structure Watched (σ : Type) where
  files : σ
  deeds : List (Path × Deed)

namespace Watched

variable {σ : Type}

/-- The deeds at a cleaned path. -/
def deedsAt (w : Watched σ) (key : Path) : List Deed :=
  (w.deeds.filter fun entry => entry.1 = key).map Prod.snd

def note (w : Watched σ) (path : Path) (deed : Deed) :
    Except FileError Unit × σ → Except FileError Unit × Watched σ
  | (.error cause, files) => (.error cause, ⟨files, w.deeds⟩)
  | (.ok (), files) => (.ok (), ⟨files, (path.clean, deed) :: w.deeds⟩)

theorem note_fst (w : Watched σ) (path : Path) (deed : Deed) (r : Except FileError Unit × σ) :
    (w.note path deed r).1 = r.1 := by
  obtain ⟨result, files⟩ := r
  cases result <;> rfl

theorem files_note (w : Watched σ) (path : Path) (deed : Deed) (r : Except FileError Unit × σ) :
    (w.note path deed r).2.files = r.2 := by
  obtain ⟨result, files⟩ := r
  cases result <;> rfl

theorem deedsAt_note (w : Watched σ) (path : Path) (deed : Deed)
    (r : Except FileError Unit × σ) (key : Path) :
    (w.note path deed r).2.deedsAt key =
      match (w.note path deed r).1 with
      | .ok () => if key = path.clean then deed :: w.deedsAt key else w.deedsAt key
      | .error _ => w.deedsAt key := by
  obtain ⟨result, files⟩ := r
  cases result with
  | error cause => rfl
  | ok u =>
    by_cases hk : key = path.clean
    · simp [note, deedsAt, hk]
    · simp [note, deedsAt, hk, Ne.symm hk]

variable [FileSystem σ]

instance : FileSystem (Watched σ) where
  read w path := FileSystem.read w.files path
  write w path body := w.note path .wrote (FileSystem.write w.files path body)
  remove w path := w.note path .removed (FileSystem.remove w.files path)
  stat w path := FileSystem.stat w.files path
  pathExists w path := FileSystem.pathExists w.files path

theorem remove_of_contents {w : Watched Memory} {path : Path} {content : ByteArray}
    (h : w.files.contents path = some content) : FileSystem.remove w path =
      (.ok (), ⟨{ w.files with files := w.files.files.erase path.clean },
        (path.clean, .removed) :: w.deeds⟩) := by
  show w.note path .removed (w.files.remove path) = _
  rw [Memory.remove, h]
  rfl

theorem carries_files : Carries (files : Watched σ → σ) where
  write w path _ := Prod.ext (w.note_fst path .wrote _).symm (w.files_note path .wrote _).symm
  remove w path := Prod.ext (w.note_fst path .removed _).symm (w.files_note path .removed _).symm

end Watched

/-- The same happening where the files are watched; what changes them otherwise is no deed. -/
def Happening.watched {σ : Type} : Happening σ → Happening (Watched σ)
  | .build step => .build step
  | .files change => .files fun w => { w with files := change w.files }

namespace Plugin

variable {σ : Type} [FileSystem σ]

/-- A run in which the files are watched. -/
def watch (p : Plugin) (files : σ) (run : List (Happening σ)) : Session (Watched σ) :=
  (run.map Happening.watched).foldl p.happen (.start ⟨files, []⟩)

theorem watch_concat (p : Plugin) (files : σ) (run : List (Happening σ)) (h : Happening σ) :
    p.watch files (run ++ [h]) = p.happen (p.watch files run) h.watched := by
  rw [watch, List.map_append, List.foldl_append]
  rfl

/-- Watching changes nothing of a run. -/
theorem onFiles_watch (p : Plugin) (files : σ) (run : List (Happening σ)) :
    (p.watch files run).onFiles Watched.files = run.foldl p.happen (.start files) := by
  induction run using List.reverseRecOn with
  | nil => rfl
  | append_singleton run h ih =>
    rw [watch_concat, List.foldl_append, ← ih]
    cases h with
    | build step => exact (onFiles_step Watched.carries_files p _ step).symm
    | files change => rfl

end Plugin

end InlineComponents
