import InlineComponents.FileSystem.Faults
import InlineComponents.FileSystem.Memory

namespace InlineComponents

namespace Table

variable {κ υ : Type} [DecidableEq κ]

theorem find?_put (t : Table κ υ) (k l : κ) (v : υ) :
    (t.put k v).find? l = if l = k then some v else t.find? l := by
  split
  · next h => rw [h, find?_put_self]
  · next h => exact find?_put_of_ne t v h

theorem put_put (t : Table κ υ) (k : κ) (v w : υ) : (t.put k v).put k w = t.put k w := by
  simp [put, erase]

theorem find?_erase (t : Table κ υ) (k l : κ) :
    (t.erase k).find? l = if l = k then none else t.find? l := by
  split
  · next h => rw [h, find?_erase_self]
  · next h => exact find?_erase_of_ne t h

theorem mem_of_find? {t : Table κ υ} {k : κ} {v : υ} (h : t.find? k = some v) : (k, v) ∈ t := by
  obtain ⟨entry, he, rfl⟩ := Option.map_eq_some_iff.mp h
  have hk : entry.1 = k := by simpa using List.find?_some he
  rw [← hk]
  exact List.mem_of_find?_eq_some he

/-- Where keys are there once, a look-up finds every entry. -/
theorem find?_of_mem {t : Table κ υ} (hn : t.keys.Nodup) {k : κ} {v : υ} (h : (k, v) ∈ t) :
    t.find? k = some v := by
  induction t with
  | nil => simp at h
  | cons entry t ih =>
    obtain ⟨hfirst, hrest⟩ := List.nodup_cons.mp hn
    rcases List.mem_cons.mp h with rfl | h
    · simp [find?]
    · have hne : entry.1 ≠ k := by
        rintro rfl
        exact hfirst (List.mem_map.mpr ⟨_, h, rfl⟩)
      have hfind := ih hrest h
      rw [find?] at hfind ⊢
      rwa [List.find?_cons_of_neg (by simpa using hne)]

end Table

/-- Files that have one content or none at each cleaned path. A write that succeeds sets the one at
its path, a write that fails sets none, and a removal is about its own path alone. -/
class LawfulFileSystem (σ : Type) [FileSystem σ] where
  content : σ → Path → Option ByteArray
  content_write : ∀ (files : σ) (path : Path) (body : ByteArray) (key : Path),
    content (FileSystem.write files path body).2 key =
      match (FileSystem.write files path body).1 with
      | .ok () => if key = path.clean then some body else content files key
      | .error _ => content files key
  content_remove : ∀ (files : σ) (path key : Path), key ≠ path.clean →
    content (FileSystem.remove files path).2 key = content files key

namespace Memory

/-- A file that is to be removed is gone, whether or not it was there. -/
theorem find?_remove (m : Memory) (path key : Path) :
    (m.remove path).2.files.find? key = if key = path.clean then none else m.files.find? key := by
  unfold remove contents
  split
  · exact Table.find?_erase m.files path.clean key
  · next h =>
    split
    · next hk => rw [hk, h]
    · rfl

instance : LawfulFileSystem Memory where
  content m key := m.files.find? key
  content_write m path body key := by
    show (m.write path body).2.files.find? key =
      match (m.write path body).1 with
      | .ok () => if key = path.clean then some body else m.files.find? key
      | .error _ => m.files.find? key
    unfold write
    split
    · rfl
    · exact Table.find?_put m.files path.clean key body
  content_remove m path key h := (find?_remove m path key).trans (if_neg h)

end Memory

namespace Faulty

variable {σ : Type} [FileSystem σ] [LawfulFileSystem σ]

instance : LawfulFileSystem (Faulty σ) where
  content f key := LawfulFileSystem.content f.files key
  content_write f path body key := by
    show LawfulFileSystem.content (f.write path body).2.files key =
      match (f.write path body).1 with
      | .ok () => if key = path.clean then some body else LawfulFileSystem.content f.files key
      | .error _ => LawfulFileSystem.content f.files key
    unfold write
    split
    · rfl
    · exact LawfulFileSystem.content_write f.files path body key
  content_remove f path key h := by
    show LawfulFileSystem.content (f.remove path).2.files key =
      LawfulFileSystem.content f.files key
    unfold remove
    split
    · rfl
    · exact LawfulFileSystem.content_remove f.files path key h

end Faulty

end InlineComponents
