namespace InlineComponents

/-- Values by keys, each key at most once. -/
abbrev Table (κ υ : Type) : Type := List (κ × υ)

namespace Table

variable {κ υ : Type} [DecidableEq κ]

def find? (t : Table κ υ) (k : κ) : Option υ :=
  (List.find? (fun entry => entry.1 = k) t).map Prod.snd

def erase (t : Table κ υ) (k : κ) : Table κ υ :=
  t.filter fun entry => entry.1 ≠ k

def put (t : Table κ υ) (k : κ) (v : υ) : Table κ υ :=
  (k, v) :: t.erase k

/-- A value changed where it stands. -/
def modify (t : Table κ υ) (k : κ) (change : υ → υ) : Table κ υ :=
  t.map fun entry => if entry.1 = k then (entry.1, change entry.2) else entry

def keys (t : Table κ υ) : List κ :=
  t.map Prod.fst

@[simp] theorem find?_erase_self (t : Table κ υ) (k : κ) : (t.erase k).find? k = none := by
  simp [find?, erase, List.find?_eq_none]

theorem find?_erase_of_ne (t : Table κ υ) {k l : κ} (h : l ≠ k) :
    (t.erase k).find? l = t.find? l := by
  unfold find? erase
  rw [List.find?_filter]
  congr 2
  funext entry
  by_cases he : entry.1 = l <;> simp [he, h]

@[simp] theorem find?_put_self (t : Table κ υ) (k : κ) (v : υ) : (t.put k v).find? k = some v := by
  simp [find?, put]

theorem find?_put_of_ne (t : Table κ υ) {k l : κ} (v : υ) (h : l ≠ k) :
    (t.put k v).find? l = t.find? l := by
  rw [← find?_erase_of_ne t h]
  simp [find?, put, Ne.symm h]

theorem nodup_keys_erase {t : Table κ υ} (h : t.keys.Nodup) (k : κ) : (t.erase k).keys.Nodup :=
  h.sublist (List.filter_sublist.map Prod.fst)

/-- Putting a value keeps each key at most once. -/
theorem nodup_keys_put {t : Table κ υ} (h : t.keys.Nodup) (k : κ) (v : υ) :
    (t.put k v).keys.Nodup := by
  rw [put, keys, List.map_cons, List.nodup_cons]
  exact ⟨by simp [erase], nodup_keys_erase h k⟩

end Table

end InlineComponents
