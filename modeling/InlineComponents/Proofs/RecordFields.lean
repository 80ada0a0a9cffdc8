import Mathlib.Tactic.SplitIfs
import InlineComponents.Diagnostic.Json
import InlineComponents.Json.Reader
import InlineComponents.Proofs.Contents

theorem Except.bind_eq_ok_iff {ε α β : Type} {first : Except ε α} {next : α → Except ε β} {b : β} :
    (first >>= next) = .ok b ↔ ∃ a, first = .ok a ∧ next a = .ok b := by
  cases first <;> simp [bind, Except.bind]

theorem Except.pure_eq_ok_iff {ε α : Type} {a b : α} : (pure a : Except ε α) = .ok b ↔ a = b := by
  simp [pure, Except.pure]

namespace InlineComponents

/-- In no object is a key given twice. -/
inductive Json.HasDistinctKeys : Json → Prop where
  | null : HasDistinctKeys .null
  | bool (value : Bool) : HasDistinctKeys (.bool value)
  | number (value : Number) : HasDistinctKeys (.number value)
  | string (text : String) : HasDistinctKeys (.string text)
  | array {items : List Json} (below : ∀ item ∈ items, HasDistinctKeys item) :
    HasDistinctKeys (.array items)
  | object {fields : Fields} (nodup : (fields.map Prod.fst).Nodup)
    (below : ∀ field ∈ fields, HasDistinctKeys field.2) : HasDistinctKeys (.object fields)

/-- The fields of a record that is given as an object, or as the list of its fields in the order of
their names. -/
def Json.givenFields? (names : List String) : Json → Option Fields
  | .object fields => some fields
  | .array items => if items.length ≤ names.length then some (names.zip items) else none
  | _ => none

theorem nodup_fst_zip {names : List String} (hn : names.Nodup) (items : List Json) :
    ((names.zip items).map Prod.fst).Nodup := by
  induction names generalizing items with
  | nil => simp
  | cons name names ih =>
    obtain ⟨hname, hnames⟩ := List.nodup_cons.mp hn
    cases items with
    | nil => simp
    | cons item items =>
      refine List.nodup_cons.mpr ⟨fun hmem => ?_, ih hnames items⟩
      obtain ⟨field, hfield, rfl⟩ := List.mem_map.mp hmem
      exact hname (List.of_mem_zip hfield).1

namespace Fields

variable {fields : Fields} {key : String} {json : Json}

theorem find?_cons (field : String × Json) (fields : Fields) (key : String) :
    Fields.find? (field :: fields) key =
      if field.1 = key then some field.2 else Fields.find? fields key := by
  by_cases hk : field.1 = key <;> simp [find?, hk]

theorem find?_of_mem (hn : (fields.map Prod.fst).Nodup) (h : (key, json) ∈ fields) :
    fields.find? key = some json :=
  Table.find?_of_mem hn h

theorem mem_of_find? (h : fields.find? key = some json) : (key, json) ∈ fields :=
  Table.mem_of_find? h

theorem find?_eq_none_iff : fields.find? key = none ↔ key ∉ fields.map Prod.fst := by
  rw [find?, Option.map_eq_none_iff, List.find?_eq_none, List.mem_map]
  constructor
  · rintro h ⟨field, hfield, rfl⟩
    exact h field hfield (by simp)
  · exact fun h field hfield hk => h ⟨field, hfield, by simpa using hk⟩

theorem mem_keys_put {name : String} : name ∈ (fields.put key json).map Prod.fst ↔
    name = key ∨ name ∈ fields.map Prod.fst := by
  induction fields with
  | nil => simp [put]
  | cons field fields ih =>
    rw [put]
    split
    · next hk => simp [← hk]
    · simp only [List.map_cons, List.mem_cons, ih]
      exact or_left_comm

theorem nodup_keys_put (hn : (fields.map Prod.fst).Nodup) :
    ((fields.put key json).map Prod.fst).Nodup := by
  induction fields with
  | nil => simp [put]
  | cons field fields ih =>
    obtain ⟨hfirst, hrest⟩ := List.nodup_cons.mp hn
    rw [put]
    split
    · next hk => exact List.nodup_cons.mpr ⟨hk ▸ hfirst, hrest⟩
    · next hk =>
      refine List.nodup_cons.mpr ⟨fun hmem => ?_, ih hrest⟩
      exact (mem_keys_put.mp hmem).elim hk hfirst

theorem eq_or_mem_of_mem_put {field : String × Json} (h : field ∈ fields.put key json) :
    field = (key, json) ∨ field ∈ fields := by
  induction fields with
  | nil => exact .inl (List.mem_singleton.mp h)
  | cons first fields ih =>
    rw [put] at h
    split at h
    · rcases List.mem_cons.mp h with h | h
      · exact .inl h
      · exact .inr (List.mem_cons_of_mem first h)
    · rcases List.mem_cons.mp h with rfl | h
      · exact .inr List.mem_cons_self
      · exact (ih h).imp_right (List.mem_cons_of_mem first)

end Fields

namespace Json.HasDistinctKeys

variable {read : List Char → Except JsonFault (Json × List Char)} {s rest room : List Char}

theorem of_readItems (hread : ∀ {s rest json}, read s = .ok (json, rest) → json.HasDistinctKeys)
    {items result : List Json} (hitems : ∀ item ∈ items, item.HasDistinctKeys)
    (h : readItems read items s room = .ok (result, rest)) :
    ∀ item ∈ result, item.HasDistinctKeys := by
  induction room generalizing items s with
  | nil => cases h
  | cons _ room ih =>
    obtain ⟨next, -, hrest⟩ := Except.bind_eq_ok_iff.mp h
    cases next with
    | none =>
      cases hrest
      exact fun item hitem => hitems item (List.mem_reverse.mp hitem)
    | some t =>
      obtain ⟨⟨item, after⟩, hitem, hmore⟩ := Except.bind_eq_ok_iff.mp hrest
      exact ih (List.forall_mem_cons.mpr ⟨hread hitem, hitems⟩) hmore

theorem of_readFields (hread : ∀ {s rest json}, read s = .ok (json, rest) → json.HasDistinctKeys)
    {first : Bool} {fields result : Fields} (hfields : HasDistinctKeys (.object fields))
    (h : readFields read first fields s room = .ok (result, rest)) :
    HasDistinctKeys (.object result) := by
  induction room generalizing first fields s with
  | nil => cases h
  | cons _ room ih =>
    obtain ⟨next, -, hrest⟩ := Except.bind_eq_ok_iff.mp h
    cases next with
    | none =>
      cases hrest
      exact hfields
    | some t =>
      obtain ⟨⟨key, after⟩, -, hrest⟩ := Except.bind_eq_ok_iff.mp hrest
      obtain ⟨colon, -, hrest⟩ := Except.bind_eq_ok_iff.mp hrest
      obtain ⟨⟨value, last⟩, hvalue, hmore⟩ := Except.bind_eq_ok_iff.mp hrest
      cases hfields with
      | object hn hbelow =>
        refine ih (.object (Fields.nodup_keys_put hn) fun field hfield => ?_) hmore
        rcases Fields.eq_or_mem_of_mem_put hfield with rfl | hfield
        · exact hread hvalue
        · exact hbelow field hfield

/-- A key that a text gives twice keeps one value. -/
theorem of_readValue (depth : Nat) {json : Json} (h : readValue depth s = .ok (json, rest)) :
    json.HasDistinctKeys := by
  induction depth using Nat.strongRecOn generalizing s rest json with
  | ind depth ih =>
    unfold readValue at h
    split at h
    · cases h
    · split at h
      · next letters word _ hword =>
        obtain ⟨after, -, hrest⟩ := Except.bind_eq_ok_iff.mp h
        cases hrest
        unfold startOf at hword
        split_ifs at hword <;> cases hword
        · exact .null
        · exact .bool true
        · exact .bool false
      · obtain ⟨⟨n, after⟩, -, hrest⟩ := Except.bind_eq_ok_iff.mp h
        cases hrest
        exact .number n
      · obtain ⟨⟨n, after⟩, -, hrest⟩ := Except.bind_eq_ok_iff.mp h
        cases hrest
        exact .number n
      · obtain ⟨⟨text, after⟩, -, hrest⟩ := Except.bind_eq_ok_iff.mp h
        cases hrest
        exact .string text
      · next depth _ =>
        obtain ⟨⟨items, after⟩, hitems, hrest⟩ := Except.bind_eq_ok_iff.mp h
        cases hrest
        exact .array (of_readItems (ih (depth + 1) (by omega)) (by simp) hitems)
      · next depth _ =>
        obtain ⟨⟨fields, after⟩, hfields, hrest⟩ := Except.bind_eq_ok_iff.mp h
        cases hrest
        have hnone : HasDistinctKeys (.object []) := .object List.nodup_nil (by simp)
        exact of_readFields (ih (depth + 1) (by omega)) hnone hfields
      · cases h
      · cases h
      · cases h

end Json.HasDistinctKeys

/-- A part of what is read is told by the field of this name, and by no other. -/
structure ReadsPart {σ α : Type} (read : σ → String × Json → Shaped σ) (key : String)
    (part : σ → α) (as : Json → Shaped α) : Prop where
  here (state : σ) (json : Json) : (read state (key, json)).map part = as json
  elsewhere {state next : σ} {field : String × Json} :
    field.1 ≠ key → read state field = .ok next → part next = part state

variable {σ α : Type} {read : σ → String × Json → Shaped σ} {key : String} {part : σ → α}
  {as : Json → Shaped α} {start final : σ} {fields : Fields}

/-- A field whose value is read and put in the place of its part tells that part. -/
theorem ReadsPart.of_bind {β : Type} {value : Json → Shaped β} {put : σ → β → σ} {lift : β → α}
    (hread : ∀ state json, read state (key, json) = do pure (put state (← value json)))
    (hput : ∀ state b, part (put state b) = lift b) (has : ∀ json, (value json).map lift = as json)
    (helsewhere : ∀ {state next : σ} {field : String × Json},
      field.1 ≠ key → read state field = .ok next → part next = part state) :
    ReadsPart read key part as where
  here state json := by
    rw [hread, ← has]
    cases value json with
    | error fault => rfl
    | ok b => exact congrArg Except.ok (hput state b)
  elsewhere := helsewhere

/-- Fields are read if each of them can be read from every state. -/
theorem exists_readAll (h : ∀ field ∈ fields, ∀ state, ∃ next, read state field = .ok next)
    (start : σ) : ∃ final, readAll read start fields = .ok final := by
  induction fields generalizing start with
  | nil => exact ⟨start, rfl⟩
  | cons field fields ih =>
    obtain ⟨hfirst, hrest⟩ := List.forall_mem_cons.mp h
    obtain ⟨next, hnext⟩ := hfirst start
    obtain ⟨final, hfinal⟩ := ih hrest next
    refine ⟨final, ?_⟩
    rw [readAll, List.foldlM_cons, hnext]
    exact hfinal

/-- What is read of the fields is the one state that they tell, if there is one. -/
theorem readAll_eq_ok_iff_of_told {Told : σ → Prop}
    (hof : ∀ {final : σ}, readAll read start fields = .ok final → Told final)
    (hnext : ∀ {final : σ}, Told final →
      ∀ field ∈ fields, ∀ state, ∃ next, read state field = .ok next)
    (hunique : ∀ {final final' : σ}, Told final → Told final' → final = final') :
    readAll read start fields = .ok final ↔ Told final := by
  refine ⟨hof, fun h => ?_⟩
  obtain ⟨final', hfinal⟩ := exists_readAll (hnext h) start
  rw [hfinal, hunique (hof hfinal) h]

/-- After fields with distinct names have been read, a part is what its field tells; it is as it was
at the start if there is no such field. -/
theorem ReadsPart.of_readAll (h : ReadsPart read key part as) (hn : (fields.map Prod.fst).Nodup)
    (hr : readAll read start fields = .ok final) :
    (fields.find? key).elim (.ok (part start)) as = .ok (part final) := by
  -- The first field tells the part, and then no other does; or it leaves the part alone.
  induction fields generalizing start with
  | nil =>
    cases hr
    rfl
  | cons field fields ih =>
    obtain ⟨hfirst, hrest⟩ := List.nodup_cons.mp hn
    rw [readAll, List.foldlM_cons] at hr
    cases hread : read start field with
    | error fault =>
      rw [hread] at hr
      cases hr
    | ok next =>
      rw [hread] at hr
      have hnext := ih hrest hr
      rw [Fields.find?_cons]
      split
      · next hk =>
        rw [Fields.find?_eq_none_iff.mpr (hk ▸ hfirst)] at hnext
        have hhere := h.here start field.2
        rw [← hk, hread] at hhere
        exact hhere.symm.trans hnext
      · next hk => rwa [h.elsewhere hk hread] at hnext

/-- A field that tells a part can be read from every state. -/
theorem ReadsPart.exists_next (h : ReadsPart read key part as) (hn : (fields.map Prod.fst).Nodup)
    {field : String × Json} (hfield : field ∈ fields) (hk : field.1 = key) {absent : Shaped α}
    {value : α} (htold : (fields.find? key).elim absent as = .ok value) (state : σ) :
    ∃ next, read state field = .ok next := by
  obtain ⟨name, json⟩ := field
  obtain rfl : name = key := hk
  rw [Fields.find?_of_mem hn hfield] at htold
  have hhere := (h.here state json).trans htold
  cases hread : read state (name, json) with
  | error fault =>
    rw [hread] at hhere
    cases hhere
  | ok next => exact ⟨next, rfl⟩

end InlineComponents
