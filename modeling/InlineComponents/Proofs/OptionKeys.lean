import Mathlib.Data.List.Sort
import Mathlib.Data.String.Basic
import InlineComponents.Options.Json

namespace InlineComponents

theorem Json.asStrings_strings (texts : List String) :
    (Json.strings texts).asStrings = .ok texts := by
  change (texts.map Json.string).mapM Json.asString = .ok texts
  induction texts with
  | nil => rfl
  | cons text texts ih =>
    rw [List.map_cons, List.mapM_cons, ih]
    rfl

theorem DuplicatePolicy.ofJson_name (policy : DuplicatePolicy) :
    DuplicatePolicy.ofJson (.string policy.name) = .ok policy := by
  cases policy <;> rfl

namespace Options

/-- The names of the options that are data, in the order in which they are written. -/
def dataKeys : List String :=
  ["compilerOptions", "include", "exclude", "extensions", "emitCss", "onDuplicate"]

theorem dataKeys_subset_known : dataKeys ⊆ known := by
  simp [dataKeys, known]

/-- An object is written with exactly the keys that are data. -/
theorem exists_toJson (o : Options) :
    ∃ fields, o.toJson = .object fields ∧ fields.map Prod.fst = dataKeys :=
  ⟨_, rfl, rfl⟩

theorem ofJson_toJson (o : Options) : ofJson o.toJson = .ok o := by
  simp only [toJson, ofJson, List.foldlM_cons, List.foldlM_nil, readField, Json.asFields,
    Json.asBool, Json.asStrings_strings, DuplicatePolicy.ofJson_name]
  rfl

/-- What has no meaning is passed over, whatever its value is. -/
theorem readField_of_notMem {key : String} (h : key ∉ dataKeys) (o : Options) (value : Json) :
    readField o (key, value) = .ok o := by
  simp only [dataKeys, List.mem_cons, List.not_mem_nil, or_false, not_or] at h
  unfold readField
  split <;> simp_all

theorem ofJson_insert {key : String} (h : key ∉ dataKeys) (value : Json) (before after : Fields) :
    ofJson (.object (before ++ (key, value) :: after)) = ofJson (.object (before ++ after)) := by
  have hskip (o : Options) :
      ((key, value) :: after).foldlM readField o = after.foldlM readField o := by
    rw [List.foldlM_cons, readField_of_notMem h]
    rfl
  simp only [ofJson, List.foldlM_append, hskip]

theorem mem_unrecognized {fields : Fields} {name : String} :
    name ∈ unrecognized (.object fields) ↔ name ∈ fields.map Prod.fst ∧ name ∉ known := by
  rw [unrecognized, List.mem_mergeSort, List.mem_filter, decide_eq_true_iff]

theorem unrecognized_pairwise {fields : Fields} (hn : (fields.map Prod.fst).Nodup) :
    (unrecognized (.object fields)).Pairwise (· < ·) := by
  have hsorted : (unrecognized (.object fields)).Pairwise (· ≤ ·) := by
    simpa [unrecognized] using List.pairwise_mergeSort' (· ≤ ·) _
  have hdistinct : (unrecognized (.object fields)).Nodup :=
    (List.mergeSort_perm _ _).nodup_iff.mpr (hn.filter _)
  exact hsorted.imp₂ (fun _ _ => lt_of_le_of_ne) hdistinct

theorem read_toJson (o : Options) : read o.toJson = ([], .ok o) := by
  obtain ⟨fields, hfields, hkeys⟩ := o.exists_toJson
  have hnone : unrecognized o.toJson = [] := by
    rw [hfields, List.eq_nil_iff_forall_not_mem]
    rintro name hname
    obtain ⟨hmem, hunknown⟩ := mem_unrecognized.mp hname
    exact hunknown (dataKeys_subset_known (hkeys ▸ hmem))
  rw [read, hnone, ofJson_toJson]
  rfl

/-- Options are read back from what is written of them. A key that is no data has no part in what is
read or in why nothing is; and of the keys that have no meaning each is told once, in ascending
order, whether the options can be read or not. -/
theorem read_foreign_keys :
    (∀ o : Options, read o.toJson = ([], .ok o)) ∧
      (∀ key, key ∉ dataKeys → ∀ (value : Json) (before after : Fields),
        (read (.object (before ++ (key, value) :: after))).2 =
            (read (.object (before ++ after))).2 ∧
          ∀ other : Json, (read (.object (before ++ (key, value) :: after))).2 =
            (read (.object (before ++ (key, other) :: after))).2) ∧
      ∀ fields : Fields, (fields.map Prod.fst).Nodup → ∃ names : List String,
        (read (.object fields)).1 = names.map .optionUnrecognized ∧ names.Pairwise (· < ·) ∧
          (∀ name, name ∈ names ↔ name ∈ fields.map Prod.fst ∧ name ∉ known) ∧
          ∀ event ∈ (read (.object fields)).1, event.level = .warn := by
  refine ⟨read_toJson, fun key hkey value before after => ?_, fun fields hn => ?_⟩
  · have hread (value : Json) : (read (.object (before ++ (key, value) :: after))).2 =
        (read (.object (before ++ after))).2 :=
      congrArg (Except.mapError Failure.invalidOptions) (ofJson_insert hkey value before after)
    exact ⟨hread value, fun other => (hread value).trans (hread other).symm⟩
  · refine ⟨_, rfl, unrecognized_pairwise hn, fun _ => mem_unrecognized, fun event hevent => ?_⟩
    obtain ⟨name, -, rfl⟩ := List.mem_map.mp hevent
    rfl

/-- The options are refused, and both keys of no meaning are told nevertheless. -/
theorem read_foreign_keys_refused :
    let fields : Fields := [("wide", .bool true), ("include", .null), ("preprocess", .null),
      ("dark", .null)]
    (read (.object fields)).2 = .error (.invalidOptions (.shape (.wrongType .null "a sequence"))) ∧
      (read (.object fields)).2 =
        (read (.object [("include", .null), ("preprocess", .null), ("dark", .null)])).2 ∧
      ∃ names : List String, (read (.object fields)).1 = names.map .optionUnrecognized ∧
        names.Pairwise (· < ·) ∧
        ∀ name, name ∈ names ↔ name = "wide" ∨ name = "dark" := by
  intro fields
  obtain ⟨-, hforeign, hwarned⟩ := read_foreign_keys
  obtain ⟨names, hnames, hsorted, hmem, -⟩ := hwarned fields (by decide)
  refine ⟨rfl, (hforeign "wide" (by decide) (.bool true) [] _).1, names, hnames, hsorted, ?_⟩
  intro name
  rw [hmem]
  constructor
  · rintro ⟨hkey, hunknown⟩
    simp only [fields, List.map_cons, List.map_nil, List.mem_cons, List.not_mem_nil,
      or_false] at hkey
    rcases hkey with rfl | rfl | rfl | rfl
    · exact .inl rfl
    · exact absurd (by decide) hunknown
    · exact absurd (by decide) hunknown
    · exact .inr rfl
  · rintro (rfl | rfl) <;> decide

end Options

end InlineComponents
