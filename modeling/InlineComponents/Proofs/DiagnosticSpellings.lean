import InlineComponents.Proofs.RecordFields

namespace InlineComponents

/-- A name is given as a text, or as the only key of an object that holds `null`. -/
inductive Json.Names (name : String) : Json → Prop where
  | text : Names name (.string name)
  | key : Names name (.object [(name, .null)])

/-- A value that may be absent is given by nothing or by `null` if it is absent. -/
def GivenOptionally {α : Type} (spelled : α → Json → Prop) : Option α → Option Json → Prop
  | none, given => given = none ∨ given = some .null
  | some a, given => ∃ json, given = some json ∧ spelled a json

section Readers

variable {α : Type} {json : Json}

theorem Json.asString_eq_ok_iff {text : String} :
    json.asString = .ok text ↔ json = .string text := by
  cases json <;> simp [asString]

theorem Json.asUInt32_eq_ok_iff {n : UInt32} : json.asUInt32 = .ok n ↔ json = .ofNat n.toNat := by
  constructor
  · intro h
    unfold asUInt32 at h
    split at h
    · next value =>
      split at h
      · next hrange =>
        obtain ⟨hlow, hhigh⟩ : 0 ≤ value ∧ value < UInt32.size := by simpa using hrange
        obtain rfl := Except.ok.inj h
        rw [UInt32.toNat_ofNat_of_lt' (by omega), ofNat, Int.toNat_of_nonneg hlow]
      · cases h
    · cases h
  · rintro rfl
    have hlt := n.toNat_lt
    rw [ofNat, asUInt32, if_pos (by simp [UInt32.size]; omega)]
    simp

theorem Json.asChoice_eq_ok_iff {first second : String × α} (hne : first.1 ≠ second.1) {a : α} :
    Json.asChoice first second json = .ok a ↔
      (first.2 = a ∧ json.Names first.1) ∨ (second.2 = a ∧ json.Names second.1) := by
  have hchoose (name : String) : asChoice.choose first second name = .ok a ↔
      (first.2 = a ∧ name = first.1) ∨ (second.2 = a ∧ name = second.1) := by
    rw [asChoice.choose]
    split
    · next hf =>
      subst hf
      simp [hne]
    · next hf =>
      split
      · next hs => simp [hs, Ne.symm hne]
      · next hs => simp [hf, hs]
  constructor
  · intro h
    unfold asChoice at h
    split at h
    · next name =>
      rcases (hchoose name).mp h with ⟨ha, rfl⟩ | ⟨ha, rfl⟩
      · exact .inl ⟨ha, .text⟩
      · exact .inr ⟨ha, .text⟩
    · next name value =>
      cases hc : asChoice.choose first second name with
      | error fault =>
        rw [hc] at h
        cases h
      | ok choice =>
        rw [hc] at h
        cases value with
        | null =>
          obtain rfl := Except.ok.inj h
          rcases (hchoose name).mp hc with ⟨ha, rfl⟩ | ⟨ha, rfl⟩
          · exact .inl ⟨ha, .key⟩
          · exact .inr ⟨ha, .key⟩
        | _ => cases h
    · cases h
    · cases h
  · have hspelled (name : String) (hc : asChoice.choose first second name = .ok a)
        (hn : json.Names name) : asChoice first second json = .ok a := by
      cases hn with
      | text => exact hc
      | key =>
        unfold asChoice
        dsimp only
        rw [hc]
        rfl
    rintro (⟨ha, hn⟩ | ⟨ha, hn⟩)
    · exact hspelled _ ((hchoose _).mpr (.inl ⟨ha, rfl⟩)) hn
    · exact hspelled _ ((hchoose _).mpr (.inr ⟨ha, rfl⟩)) hn

theorem Json.asOptional_eq_ok_iff {as : Json → Shaped α} {spelled : α → Json → Prop}
    (has : ∀ a, as json = .ok a ↔ spelled a json) (hnull : ∀ a, ¬ spelled a .null)
    {value : Option α} :
    Json.asOptional as json = .ok value ↔ GivenOptionally spelled value (some json) := by
  unfold asOptional
  split
  · cases value with
    | none => simp [GivenOptionally]
    | some a => simp [GivenOptionally, hnull]
  · next hjson =>
    have hne : json ≠ .null := hjson
    cases value with
    | none => cases as json <;> simp [GivenOptionally, Except.map, hne]
    | some a => cases ha : as json <;> simp [GivenOptionally, Except.map, ← has, ha]

/-- The part that a field tells where it must be there, or nothing where it is not. -/
def toldBy (as : Json → Shaped α) (given : Option Json) : Shaped (Option α) :=
  given.elim (.ok none) fun json => (as json).map some

theorem toldBy_eq_ok_some_iff {as : Json → Shaped α} {given : Option Json} {a : α} :
    toldBy as given = .ok (some a) ↔ ∃ json, given = some json ∧ as json = .ok a := by
  cases given with
  | none => simp [toldBy]
  | some json => cases ha : as json <;> simp [toldBy, Except.map, ha]

theorem toldBy_eq_ok_none_iff {as : Json → Shaped α} {given : Option Json} :
    toldBy as given = .ok none ↔ given = none := by
  cases given with
  | none => simp [toldBy]
  | some json => cases ha : as json <;> simp [toldBy, Except.map, ha]

theorem allRead_eq_ok_iff {items rest : List Json} {u : Unit} :
    allRead items rest = .ok u ↔ rest = [] := by
  rw [allRead]
  split <;> simp_all

/-- A part that may be absent is told by a field that can be read, or by none. -/
theorem elim_asOptional_eq_ok_iff {as : Json → Shaped α} {spelled : α → Json → Prop}
    {given : Option Json} (has : ∀ json, given = some json → ∀ a, as json = .ok a ↔ spelled a json)
    (hnull : ∀ a, ¬ spelled a .null) {value : Option α} :
    given.elim (.ok none) (Json.asOptional as) = .ok value ↔
      GivenOptionally spelled value given := by
  cases given with
  | none => cases value <;> simp [GivenOptionally]
  | some json => exact Json.asOptional_eq_ok_iff (has json rfl) hnull

end Readers

/-- A severity is given by its name. -/
def Severity.SpelledBy (s : Severity) : Json → Prop :=
  Json.Names s.name

theorem Severity.ofJson_eq_ok_iff {json : Json} {s : Severity} :
    Severity.ofJson json = .ok s ↔ s.SpelledBy json := by
  rw [ofJson, Json.asChoice_eq_ok_iff (by decide)]
  cases s <;> simp [SpelledBy, name]

namespace Position

/-- The field names in the order of a position given as a list. -/
def fieldNames : List String :=
  ["line", "column", "character"]

/-- The fields that tell a position; the offset may be left out if it is zero. -/
structure GivenBy (p : Position) (fields : Fields) : Prop where
  line : fields.find? "line" = some (.ofNat p.line.toNat)
  column : fields.find? "column" = some (.ofNat p.column.toNat)
  character : fields.find? "character" = some (.ofNat p.character.toNat) ∨
    fields.find? "character" = none ∧ p.character = 0

def SpelledBy (p : Position) (json : Json) : Prop :=
  ∃ fields, json.givenFields? fieldNames = some fields ∧ p.GivenBy fields

namespace Draft

/-- A field tells the part of its name only. -/
theorem frame_read {state next : Draft} {field : String × Json} (h : state.read field = .ok next) :
    (field.1 ≠ "line" → next.line = state.line) ∧
      (field.1 ≠ "column" → next.column = state.column) ∧
      (field.1 ≠ "character" → next.character = state.character) := by
  unfold read at h
  split at h
  · cases hv : field.2.asUInt32 <;> rw [hv] at h <;> cases h
    simp_all
  · cases hv : field.2.asUInt32 <;> rw [hv] at h <;> cases h
    simp_all
  · cases hv : field.2.asUInt32 <;> rw [hv] at h <;> cases h
    simp_all
  · cases h
    simp

theorem readsPart_line :
    ReadsPart Draft.read "line" Draft.line fun json => json.asUInt32.map some :=
  .of_bind (fun _ _ => rfl) (fun _ _ => rfl) (fun _ => rfl) fun hk h => (frame_read h).1 hk

theorem readsPart_column :
    ReadsPart Draft.read "column" Draft.column fun json => json.asUInt32.map some :=
  .of_bind (fun _ _ => rfl) (fun _ _ => rfl) (fun _ => rfl) fun hk h => (frame_read h).2.1 hk

theorem readsPart_character :
    ReadsPart Draft.read "character" Draft.character fun json => json.asUInt32.map some :=
  .of_bind (fun _ _ => rfl) (fun _ _ => rfl) (fun _ => rfl) fun hk h => (frame_read h).2.2 hk

theorem finish_eq_ok_iff {draft : Draft} {p : Position} : draft.finish = .ok p ↔
    draft.line = some p.line ∧ draft.column = some p.column ∧
      draft.character.getD 0 = p.character := by
  obtain ⟨line, column, character⟩ := draft
  obtain ⟨line', column', character'⟩ := p
  cases line <;> cases column <;>
    simp [finish, required, bind, Except.bind, pure, Except.pure]

theorem read_of_notMem {field : String × Json} (h : field.1 ∉ fieldNames) (state : Draft) :
    state.read field = .ok state := by
  simp only [fieldNames, List.mem_cons, List.not_mem_nil, or_false, not_or] at h
  unfold read
  split <;> simp_all

/-- A draft after these fields have been read. -/
structure ToldBy (draft : Draft) (fields : Fields) : Prop where
  line : toldBy Json.asUInt32 (fields.find? "line") = .ok draft.line
  column : toldBy Json.asUInt32 (fields.find? "column") = .ok draft.column
  character : toldBy Json.asUInt32 (fields.find? "character") = .ok draft.character

variable {fields : Fields}

theorem ToldBy.of_readAll (hn : (fields.map Prod.fst).Nodup) {draft : Draft}
    (h : readAll Draft.read {} fields = .ok draft) : draft.ToldBy fields where
  line := readsPart_line.of_readAll hn h
  column := readsPart_column.of_readAll hn h
  character := readsPart_character.of_readAll hn h

theorem ToldBy.exists_next (hn : (fields.map Prod.fst).Nodup) {draft : Draft}
    (h : draft.ToldBy fields) (field : String × Json) (hfield : field ∈ fields) (state : Draft) :
    ∃ next, state.read field = .ok next := by
  by_cases hknown : field.1 ∈ fieldNames
  · simp only [fieldNames, List.mem_cons, List.not_mem_nil, or_false] at hknown
    rcases hknown with hk | hk | hk
    · exact readsPart_line.exists_next hn hfield hk h.line state
    · exact readsPart_column.exists_next hn hfield hk h.column state
    · exact readsPart_character.exists_next hn hfield hk h.character state
  · exact ⟨state, read_of_notMem hknown state⟩

theorem ToldBy.unique {draft draft' : Draft} (h : draft.ToldBy fields)
    (h' : draft'.ToldBy fields) : draft = draft' := by
  have hline := h.line.symm.trans h'.line
  have hcolumn := h.column.symm.trans h'.column
  have hcharacter := h.character.symm.trans h'.character
  cases draft
  cases draft'
  simp_all

theorem readAll_eq_ok_iff (hn : (fields.map Prod.fst).Nodup) {draft : Draft} :
    readAll Draft.read {} fields = .ok draft ↔ draft.ToldBy fields :=
  readAll_eq_ok_iff_of_told (ToldBy.of_readAll hn) (ToldBy.exists_next hn) ToldBy.unique

theorem exists_toldBy_finish_iff {p : Position} :
    (∃ draft : Draft, draft.ToldBy fields ∧ draft.finish = .ok p) ↔ p.GivenBy fields := by
  constructor
  · rintro ⟨draft, htold, hfinish⟩
    obtain ⟨hline, hcolumn, hcharacter⟩ := finish_eq_ok_iff.mp hfinish
    have hgiven {key : String} {n : UInt32}
        (h : toldBy Json.asUInt32 (fields.find? key) = .ok (some n)) :
        fields.find? key = some (.ofNat n.toNat) := by
      obtain ⟨json, hjson, hn⟩ := toldBy_eq_ok_some_iff.mp h
      rw [hjson, Json.asUInt32_eq_ok_iff.mp hn]
    refine ⟨hgiven (hline ▸ htold.line), hgiven (hcolumn ▸ htold.column), ?_⟩
    have hoffset := htold.character
    cases hc : draft.character with
    | none =>
      rw [hc] at hoffset hcharacter
      exact .inr ⟨toldBy_eq_ok_none_iff.mp hoffset, hcharacter.symm⟩
    | some n =>
      rw [hc] at hoffset hcharacter
      exact .inl (hcharacter ▸ hgiven hoffset)
  · intro h
    have htold {key : String} {n : UInt32} (h : fields.find? key = some (.ofNat n.toNat)) :
        toldBy Json.asUInt32 (fields.find? key) = .ok (some n) :=
      toldBy_eq_ok_some_iff.mpr ⟨_, h, Json.asUInt32_eq_ok_iff.mpr rfl⟩
    rcases h.character with hcharacter | ⟨hcharacter, hzero⟩
    · exact ⟨⟨some p.line, some p.column, some p.character⟩,
        ⟨htold h.line, htold h.column, htold hcharacter⟩, rfl⟩
    · refine ⟨⟨some p.line, some p.column, none⟩,
        ⟨htold h.line, htold h.column, toldBy_eq_ok_none_iff.mpr hcharacter⟩, ?_⟩
      exact finish_eq_ok_iff.mpr ⟨rfl, rfl, hzero.symm⟩

end Draft

theorem readAll_finish_eq_ok_iff {fields : Fields} (hn : (fields.map Prod.fst).Nodup)
    {p : Position} :
    (do (← readAll Draft.read {} fields).finish) = .ok p ↔ p.GivenBy fields := by
  rw [Except.bind_eq_ok_iff, ← Draft.exists_toldBy_finish_iff]
  simp only [Draft.readAll_eq_ok_iff hn]

theorem givenBy_iff {p : Position} {fields : Fields} : p.GivenBy fields ↔
    fields.find? "line" = some (.ofNat p.line.toNat) ∧
      fields.find? "column" = some (.ofNat p.column.toNat) ∧
      (fields.find? "character" = some (.ofNat p.character.toNat) ∨
        fields.find? "character" = none ∧ p.character = 0) :=
  ⟨fun h => ⟨h.line, h.column, h.character⟩, fun h => ⟨h.1, h.2.1, h.2.2⟩⟩

/-- The list of a position is read as the fields that it stands for. -/
theorem ofJson_array_eq_ok_iff {items : List Json} {p : Position} :
    Position.ofJson (.array items) = .ok p ↔
      items.length ≤ fieldNames.length ∧ p.GivenBy (fieldNames.zip items) := by
  obtain ⟨l, c, o⟩ := p
  rw [givenBy_iff]
  match items with
  | [] => simp [ofJson, fieldNames, Fields.find?]
  | [line] =>
    have hread : Position.ofJson (.array [line]) =
        (do let _ ← line.asUInt32; throw (tooShort 1)) := rfl
    have hthrow : (throw (tooShort 1) : Shaped Position) = .error (tooShort 1) := rfl
    rw [hread, Except.bind_eq_ok_iff, hthrow]
    simp [fieldNames, Fields.find?]
  | [line, column] =>
    have hread : Position.ofJson (.array [line, column]) =
        (do pure ⟨← line.asUInt32, ← column.asUInt32, 0⟩) := rfl
    simp only [hread, Except.bind_eq_ok_iff, Except.pure_eq_ok_iff, Json.asUInt32_eq_ok_iff]
    constructor
    · rintro ⟨l', hl, c', hc, he⟩
      cases he
      simp [fieldNames, Fields.find?, hl, hc]
    · intro h
      obtain ⟨hl, hc, ho⟩ : line = .ofNat l.toNat ∧ column = .ofNat c.toNat ∧ o = 0 := by
        simpa [fieldNames, Fields.find?] using h
      exact ⟨l, hl, c, hc, by rw [ho]⟩
  | line :: column :: character :: rest =>
    have hread : Position.ofJson (.array (line :: column :: character :: rest)) =
        (do
          let position : Position :=
            ⟨← line.asUInt32, ← column.asUInt32, ← character.asUInt32⟩
          allRead (line :: column :: character :: rest) rest
          pure position) := rfl
    simp only [hread, Except.bind_eq_ok_iff, Except.pure_eq_ok_iff, Json.asUInt32_eq_ok_iff,
      allRead_eq_ok_iff]
    constructor
    · rintro ⟨l', hl, c', hc, o', ho, -, hrest, he⟩
      cases he
      simp [fieldNames, Fields.find?, hl, hc, ho, hrest]
    · rintro ⟨hlength, hgiven⟩
      have hrest : rest = [] := by
        refine List.length_eq_zero_iff.mp ?_
        simp only [fieldNames, List.length_cons, List.length_nil] at hlength
        omega
      obtain ⟨hl, hc, ho⟩ : line = .ofNat l.toNat ∧ column = .ofNat c.toNat ∧
          character = .ofNat o.toNat := by
        simpa [fieldNames, Fields.find?] using hgiven
      exact ⟨l, hl, c, hc, o, ho, (), hrest, rfl⟩

theorem ofJson_eq_ok_iff {json : Json} (hj : json.HasDistinctKeys) {p : Position} :
    Position.ofJson json = .ok p ↔ p.SpelledBy json := by
  cases hj with
  | object hn below => simp [ofJson, readAll_finish_eq_ok_iff hn, SpelledBy, Json.givenFields?]
  | array below =>
    rw [ofJson_array_eq_ok_iff]
    simp [SpelledBy, Json.givenFields?, and_assoc]
  | _ => simp [ofJson, SpelledBy, Json.givenFields?]

theorem not_spelledBy_null (p : Position) : ¬ p.SpelledBy .null := by
  simp [SpelledBy, Json.givenFields?]

theorem toJson_hasDistinctKeys (p : Position) : p.toJson.HasDistinctKeys := by
  have hnumber (n : Nat) : (Json.ofNat n).HasDistinctKeys := .number _
  exact .object (by simp) (by simp [hnumber])

theorem spelledBy_toJson (p : Position) : p.SpelledBy p.toJson :=
  ⟨_, rfl, rfl, rfl, .inl rfl⟩

end Position

namespace Diagnostic

/-- The fields that tell a diagnostic; what it does not have is left out, or given as `null`. -/
structure GivenBy (d : Diagnostic) (fields : Fields) : Prop where
  severity : ∃ json, fields.find? "severity" = some json ∧ d.severity.SpelledBy json
  code : fields.find? "code" = some (.string d.code)
  message : fields.find? "message" = some (.string d.message)
  filename : GivenOptionally (fun text json => json = .string text) d.filename
    (fields.find? "filename")
  start : GivenOptionally Position.SpelledBy d.start (fields.find? "start")
  stop : GivenOptionally Position.SpelledBy d.stop (fields.find? "end")
  frame : GivenOptionally (fun text json => json = .string text) d.frame (fields.find? "frame")

def SpelledBy (d : Diagnostic) (json : Json) : Prop :=
  ∃ fields, json.givenFields? fieldNames = some fields ∧ d.GivenBy fields

namespace Draft

/-- A field tells the part of its name only. -/
theorem frame_read {state next : Draft} {field : String × Json}
    (h : state.read field = .ok next) :
    (field.1 ≠ "severity" → next.severity = state.severity) ∧
      (field.1 ≠ "code" → next.code = state.code) ∧
      (field.1 ≠ "message" → next.message = state.message) ∧
      (field.1 ≠ "filename" → next.filename = state.filename) ∧
      (field.1 ≠ "start" → next.start = state.start) ∧
      (field.1 ≠ "end" → next.stop = state.stop) ∧
      (field.1 ≠ "frame" → next.frame = state.frame) := by
  unfold read at h
  split at h
  case h_8 =>
    cases h
    simp
  all_goals
    obtain ⟨value, -, hnext⟩ := Except.bind_eq_ok_iff.mp h
    obtain rfl := Except.pure_eq_ok_iff.mp hnext
    simp_all

theorem readsPart_severity :
    ReadsPart read "severity" Draft.severity fun json => (Severity.ofJson json).map some :=
  .of_bind (fun _ _ => rfl) (fun _ _ => rfl) (fun _ => rfl) fun hk h => (frame_read h).1 hk

theorem readsPart_code :
    ReadsPart read "code" Draft.code fun json => json.asString.map some :=
  .of_bind (fun _ _ => rfl) (fun _ _ => rfl) (fun _ => rfl) fun hk h => (frame_read h).2.1 hk

theorem readsPart_message :
    ReadsPart read "message" Draft.message fun json => json.asString.map some :=
  .of_bind (fun _ _ => rfl) (fun _ _ => rfl) (fun _ => rfl) fun hk h => (frame_read h).2.2.1 hk

theorem readsPart_filename :
    ReadsPart read "filename" Draft.filename (Json.asOptional Json.asString) :=
  .of_bind (fun _ _ => rfl) (fun _ _ => rfl) (fun _ => congrFun Except.map_id _)
    fun hk h => (frame_read h).2.2.2.1 hk

theorem readsPart_start :
    ReadsPart read "start" Draft.start (Json.asOptional Position.ofJson) :=
  .of_bind (fun _ _ => rfl) (fun _ _ => rfl) (fun _ => congrFun Except.map_id _)
    fun hk h => (frame_read h).2.2.2.2.1 hk

theorem readsPart_stop :
    ReadsPart read "end" Draft.stop (Json.asOptional Position.ofJson) :=
  .of_bind (fun _ _ => rfl) (fun _ _ => rfl) (fun _ => congrFun Except.map_id _)
    fun hk h => (frame_read h).2.2.2.2.2.1 hk

theorem readsPart_frame :
    ReadsPart read "frame" Draft.frame (Json.asOptional Json.asString) :=
  .of_bind (fun _ _ => rfl) (fun _ _ => rfl) (fun _ => congrFun Except.map_id _)
    fun hk h => (frame_read h).2.2.2.2.2.2 hk

theorem read_of_notMem {field : String × Json} (h : field.1 ∉ fieldNames) (state : Draft) :
    state.read field = .ok state := by
  simp only [fieldNames, List.mem_cons, List.not_mem_nil, or_false, not_or] at h
  unfold read
  split <;> simp_all

/-- A draft after these fields have been read. -/
structure ToldBy (draft : Draft) (fields : Fields) : Prop where
  severity : toldBy Severity.ofJson (fields.find? "severity") = .ok draft.severity
  code : toldBy Json.asString (fields.find? "code") = .ok draft.code
  message : toldBy Json.asString (fields.find? "message") = .ok draft.message
  filename : (fields.find? "filename").elim (.ok none) (Json.asOptional Json.asString) =
    .ok draft.filename
  start : (fields.find? "start").elim (.ok none) (Json.asOptional Position.ofJson) =
    .ok draft.start
  stop : (fields.find? "end").elim (.ok none) (Json.asOptional Position.ofJson) = .ok draft.stop
  frame : (fields.find? "frame").elim (.ok none) (Json.asOptional Json.asString) = .ok draft.frame

variable {fields : Fields}

theorem ToldBy.of_readAll (hn : (fields.map Prod.fst).Nodup) {draft : Draft}
    (h : readAll Draft.read {} fields = .ok draft) : draft.ToldBy fields where
  severity := readsPart_severity.of_readAll hn h
  code := readsPart_code.of_readAll hn h
  message := readsPart_message.of_readAll hn h
  filename := readsPart_filename.of_readAll hn h
  start := readsPart_start.of_readAll hn h
  stop := readsPart_stop.of_readAll hn h
  frame := readsPart_frame.of_readAll hn h

theorem ToldBy.exists_next (hn : (fields.map Prod.fst).Nodup) {draft : Draft}
    (h : draft.ToldBy fields) (field : String × Json) (hfield : field ∈ fields) (state : Draft) :
    ∃ next, state.read field = .ok next := by
  by_cases hknown : field.1 ∈ fieldNames
  · simp only [fieldNames, List.mem_cons, List.not_mem_nil, or_false] at hknown
    rcases hknown with hk | hk | hk | hk | hk | hk | hk
    · exact readsPart_severity.exists_next hn hfield hk h.severity state
    · exact readsPart_code.exists_next hn hfield hk h.code state
    · exact readsPart_message.exists_next hn hfield hk h.message state
    · exact readsPart_filename.exists_next hn hfield hk h.filename state
    · exact readsPart_start.exists_next hn hfield hk h.start state
    · exact readsPart_stop.exists_next hn hfield hk h.stop state
    · exact readsPart_frame.exists_next hn hfield hk h.frame state
  · exact ⟨state, read_of_notMem hknown state⟩

theorem ToldBy.unique {draft draft' : Draft} (h : draft.ToldBy fields)
    (h' : draft'.ToldBy fields) : draft = draft' := by
  have hseverity := h.severity.symm.trans h'.severity
  have hcode := h.code.symm.trans h'.code
  have hmessage := h.message.symm.trans h'.message
  have hfilename := h.filename.symm.trans h'.filename
  have hstart := h.start.symm.trans h'.start
  have hstop := h.stop.symm.trans h'.stop
  have hframe := h.frame.symm.trans h'.frame
  cases draft
  cases draft'
  simp_all

theorem readAll_eq_ok_iff (hn : (fields.map Prod.fst).Nodup) {draft : Draft} :
    readAll Draft.read {} fields = .ok draft ↔ draft.ToldBy fields :=
  readAll_eq_ok_iff_of_told (ToldBy.of_readAll hn) (ToldBy.exists_next hn) ToldBy.unique

theorem finish_eq_ok_iff {draft : Draft} {d : Diagnostic} : draft.finish = .ok d ↔
    draft.severity = some d.severity ∧ draft.code = some d.code ∧
      draft.message = some d.message ∧ draft.filename = d.filename ∧ draft.start = d.start ∧
      draft.stop = d.stop ∧ draft.frame = d.frame := by
  obtain ⟨severity, code, message, filename, start, stop, frame⟩ := draft
  obtain ⟨severity', code', message', filename', start', stop', frame'⟩ := d
  cases severity <;> cases code <;> cases message <;>
    simp [finish, required, bind, Except.bind, pure, Except.pure]

theorem exists_toldBy_finish_iff (hbelow : ∀ field ∈ fields, field.2.HasDistinctKeys)
    {d : Diagnostic} :
    (∃ draft : Draft, draft.ToldBy fields ∧ draft.finish = .ok d) ↔ d.GivenBy fields := by
  have htext {key : String} {text : String} :
      toldBy Json.asString (fields.find? key) = .ok (some text) ↔
        fields.find? key = some (.string text) := by
    simp [toldBy_eq_ok_some_iff, Json.asString_eq_ok_iff]
  have htext? {key : String} {text? : Option String} :
      (fields.find? key).elim (.ok none) (Json.asOptional Json.asString) = .ok text? ↔
        GivenOptionally (fun text json => json = .string text) text? (fields.find? key) :=
    elim_asOptional_eq_ok_iff (fun _ _ _ => Json.asString_eq_ok_iff) (by simp)
  have hplace? {key : String} {p? : Option Position} :
      (fields.find? key).elim (.ok none) (Json.asOptional Position.ofJson) = .ok p? ↔
        GivenOptionally Position.SpelledBy p? (fields.find? key) := by
    refine elim_asOptional_eq_ok_iff (fun json hjson _ => ?_) Position.not_spelledBy_null
    exact Position.ofJson_eq_ok_iff (hbelow _ (Fields.mem_of_find? hjson))
  constructor
  · rintro ⟨draft, htold, hfinish⟩
    obtain ⟨hs, hc, hm, hfile, hstart, hstop, hframe⟩ := finish_eq_ok_iff.mp hfinish
    have hseverity := toldBy_eq_ok_some_iff.mp (hs ▸ htold.severity)
    exact {
      severity := by simpa only [Severity.ofJson_eq_ok_iff] using hseverity
      code := htext.mp (hc ▸ htold.code)
      message := htext.mp (hm ▸ htold.message)
      filename := htext?.mp (hfile ▸ htold.filename)
      start := hplace?.mp (hstart ▸ htold.start)
      stop := hplace?.mp (hstop ▸ htold.stop)
      frame := htext?.mp (hframe ▸ htold.frame) }
  · intro h
    refine ⟨⟨some d.severity, some d.code, some d.message, d.filename, d.start, d.stop, d.frame⟩,
      { severity := ?_, code := htext.mpr h.code, message := htext.mpr h.message,
        filename := htext?.mpr h.filename, start := hplace?.mpr h.start,
        stop := hplace?.mpr h.stop, frame := htext?.mpr h.frame }, rfl⟩
    obtain ⟨json, hjson, hs⟩ := h.severity
    exact toldBy_eq_ok_some_iff.mpr ⟨json, hjson, Severity.ofJson_eq_ok_iff.mpr hs⟩

end Draft

theorem readAll_finish_eq_ok_iff {fields : Fields} (hn : (fields.map Prod.fst).Nodup)
    (hbelow : ∀ field ∈ fields, field.2.HasDistinctKeys) {d : Diagnostic} :
    (do (← readAll Draft.read {} fields).finish) = .ok d ↔ d.GivenBy fields := by
  rw [Except.bind_eq_ok_iff, ← Draft.exists_toldBy_finish_iff hbelow]
  simp only [Draft.readAll_eq_ok_iff hn]

/-- A list tells the message only if it has at least three items. -/
theorem GivenBy.three_le_length {d : Diagnostic} {items : List Json}
    (h : d.GivenBy (fieldNames.zip items)) : 3 ≤ items.length := by
  have hmessage := h.message
  match items with
  | [] | [_] | [_, _] => simp [fieldNames, Fields.find?] at hmessage
  | _ :: _ :: _ :: _ => simp

/-- The list of a diagnostic is read as the fields that it stands for. -/
theorem ofItems_eq_ok_iff {items : List Json} (hbelow : ∀ item ∈ items, item.HasDistinctKeys)
    {d : Diagnostic} :
    ofItems items = .ok d ↔
      items.length ≤ fieldNames.length ∧ d.GivenBy (fieldNames.zip items) := by
  have hfields : ∀ field ∈ fieldNames.zip items, field.2.HasDistinctKeys :=
    fun field hfield => hbelow _ (List.of_mem_zip hfield).2
  have hgiven := readAll_finish_eq_ok_iff (nodup_fst_zip (by decide) items) hfields (d := d)
  constructor
  · intro h
    obtain ⟨draft, hdraft, hrest⟩ := Except.bind_eq_ok_iff.mp h
    split at hrest
    · cases hrest
    · obtain ⟨_, hall, hfinish⟩ := Except.bind_eq_ok_iff.mp hrest
      refine ⟨List.drop_eq_nil_iff.mp (allRead_eq_ok_iff.mp hall), hgiven.mp ?_⟩
      exact Except.bind_eq_ok_iff.mpr ⟨draft, hdraft, hfinish⟩
  · rintro ⟨hlength, h⟩
    obtain ⟨draft, hdraft, hfinish⟩ := Except.bind_eq_ok_iff.mp (hgiven.mpr h)
    have hall : allRead items (items.drop fieldNames.length) = .ok () :=
      allRead_eq_ok_iff.mpr (List.drop_eq_nil_iff.mpr hlength)
    -- The test for three items fails only where the message is missing too.
    have hlong : ¬ items.length < 3 := by have := h.three_le_length; omega
    refine Except.bind_eq_ok_iff.mpr ⟨draft, hdraft, ?_⟩
    rw [if_neg hlong]
    exact Except.bind_eq_ok_iff.mpr ⟨(), hall, hfinish⟩

theorem ofJson_eq_ok_iff {json : Json} (hj : json.HasDistinctKeys) {d : Diagnostic} :
    ofJson json = .ok d ↔ d.SpelledBy json := by
  cases hj with
  | object hn below =>
    simp [ofJson, readAll_finish_eq_ok_iff hn below, SpelledBy, Json.givenFields?]
  | array below =>
    rw [ofJson, ofItems_eq_ok_iff below]
    simp [SpelledBy, Json.givenFields?, and_assoc]
  | _ => simp [ofJson, SpelledBy, Json.givenFields?]

theorem toJson_hasDistinctKeys (d : Diagnostic) : d.toJson.HasDistinctKeys := by
  obtain ⟨severity, code, message, filename, start, stop, frame⟩ := d
  have hplace (p : Position) := p.toJson_hasDistinctKeys
  have htext (text : String) := Json.HasDistinctKeys.string text
  refine .object ?_ ?_
  · cases filename <;> cases start <;> cases stop <;> cases frame <;> simp
  · cases filename <;> cases start <;> cases stop <;> cases frame <;> simp [hplace, htext]

theorem spelledBy_toJson (d : Diagnostic) : d.SpelledBy d.toJson := by
  refine ⟨_, rfl, ?_⟩
  have hseverity : d.severity.SpelledBy (.string d.severity.name) := .text
  have hplace (p : Position) := p.spelledBy_toJson
  obtain ⟨severity, code, message, filename, start, stop, frame⟩ := d
  constructor
  case severity => exact ⟨_, rfl, hseverity⟩
  case code => rfl
  case message => rfl
  all_goals
    cases filename <;> cases start <;> cases stop <;> cases frame <;>
      simp [GivenOptionally, Fields.find?, hplace]

/-- What is written is read again; by what spelling a diagnostic is given does not matter to what is
written of it. -/
theorem ofJson_toJson_stable (json : Json) (d : Diagnostic) :
    ofJson d.toJson = .ok d ∧
      (json.HasDistinctKeys → (ofJson json = .ok d ↔ d.SpelledBy json)) ∧
      (ofJson json = .ok d →
        ∃ again, ofJson d.toJson = .ok again ∧ again = d ∧ again.toJson = d.toJson) := by
  have hround : ofJson d.toJson = .ok d :=
    (ofJson_eq_ok_iff d.toJson_hasDistinctKeys).mpr d.spelledBy_toJson
  exact ⟨hround, fun hj => ofJson_eq_ok_iff hj, fun _ => ⟨d, hround, rfl, rfl⟩⟩

/-- A list that ends before the frame, the severity as a key, and a position without offset. -/
theorem ofJson_toJson_stable_list :
    let json : Json := .array [.object [("warning", .null)], .string "css_unused",
      .string "Unused", .null, .array [.ofNat 3, .ofNat 7]]
    let d : Diagnostic :=
      ⟨.warning, "css_unused", "Unused", none, some ⟨3, 7, 0⟩, none, none⟩
    json.HasDistinctKeys ∧ ofJson json = .ok d ∧ d.SpelledBy json ∧
      ∃ again, ofJson d.toJson = .ok again ∧ again = d ∧ again.toJson = d.toJson := by
  intro json d
  have hkeys : json.HasDistinctKeys := by
    refine .array ?_
    simp only [List.forall_mem_cons, List.not_mem_nil, false_imp_iff, implies_true, and_true]
    have hnumber (n : Nat) : (Json.ofNat n).HasDistinctKeys := .number _
    have hseverity : Json.HasDistinctKeys (.object [("warning", .null)]) :=
      .object (by simp) (by simp [Json.HasDistinctKeys.null])
    exact ⟨hseverity, .string _, .string _, .null, .array (by simp [hnumber])⟩
  have hread : ofJson json = .ok d := rfl
  obtain ⟨-, hspelled, hagain⟩ := ofJson_toJson_stable json d
  exact ⟨hkeys, hread, (hspelled hkeys).mp hread, hagain hread⟩

end Diagnostic

end InlineComponents
