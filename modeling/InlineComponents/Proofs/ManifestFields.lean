import InlineComponents.Package.Reader
import InlineComponents.Proofs.SkippedValues

namespace InlineComponents

section Simulation

variable {σ τ : Type}

/-- Every field that is read in one way is read in another way up to the same place, and what
relates the two before it relates them after it. -/
def FollowsFields (read : σ → String → List Char → Except JsonFault (σ × List Char))
    (read' : τ → String → List Char → Except JsonFault (τ × List Char)) (R : σ → τ → Prop) : Prop :=
  ∀ ⦃state next : σ⦄ ⦃state' : τ⦄ ⦃key : String⦄ ⦃s rest : List Char⦄, R state state' →
    read state key s = .ok (next, rest) →
    ∃ next', read' state' key s = .ok (next', rest) ∧ R next next'

variable {read : σ → String → List Char → Except JsonFault (σ × List Char)}
  {read' : τ → String → List Char → Except JsonFault (τ × List Char)} {R : σ → τ → Prop}

/-- An object whose fields are followed is followed to its end. -/
theorem FollowsFields.toRecord (hstep : FollowsFields read read' R)
    {start final : σ} {start' : τ} (hstart : R start start') {s rest : List Char}
    (h : readRecord read start s = .ok (final, rest)) :
    ∃ final', readRecord read' start' s = .ok (final', rest) ∧ R final final' := by
  -- The two have the text that is left and the room in common, and differ in their states alone.
  suffices hgo : ∀ (room s : List Char) (first : Bool) {start : σ} {start' : τ}, R start start' →
      readRecord.go read start first s room = .ok (final, rest) →
      ∃ final', readRecord.go read' start' first s room = .ok (final', rest) ∧ R final final' from
    hgo s s true hstart h
  intro room
  induction room with
  | nil => exact fun s first start start' _ h => nomatch h
  | cons _ room ih =>
    intro s first start start' hstart h
    obtain ⟨next, hnext, hrest⟩ := Except.bind_eq_ok_iff.mp h
    cases next with
    | none =>
      cases hrest
      exact ⟨start', Except.bind_eq_ok_iff.mpr ⟨none, hnext, rfl⟩, hstart⟩
    | some t =>
      obtain ⟨⟨key, after⟩, hkey, hrest⟩ := Except.bind_eq_ok_iff.mp hrest
      obtain ⟨⟨state, last⟩, hfield, hmore⟩ := Except.bind_eq_ok_iff.mp hrest
      obtain ⟨state', hfield', hstate⟩ := hstep hstart hfield
      obtain ⟨final', hmore', hfinal⟩ := ih last false hstate hmore
      refine ⟨final', Except.bind_eq_ok_iff.mpr ⟨some t, hnext, ?_⟩, hfinal⟩
      refine Except.bind_eq_ok_iff.mpr ⟨(key, after), hkey, ?_⟩
      exact Except.bind_eq_ok_iff.mpr ⟨(state', last), hfield', hmore'⟩

end Simulation

theorem readValue_dropJsonBlanks (depth : Nat) (s : List Char) :
    readValue depth (dropJsonBlanks s) = readValue depth s := by
  unfold readValue
  rw [dropJsonBlanks_idem]

/-- Only what begins as the word `null` does is read as `null`. -/
theorem eq_n_of_readValue_null {depth : Nat} {s rest : List Char}
    (h : readValue depth s = .ok (.null, rest)) :
    ∃ cs, dropJsonBlanks s = 'n' :: cs := by
  unfold readValue at h
  split at h
  · cases h
  · next c cs hs =>
    split at h
    · next letters word _ hword =>
      obtain ⟨after, -, hrest⟩ := Except.bind_eq_ok_iff.mp h
      cases hrest
      unfold startOf at hword
      split_ifs at hword with hn <;> cases hword
      exact ⟨cs, hn ▸ hs⟩
    all_goals
      first
      | cases h
      | obtain ⟨_, -, hrest⟩ := Except.bind_eq_ok_iff.mp h
        cases hrest

namespace Manifest

/-- A field is kept with the text that begins with its value, whatever that is. -/
def collect (members : List (String × List Char)) (key : String) (s : List Char) :
    Except JsonFault (List (String × List Char) × List Char) := do
  let value ← readColon s
  let rest ← skipValue value
  pure (members ++ [(key, value)], rest)

/-- The text that begins with an item of a list, and the text after the item. -/
def passItem (index : Nat) (s : List Char) : Except JsonFault (List Char × List Char) := do
  match ← nextItem (index = 0) s with
  | none => throw .endInList
  | some value =>
    let rest ← skipValue value
    pure (value, rest)

/-- The fields that a text gives, none of them read: an object gives them by their keys, a list in
the order name, svelte, exports. -/
def members (text : String) : Except JsonFault (List (String × List Char)) := do
  match dropJsonBlanks text.toList with
  | '{' :: cs =>
    let (members, _) ← readRecord collect [] cs
    pure members
  | '[' :: cs =>
    let (name, rest) ← passItem 0 cs
    let (svelte, rest) ← passItem 1 rest
    let (exports, _) ← passItem 2 rest
    pure [("name", name), ("svelte", svelte), ("exports", exports)]
  | _ => throw .noValue

/-- The exports among the fields of a text, if there are any. -/
def exportsIn (members : List (String × List Char)) : Except JsonFault (Option Json) :=
  match members.lookup "exports" with
  | none => .ok none
  | some value => (readInner value).map fun read => some read.1

/-- The exports that a text gives; no other field is read. -/
def exports? (text : String) : Except JsonFault (Option Json) := do
  exportsIn (← members text)

section Optional

variable {α : Type} {read : List Char → Except JsonFault (α × List Char)} {s rest : List Char}

theorem skipsAlike_readText : SkipsAlike readText := by
  intro s rest text h opened
  unfold readText at h
  split at h
  · cases h
  · next cs hs =>
    refine skipValue.go_of_step ?_
    simp [skipStep, hs, startOf, isDigit, skipString_of_readString h, Except.map]
  · cases h

theorem skipsAlike_readOptional (hread : SkipsAlike read) : SkipsAlike (readOptional read) := by
  intro s rest value h opened
  unfold readOptional at h
  split at h
  · next cs hs =>
    obtain ⟨after, hword, hrest⟩ := Except.bind_eq_ok_iff.mp h
    cases hrest
    exact skipValue.go_of_step (by simp [skipStep, hs, startOf, hword, Except.map])
  · obtain ⟨⟨a, after⟩, ha, hrest⟩ := Except.bind_eq_ok_iff.mp h
    cases hrest
    rw [← hread ha opened]
    exact skipValue.go_value_congr (dropJsonBlanks_idem s).symm opened

/-- What is read as `null` or a value is read as a value. -/
theorem readInner_of_readOptional {given : Option Json}
    (h : readOptional readInner s = .ok (given, rest)) :
    given = none ∧ readInner s = .ok (.null, rest) ∨
      ∃ json, json ≠ .null ∧ given = some json ∧ readInner s = .ok (json, rest) := by
  unfold readOptional at h
  split at h
  · next cs hs =>
    obtain ⟨after, hword, hrest⟩ := Except.bind_eq_ok_iff.mp h
    cases hrest
    refine .inl ⟨rfl, ?_⟩
    rw [readInner, readValue, hs]
    exact Except.bind_eq_ok_iff.mpr ⟨_, hword, rfl⟩
  · next hn =>
    obtain ⟨⟨json, after⟩, hjson, hrest⟩ := Except.bind_eq_ok_iff.mp h
    cases hrest
    rw [readInner, readValue_dropJsonBlanks] at hjson
    refine .inr ⟨json, ?_, rfl, hjson⟩
    rintro rfl
    obtain ⟨cs, hs⟩ := eq_n_of_readValue_null hjson
    exact hn cs hs

end Optional

/-- The exports read so far are those of the fields met so far. -/
inductive Partial.Tells : Partial → List (String × List Char) → Prop where
  | absent {p : Partial} {members : List (String × List Char)} (unread : p.exports = none)
    (lacks : members.lookup "exports" = none) : Tells p members
  | given {p : Partial} {members : List (String × List Char)} {exports : Option Json}
    {value rest : List Char} (told : p.exports = some exports)
    (holds : members.lookup "exports" = some value)
    (reads : readOptional readInner value = .ok (exports, rest)) : Tells p members

theorem readField_eq_ok {p next : Partial} {key : String} {s rest : List Char}
    (h : readField p key s = .ok (next, rest)) :
    ∃ value, readColon s = .ok value ∧ skipValue value = .ok rest ∧
      (key ≠ "exports" ∧ next.exports = p.exports ∨
        key = "exports" ∧ p.exports = none ∧ ∃ exports,
          readOptional readInner value = .ok (exports, rest) ∧ next.exports = some exports) := by
  have hinner : SkipsAlike (readOptional readInner) :=
    skipsAlike_readOptional (skipsAlike_readValue _)
  unfold readField at h
  split at h
  · next hkey =>
    obtain ⟨_, -, h⟩ := Except.bind_eq_ok_iff.mp h
    obtain ⟨value, hcolon, h⟩ := Except.bind_eq_ok_iff.mp h
    obtain ⟨⟨name, after⟩, hname, h⟩ := Except.bind_eq_ok_iff.mp h
    cases h
    refine ⟨value, hcolon, ?_, .inl ⟨by simp [hkey], rfl⟩⟩
    exact (skipsAlike_readOptional skipsAlike_readText).skipValue_eq hname
  · split at h
    · next hkey =>
      obtain ⟨_, -, h⟩ := Except.bind_eq_ok_iff.mp h
      obtain ⟨value, hcolon, h⟩ := Except.bind_eq_ok_iff.mp h
      obtain ⟨⟨svelte, after⟩, hsvelte, h⟩ := Except.bind_eq_ok_iff.mp h
      cases h
      exact ⟨value, hcolon, hinner.skipValue_eq hsvelte, .inl ⟨by simp [hkey], rfl⟩⟩
    · split at h
      · next hkey =>
        obtain ⟨_, honce, h⟩ := Except.bind_eq_ok_iff.mp h
        obtain ⟨value, hcolon, h⟩ := Except.bind_eq_ok_iff.mp h
        obtain ⟨⟨exports, after⟩, hexports, h⟩ := Except.bind_eq_ok_iff.mp h
        cases h
        have hunread : p.exports = none := by
          by_contra hread
          rw [once, if_pos (Option.isSome_iff_ne_none.mpr hread)] at honce
          cases honce
        exact ⟨value, hcolon, hinner.skipValue_eq hexports,
          .inr ⟨hkey, hunread, exports, hexports, rfl⟩⟩
      · next hkey =>
        obtain ⟨value, hcolon, h⟩ := Except.bind_eq_ok_iff.mp h
        obtain ⟨after, hskip, h⟩ := Except.bind_eq_ok_iff.mp h
        cases h
        exact ⟨value, hcolon, hskip, .inl ⟨hkey, rfl⟩⟩

theorem followsFields_collect : FollowsFields readField collect Partial.Tells := by
  intro p next members key s rest hp h
  obtain ⟨value, hcolon, hskip, hnext⟩ := readField_eq_ok h
  refine ⟨members ++ [(key, value)], ?_, ?_⟩
  · refine Except.bind_eq_ok_iff.mpr ⟨value, hcolon, ?_⟩
    exact Except.bind_eq_ok_iff.mpr ⟨rest, hskip, rfl⟩
  · obtain ⟨hkey, hsame⟩ | ⟨hkey, hunread, exports, hreads, htold⟩ := hnext
    · have hlookup : (members ++ [(key, value)]).lookup "exports" = members.lookup "exports" := by
        have hne : ("exports" == key) = false := beq_false_of_ne (Ne.symm hkey)
        simp [List.lookup_append, List.lookup_cons, hne]
      cases hp with
      | absent unread lacks => exact .absent (hsame.trans unread) (hlookup.trans lacks)
      | given told holds reads => exact .given (hsame.trans told) (hlookup.trans holds) reads
    · have hlacks : members.lookup "exports" = none := by
        cases hp with
        | absent _ lacks => exact lacks
        | given told => rw [hunread] at told; cases told
      exact .given htold (by simp [List.lookup_append, hlacks, hkey]) hreads

/-- Exports that are given as `null` are read as if there were none. -/
theorem Partial.Tells.exportsIn {p : Partial} {members : List (String × List Char)}
    (h : p.Tells members) : ∃ given, exportsIn members = .ok given ∧
      p.exports.join = given.filter fun json => json.found ≠ .null := by
  cases h with
  | absent unread lacks =>
    refine ⟨none, ?_, by rw [unread]; rfl⟩
    rw [Manifest.exportsIn, lacks]
  | given told holds reads =>
    rw [Manifest.exportsIn, holds, told]
    obtain ⟨rfl, hread⟩ | ⟨json, hne, rfl, hread⟩ := readInner_of_readOptional reads
    · exact ⟨some .null, by dsimp only; rw [hread]; rfl, rfl⟩
    · refine ⟨some json, by dsimp only; rw [hread]; rfl, ?_⟩
      have hfound : json.found ≠ .null := by cases json <;> simp_all [Json.found]
      simp [Option.filter, hfound]

theorem passItem_of_readItem {α : Type} {read : List Char → Except JsonFault (α × List Char)}
    (hread : SkipsAlike read) {index : Nat} {s rest : List Char} {a : Option α}
    (h : readItem read index s = .ok (a, rest)) :
    ∃ value, passItem index s = .ok (value, rest) ∧ readOptional read value = .ok (a, rest) := by
  obtain ⟨next, hnext, hrest⟩ := Except.bind_eq_ok_iff.mp h
  cases next with
  | none => cases hrest
  | some value =>
    refine ⟨value, Except.bind_eq_ok_iff.mpr ⟨some value, hnext, ?_⟩, hrest⟩
    refine Except.bind_eq_ok_iff.mpr ⟨rest, ?_, rfl⟩
    exact (skipsAlike_readOptional hread).skipValue_eq hrest

/-- What is read of the exports depends on what the text gives as its exports, and on nothing else
in the text. -/
theorem exports?_of_read {text : String} {m : Manifest} (h : read text = .ok m) :
    ∃ given, exports? text = .ok given ∧
      m.exports = given.filter fun json => json.found ≠ .null := by
  have hinner : SkipsAlike readInner := skipsAlike_readValue _
  -- A list is met as the object with the same fields, so that one account serves both.
  suffices htold : ∃ (p : Partial) (fields : List (String × List Char)),
      members text = .ok fields ∧ p.Tells fields ∧ m.exports = p.exports.join by
    obtain ⟨p, fields, hfields, htells, hexports⟩ := htold
    obtain ⟨given, hgiven, hjoin⟩ := htells.exportsIn
    exact ⟨given, Except.bind_eq_ok_iff.mpr ⟨fields, hfields, hgiven⟩, hexports.trans hjoin⟩
  unfold read at h
  unfold members
  split at h
  · cases h
  · next cs hs =>
    rw [hs]
    obtain ⟨⟨p, rest⟩, hrecord, h⟩ := Except.bind_eq_ok_iff.mp h
    obtain ⟨_, -, h⟩ := Except.bind_eq_ok_iff.mp h
    cases h
    have hnone : Partial.Tells {} [] := .absent rfl rfl
    obtain ⟨fields, hfields, htells⟩ := followsFields_collect.toRecord hnone hrecord
    exact ⟨p, fields, Except.bind_eq_ok_iff.mpr ⟨_, hfields, rfl⟩, htells, rfl⟩
  · next cs hs =>
    rw [hs]
    obtain ⟨⟨name, afterName⟩, hname, h⟩ := Except.bind_eq_ok_iff.mp h
    obtain ⟨⟨svelte, afterSvelte⟩, hsvelte, h⟩ := Except.bind_eq_ok_iff.mp h
    obtain ⟨⟨exports, afterExports⟩, hexports, h⟩ := Except.bind_eq_ok_iff.mp h
    obtain ⟨_, -, h⟩ := Except.bind_eq_ok_iff.mp h
    obtain ⟨_, -, h⟩ := Except.bind_eq_ok_iff.mp h
    cases h
    obtain ⟨nameText, hnameText, -⟩ := passItem_of_readItem skipsAlike_readText hname
    obtain ⟨svelteText, hsvelteText, -⟩ := passItem_of_readItem hinner hsvelte
    obtain ⟨exportsText, hexportsText, hreads⟩ := passItem_of_readItem hinner hexports
    refine ⟨{ exports := some exports },
      [("name", nameText), ("svelte", svelteText), ("exports", exportsText)], ?_,
      .given rfl rfl hreads, rfl⟩
    refine Except.bind_eq_ok_iff.mpr ⟨_, hnameText, ?_⟩
    refine Except.bind_eq_ok_iff.mpr ⟨_, hsvelteText, ?_⟩
    exact Except.bind_eq_ok_iff.mpr ⟨_, hexportsText, rfl⟩
  · cases h

theorem hasDistinctKeys_of_exports? {text : String} {json : Json}
    (h : exports? text = .ok (some json)) : json.HasDistinctKeys := by
  obtain ⟨fields, -, h⟩ := Except.bind_eq_ok_iff.mp h
  unfold exportsIn at h
  split at h
  · cases h
  · next value _ =>
    cases hread : readInner value with
    | error fault => rw [hread] at h; cases h
    | ok given =>
      rw [hread] at h
      cases h
      exact .of_readValue _ hread

end Manifest

end InlineComponents
