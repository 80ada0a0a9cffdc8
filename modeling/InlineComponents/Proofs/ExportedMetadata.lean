import InlineComponents.Package.Descriptor
import InlineComponents.Proofs.ManifestFields
import InlineComponents.Proofs.Reading

namespace InlineComponents

/-- What begins as one text and ends as another, and has room for both, is the two with something
between them. -/
theorem prefix_suffix_iff {α : Type} {before after l : List α} :
    before.length + after.length ≤ l.length ∧ before <+: l ∧ after <:+ l ↔
      ∃ middle, l = before ++ middle ++ after := by
  constructor
  · rintro ⟨hlength, ⟨rest, rfl⟩, hafter⟩
    rw [List.length_append] at hlength
    obtain ⟨middle, rfl⟩ : after <:+ rest :=
      List.suffix_of_suffix_length_le hafter (List.suffix_append before rest) (by omega)
    exact ⟨middle, (List.append_assoc ..).symm⟩
  · rintro ⟨middle, rfl⟩
    refine ⟨by simp only [List.length_append]; omega, ?_, List.suffix_append _ _⟩
    exact (List.prefix_append before middle).trans (List.prefix_append _ after)

theorem Json.found_eq_null_iff {json : Json} : json.found = .null ↔ json = .null := by
  cases json <;> simp [found]

namespace Package

/-- A pattern with a star stands for the keys that have something in the place of its first star. -/
def StandsFor (pattern key : String) : Prop :=
  ∃ x y m : String, '*' ∉ x.toList ∧ pattern = x ++ "*" ++ y ∧ key = x ++ m ++ y

section Patterns

variable {pattern key : String}

theorem breakAt_star {before : List Char} (h : '*' ∉ before) (after : List Char) :
    breakAt (fun s => s.head? = some '*') (before ++ '*' :: after) =
      some (before, '*' :: after) := by
  refine breakAt_append_eq_some (List.cons_ne_nil _ _) (by simp) fun rest hrest hne => ?_
  obtain ⟨c, cs, rfl⟩ := List.exists_cons_of_ne_nil hne
  have hc : c ≠ '*' := fun hc => h (hrest.subset (hc ▸ List.mem_cons_self))
  simpa using hc

theorem patternMatches_of_star {x y : String} (hx : '*' ∉ x.toList) :
    patternMatches (x ++ "*" ++ y) key = true ↔ ∃ m : String, key = x ++ m ++ y := by
  have hbreak : breakAt (fun s => s.head? = some '*') (x ++ "*" ++ y).toList =
      some (x.toList, '*' :: y.toList) := by
    rw [← breakAt_star hx y.toList]
    simp
  rw [patternMatches, hbreak]
  simp only [List.drop_succ_cons, List.drop_zero, Bool.and_eq_true, decide_eq_true_eq, and_assoc,
    List.isPrefixOf_iff_prefix, List.isSuffixOf_iff_suffix, prefix_suffix_iff]
  constructor
  · rintro ⟨middle, hmiddle⟩
    exact ⟨String.ofList middle, String.toList_inj.mp (by simp [hmiddle])⟩
  · rintro ⟨m, rfl⟩
    exact ⟨m.toList, by simp⟩

theorem patternMatches_iff (hne : pattern ≠ key) :
    patternMatches pattern key = true ↔ StandsFor pattern key := by
  constructor
  · intro h
    by_cases hstar : '*' ∈ pattern.toList
    · obtain ⟨before, after, hpattern, hbefore⟩ := List.eq_append_cons_of_mem hstar
      obtain rfl : pattern = String.ofList before ++ "*" ++ String.ofList after :=
        String.toList_inj.mp (by simp [hpattern])
      have hx : '*' ∉ (String.ofList before).toList := by simpa using hbefore
      obtain ⟨m, hm⟩ := (patternMatches_of_star hx).mp h
      exact ⟨_, _, m, hx, rfl, hm⟩
    · have hnone : breakAt (fun s => s.head? = some '*') pattern.toList = none := by
        rw [Option.eq_none_iff_forall_ne_some]
        rintro ⟨before, rest⟩ hbreak
        obtain ⟨hpattern, hrest⟩ := breakAt_append hbreak
        have hmem : '*' ∈ rest := List.mem_of_mem_head? (by simpa using hrest)
        exact hstar (hpattern ▸ List.mem_append_right before hmem)
      rw [patternMatches, hnone] at h
      exact absurd (of_decide_eq_true h) hne
  · rintro ⟨x, y, m, hx, rfl, hkey⟩
    exact (patternMatches_of_star hx).mpr ⟨m, hkey⟩

end Patterns

/-- Exports that are a map from paths with a target for the metadata: its own, and not `null`, or,
if it has none of its own, that of a pattern. -/
structure MapsMetadata (fields : Fields) : Prop where
  paths : ∀ field ∈ fields, field.1.toList.head? = some '.'
  target : (∃ target, (metadataKey, target) ∈ fields ∧ target ≠ .null) ∨
    metadataKey ∉ fields.map Prod.fst ∧
      ∃ field ∈ fields, field.2 ≠ .null ∧ StandsFor field.1 metadataKey

/-- Exports with which the metadata can be read. -/
def LeavesMetadata (exports : Option Json) : Prop :=
  exports = none ∨ exports = some .null ∨
    ∃ fields, exports = some (.object fields) ∧ MapsMetadata fields

/-- The same exports, but for the order of their keys. -/
inductive SameExports : Option Json → Option Json → Prop where
  | same (exports : Option Json) : SameExports exports exports
  | reordered {fields fields' : Fields} (h : fields.Perm fields') :
    SameExports (some (.object fields)) (some (.object fields'))

theorem MapsMetadata.of_perm {fields fields' : Fields} (hperm : fields.Perm fields')
    (h : MapsMetadata fields) : MapsMetadata fields' where
  paths := by simpa only [hperm.mem_iff] using h.paths
  target := by simpa only [hperm.mem_iff, (hperm.map Prod.fst).mem_iff] using h.target

theorem SameExports.leavesMetadata_iff {exports exports' : Option Json}
    (h : SameExports exports exports') : LeavesMetadata exports ↔ LeavesMetadata exports' := by
  cases h with
  | same => rfl
  | @reordered fields fields' h =>
    have hmaps : MapsMetadata fields ↔ MapsMetadata fields' :=
      ⟨.of_perm h, .of_perm h.symm⟩
    simp [LeavesMetadata, hmaps]

theorem exportsMetadata_iff {fields : Fields} (hn : (fields.map Prod.fst).Nodup) :
    exportsMetadata fields = true ↔
      (∃ target, (metadataKey, target) ∈ fields ∧ target ≠ .null) ∨
        metadataKey ∉ fields.map Prod.fst ∧
          ∃ field ∈ fields, field.2 ≠ .null ∧ StandsFor field.1 metadataKey := by
  unfold exportsMetadata
  cases hfind : fields.find? metadataKey with
  | some target =>
    have hmem := Fields.mem_of_find? hfind
    have hkey : metadataKey ∈ fields.map Prod.fst := List.mem_map_of_mem hmem
    have htarget : target ≠ .null ↔ ∃ other, (metadataKey, other) ∈ fields ∧ other ≠ .null := by
      refine ⟨fun hne => ⟨target, hmem, hne⟩, ?_⟩
      rintro ⟨other, hother, hne⟩
      rwa [← Option.some.inj ((Fields.find?_of_mem hn hother).symm.trans hfind)]
    simp [hkey, ← htarget, Json.found_eq_null_iff]
  | none =>
    have hkey := Fields.find?_eq_none_iff.mp hfind
    -- A pattern without a star stands for itself, and the metadata's own key is not there.
    have htarget : ¬ ∃ target, (metadataKey, target) ∈ fields ∧ target ≠ .null :=
      fun ⟨target, hmem, _⟩ => hkey (List.mem_map_of_mem hmem)
    have hstands (field) (hfield : field ∈ fields) :
        patternMatches field.1 metadataKey = true ↔ StandsFor field.1 metadataKey :=
      patternMatches_iff fun he => hkey (he ▸ List.mem_map_of_mem hfield)
    simp only [htarget, hkey, not_false_eq_true, true_and, false_or, List.any_eq_true,
      Bool.and_eq_true, decide_eq_true_eq, ne_eq, Json.found_eq_null_iff]
    refine exists_congr fun field => and_congr_right fun hfield => ?_
    rw [hstands field hfield]

theorem hidesMetadata_eq_false_iff_exports {p : Package} (hnull : p.exports ≠ some .null)
    (hkeys : ∀ fields, p.exports = some (.object fields) → (fields.map Prod.fst).Nodup) :
    p.hidesMetadata = false ↔ LeavesMetadata p.exports := by
  unfold hidesMetadata
  split
  · next hexports => simp [LeavesMetadata, hexports]
  · next fields hexports =>
    have hmaps : MapsMetadata fields ↔
        (∀ field ∈ fields, field.1.toList.head? = some '.') ∧ exportsMetadata fields = true := by
      rw [exportsMetadata_iff (hkeys fields hexports)]
      exact ⟨fun h => ⟨h.paths, h.target⟩, fun h => ⟨h.1, h.2⟩⟩
    simp [LeavesMetadata, hexports, hmaps]
  · next json hobject hexports =>
    have hno : ∀ fields, json ≠ .object fields := fun fields he => hobject fields he
    simp_all [LeavesMetadata]

theorem parse_eq_ok {dir : Path} {text : String} {p : Package} (h : parse dir text = .ok p) :
    ∃ m, Manifest.read text = .ok m ∧ p.exports = m.exports := by
  unfold parse at h
  split at h
  · cases h
  · next m hm =>
    cases h
    exact ⟨m, hm, rfl⟩

/-- What is kept of the exports is what the text gives as its exports. -/
theorem exports?_of_parse {dir : Path} {text : String} {p : Package} (h : parse dir text = .ok p)
    {json : Json} (hjson : p.exports = some json) : Manifest.exports? text = .ok (some json) := by
  obtain ⟨m, hm, hp⟩ := parse_eq_ok h
  obtain ⟨exports, hexports, hread⟩ := Manifest.exports?_of_read hm
  obtain ⟨rfl, -⟩ := Option.filter_eq_some_iff.mp (hread.symm.trans (hp.symm.trans hjson))
  exact hexports

theorem exists_exports?_of_parse {dir : Path} {text : String} {p : Package}
    (h : parse dir text = .ok p) : ∃ exports, Manifest.exports? text = .ok exports ∧
      (p.hidesMetadata = false ↔ LeavesMetadata exports) := by
  obtain ⟨m, hm, hp⟩ := parse_eq_ok h
  obtain ⟨exports, hexports, hread⟩ := Manifest.exports?_of_read hm
  have hfilter : p.exports = exports.filter fun json => json.found ≠ .null := hp.trans hread
  have hnull : p.exports ≠ some .null := by
    intro hnull
    have hkept := (Option.filter_eq_some_iff.mp (hfilter.symm.trans hnull)).2
    simp [Json.found] at hkept
  have hkeys : ∀ fields, p.exports = some (.object fields) → (fields.map Prod.fst).Nodup := by
    intro fields hfields
    obtain ⟨rfl, -⟩ := Option.filter_eq_some_iff.mp (hfilter.symm.trans hfields)
    cases Manifest.hasDistinctKeys_of_exports? hexports with
    | object hn => exact hn
  refine ⟨exports, hexports, ?_⟩
  rw [hidesMetadata_eq_false_iff_exports hnull hkeys, hfilter]
  cases exports with
  | none => rfl
  | some json => cases json <;> simp [LeavesMetadata, Option.filter, Json.found]

/-- The metadata of a package can be read if and only if its exports, as the text gives them, leave
it to be read: nothing else in the text counts, nor where the package is, nor the order of keys. -/
theorem hidesMetadata_eq_false_iff {dir : Path} {text : String} {p : Package}
    (h : parse dir text = .ok p) :
    ∃ exports, Manifest.exports? text = .ok exports ∧
      (p.hidesMetadata = false ↔ LeavesMetadata exports) ∧
      ∀ (dir' : Path) (text' : String) (p' : Package) (exports' : Option Json),
        parse dir' text' = .ok p' → Manifest.exports? text' = .ok exports' →
        SameExports exports exports' → p'.hidesMetadata = p.hidesMetadata := by
  obtain ⟨exports, hexports, hhides⟩ := exists_exports?_of_parse h
  refine ⟨exports, hexports, hhides, fun dir' text' p' exports' h' hexports' hsame => ?_⟩
  obtain ⟨_, heq, hhides'⟩ := exists_exports?_of_parse h'
  cases hexports'.symm.trans heq
  have hiff : p'.hidesMetadata = false ↔ p.hidesMetadata = false := by
    rw [hhides', hhides, hsame.leavesMetadata_iff]
  cases hp : p.hidesMetadata with
  | false => exact hiff.mpr hp
  | true =>
    rw [← Bool.not_eq_false, hiff, hp]
    simp

/-- The metadata has a pattern that stands for it, also with the keys in another order and other
fields around them, of which one is no number that can be read. -/
theorem hidesMetadata_eq_false_iff_pattern :
    let text := "\x7b\"v\":1e999,\"exports\":\x7b\".\":\"a\",\"./*.json\":\"b\"\x7d\x7d"
    let text' := "\x7b\"exports\":\x7b\"./*.json\":\"b\",\".\":\"a\"\x7d,\"name\":\"ui\"\x7d"
    ∃ p p', parse ⟨"/a"⟩ text = .ok p ∧ parse ⟨"/b"⟩ text' = .ok p' ∧
      p.hidesMetadata = false ∧ p'.hidesMetadata = false := by
  intro text text'
  let fields : Fields := [(".", .string "a"), ("./*.json", .string "b")]
  have hparse : parse ⟨"/a"⟩ text = .ok ⟨⟨"/a"⟩, none, none, some (.object fields)⟩ :=
    toOption_eq_some_iff.mp (by decide +kernel)
  have hparse' : parse ⟨"/b"⟩ text' =
      .ok ⟨⟨"/b"⟩, some "ui", none, some (.object fields.reverse)⟩ :=
    toOption_eq_some_iff.mp (by decide +kernel)
  have hexports := exports?_of_parse hparse rfl
  have hexports' := exports?_of_parse hparse' rfl
  have hstands : StandsFor "./*.json" metadataKey :=
    ⟨"./", ".json", "package", by decide, by decide, by decide⟩
  have hmaps : MapsMetadata fields := by
    refine ⟨by simp [fields], .inr ⟨by decide, ?_⟩⟩
    exact ⟨("./*.json", .string "b"), by simp [fields], by simp, hstands⟩
  obtain ⟨exports, heq, hiff, hsame⟩ := hidesMetadata_eq_false_iff hparse
  cases hexports.symm.trans heq
  have hshown := hiff.mpr (.inr (.inr ⟨fields, rfl, hmaps⟩))
  have hagain := hsame ⟨"/b"⟩ text' _ _ hparse' hexports' (.reordered (List.reverse_perm _).symm)
  exact ⟨_, _, hparse, hparse', hshown, hagain.trans hshown⟩

end Package

end InlineComponents
