import InlineComponents.Proofs.Offsets.Extraction
import InlineComponents.Proofs.Offsets.Injection

namespace InlineComponents.Offsets

/-- A round that goes on does so from a later offset. -/
def GoesForward {σ ρ : Type} (round : σ → Reading (Round σ ρ)) (offset : σ → Nat) : Prop :=
  ∀ s next, round s = .ok (.again next) → offset s < offset next

section Cuts

variable {source : String} {start stop offset : Nat}

theorem le_of_isBoundary (h : IsBoundary source offset) : offset ≤ source.utf8ByteSize :=
  h.le_rawEndPos

/-- Only between characters, forward and within the source can a text be cut out of it. -/
theorem exists_cut_iff : (∃ text, cut source start stop = .ok text) ↔
    start ≤ stop ∧ stop ≤ source.utf8ByteSize ∧ IsBoundary source start ∧
      IsBoundary source stop := by
  unfold cut
  constructor
  · rintro ⟨text, htext⟩
    split at htext
    · next h => exact ⟨h.1, le_of_isBoundary h.2.2, h.2⟩
    · cases htext
  · rintro ⟨hle, -, hboundaries⟩
    exact ⟨_, if_pos ⟨hle, hboundaries⟩⟩

theorem RestAt.isBoundary {rest : List Char} (h : RestAt source.toList offset rest) :
    IsBoundary source offset := by
  obtain ⟨front, hsource, rfl⟩ := h
  exact isBoundary_byteLength hsource

theorem isBoundary_of_scriptTag? {opened : OpenElements} {token : Token} {rest : List Char}
    {tag : ScriptTag} (h : RestAt source.toList offset (token.render ++ rest))
    (htag : scriptTag? offset (opened, token) = some tag) :
    IsBoundary source tag.contentStart := by
  cases opened with
  | cons => cases htag
  | nil =>
    cases token with
    | script inside content =>
      have hsplit : (Token.script inside content).render ++ rest =
          (scriptOpening ++ inside ++ ['>']) ++ (content ++ rest) := by simp [Token.render]
      obtain rfl := Option.some.inj htag
      exact (hsplit ▸ h).append.isBoundary
    | _ => cases htag

theorem isBoundary_of_mem_scriptsOf {opened : OpenElements} {ts : List Token} {tag : ScriptTag}
    (h : RestAt source.toList offset (tokensText ts)) (htag : tag ∈ scriptsOf offset opened ts) :
    IsBoundary source tag.contentStart := by
  induction ts generalizing offset opened with
  | nil => cases htag
  | cons token ts ih =>
    rcases List.mem_append.mp htag with hhere | hlater
    · exact isBoundary_of_scriptTag? h (Option.mem_toList.mp hhere)
    · exact ih h.append hlater

/-- A search for scripts makes no misstep, and the content of each script that it finds begins
between characters. -/
theorem gives_scriptTags (source : String) (file : Path) :
    Gives (scriptTags source file) fun scripts => ∀ tags, scripts = .ok tags →
      ∀ tag ∈ tags, IsBoundary source tag.contentStart := by
  rw [scriptTags_eq]
  refine gives_ok fun tags htags tag htag => ?_
  rw [scriptsFrom] at htags
  split at htags
  · cases htags
  · obtain rfl := Except.ok.inj htags
    have hstart : RestAt source.toList 0 (tokensText (tokens source.toList)) :=
      (tokensText_tokens source.toList).symm ▸ RestAt.start source.toList
    exact isBoundary_of_mem_scriptsOf hstart htag

end Cuts

section Forward

variable (source : String) (file : Path) (bytes : List UInt8)

theorem templateRound_goesForward : GoesForward (templateRound source) id :=
  fun offset _ h => (templateRound_advances source offset _ h).2

theorem closeRound_goesForward : GoesForward (closeRound source) BlockPlace.offset :=
  fun p _ h => (closeRound_advances source p _ h).1

theorem extractRound_goesForward (policy : DuplicatePolicy) :
    GoesForward (extractRound source file policy) ExtractPlace.offset :=
  fun p _ h => (extractRound_advances source file policy p _ h).1

theorem scriptRound_goesForward : GoesForward (scriptRound source file) ScriptPlace.offset :=
  fun p _ h => (scriptRound_advances source file p _ h).2

theorem rawRound_goesForward (tag : RawTag) : GoesForward (rawRound tag bytes) id :=
  fun offset _ h => (rawRound_advances tag bytes offset _ h).1

theorem tagEndRound_goesForward : GoesForward (tagEndRound bytes) id :=
  fun offset _ h => (tagEndRound_advances bytes offset _ h).2

end Forward

/-- From every offset of every source the next template tag is found, if there is one, with its
angles where it begins and ends; no offset is read, no text is cut out and no level is counted down
where that cannot be done, and each round of each loop is behind the one before it. So the
extraction and the injection by offsets always come to an end, which is that of the extraction and
of the injection. -/
theorem offsets_safe :
    (∀ source offset, offset ≤ source.utf8ByteSize →
      (∃ found, nextTag source offset = .ok found ∧ ∀ tag ∈ found,
        offset ≤ tag.start ∧ tag.start < tag.stop ∧ tag.stop ≤ source.utf8ByteSize ∧
          byteAt (utf8 source.toList) tag.start = .ok '<' ∧
          byteAt (utf8 source.toList) (tag.stop - 1) = .ok '>') ∧
      ∃ bounds, matchingClose source offset = .ok bounds) ∧
    (∀ source start stop, (∃ text, cut source start stop = .ok text) ↔
      start ≤ stop ∧ stop ≤ source.utf8ByteSize ∧ IsBoundary source start ∧
        IsBoundary source stop) ∧
    (∀ source file policy,
      GoesForward (templateRound source) id ∧ GoesForward (closeRound source) BlockPlace.offset ∧
      GoesForward (extractRound source file policy) ExtractPlace.offset ∧
      GoesForward (scriptRound source file) ScriptPlace.offset) ∧
    (∀ bytes tag, GoesForward (rawRound tag bytes) id ∧ GoesForward (tagEndRound bytes) id) ∧
    (∀ source file policy,
      extract source file policy = .ok (InlineComponents.extract source file policy)) ∧
    ∀ source file,
      (∃ scripts, scriptTags source file = .ok scripts ∧ ∀ tags, scripts = .ok tags →
        ∀ tag ∈ tags, IsBoundary source tag.contentStart) ∧
      ∀ imports, injectImports source file imports =
        .ok (InlineComponents.injectImports source file imports) := by
  refine ⟨fun source offset hin => ?_, fun source start stop => exists_cut_iff,
    fun source file policy => ⟨templateRound_goesForward source, closeRound_goesForward source,
      extractRound_goesForward source file policy, scriptRound_goesForward source file⟩,
    fun bytes tag => ⟨rawRound_goesForward bytes tag, tagEndRound_goesForward bytes⟩, extract_eq,
    fun source file => ⟨gives_scriptTags source file, injectImports_eq source file⟩⟩
  rw [← length_utf8_toList] at hin ⊢
  obtain ⟨found, hfound, hwithin⟩ := gives_nextTag hin
  obtain ⟨bounds, hbounds, -⟩ := gives_matchingClose hin
  refine ⟨⟨found, hfound, fun tag htag => ?_⟩, bounds, hbounds⟩
  have h := hwithin tag htag
  exact ⟨h.behind, h.forward, h.inside, h.opened, h.closed⟩

/-- From within a character of two bytes the tag behind it is found. -/
theorem offsets_safe_within_a_character :
    let source := "é<template name=\"A\">€</template>"
    let tag : Tag := ⟨.opening (some "A") false, 2, 21⟩
    1 ≤ source.utf8ByteSize ∧ nextTag source 1 = .ok (some tag) ∧
      1 ≤ tag.start ∧ tag.start < tag.stop ∧ tag.stop ≤ source.utf8ByteSize ∧
      byteAt (utf8 source.toList) tag.start = .ok '<' ∧
      byteAt (utf8 source.toList) (tag.stop - 1) = .ok '>' := by
  have hfirst : firstTag 2 (pieces "<template name=\"A\">€</template>".toList) =
      some ⟨.opening (some "A") false, 2, 21⟩ := by decide +kernel
  intro source tag
  have hsource : source.toList = 'é' :: "<template name=\"A\">€</template>".toList := by decide
  have hrest : RestAt source.toList (1 + [(0xA9 : UInt8)].length)
      "<template name=\"A\">€</template>".toList := ⟨['é'], hsource, rfl⟩
  have hdrop : (utf8 source.toList).drop 1 =
      [0xA9] ++ utf8 "<template name=\"A\">€</template>".toList := by
    rw [hsource]
    rfl
  have htag : nextTag source 1 = .ok (some tag) := by
    rw [nextTag_of_drop hrest hdrop (by simp [IsAscii, toNat_ofUInt8]), hrest.nextTag_eq]
    exact congrArg _ hfirst
  have hin : 1 ≤ source.utf8ByteSize := by decide
  obtain ⟨⟨found, hfound, hwithin⟩, -⟩ := offsets_safe.1 source 1 hin
  obtain rfl := Except.ok.inj (hfound.symm.trans htag)
  exact ⟨hin, htag, hwithin tag rfl⟩

end InlineComponents.Offsets
