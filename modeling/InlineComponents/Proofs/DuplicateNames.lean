import InlineComponents.Proofs.Refusals
import Mathlib.Data.List.Nodup

namespace InlineComponents

theorem repeats_go_found (seen found names : List String) :
    repeats.go seen found names = found.reverse ++ repeats.go seen [] names := by
  induction names generalizing seen found with
  | nil => simp [repeats.go]
  | cons name names ih =>
    rw [repeats.go, repeats.go]
    split
    · rw [ih, ih seen [name]]
      simp
    · exact ih (name :: seen) found

/-- The first name that is given again, with the names before it, which are distinct. -/
theorem exists_of_repeats_go {seen names others : List String} {name : String}
    (h : repeats.go seen [] names = name :: others) :
    ∃ earlier later, names = earlier ++ name :: later ∧ earlier.Nodup ∧
      (∀ n ∈ earlier, n ∉ seen) ∧ (name ∈ seen ∨ name ∈ earlier) := by
  induction names generalizing seen with
  | nil => cases h
  | cons first names ih =>
    rw [repeats.go] at h
    split at h
    · next hs =>
      have hfirst : first ∈ seen := by simpa using hs
      rw [repeats_go_found] at h
      obtain ⟨rfl, -⟩ := List.cons.inj h
      exact ⟨[], names, rfl, List.nodup_nil, by simp, .inl hfirst⟩
    · next hs =>
      have hfirst : first ∉ seen := by simpa using hs
      obtain ⟨earlier, later, rfl, hnodup, hfresh, hgiven⟩ := ih h
      refine ⟨first :: earlier, later, rfl, ?_, ?_, ?_⟩
      · exact List.nodup_cons.mpr ⟨fun hm => hfresh first hm List.mem_cons_self, hnodup⟩
      · intro n hn
        rcases List.mem_cons.mp hn with rfl | hn
        · exact hfirst
        · exact fun hm => hfresh n hn (List.mem_cons_of_mem first hm)
      · rcases hgiven with hm | hm
        · rcases List.mem_cons.mp hm with rfl | hm
          · exact .inr List.mem_cons_self
          · exact .inl hm
        · exact .inr (List.mem_cons_of_mem first hm)

theorem exists_of_repeats {names others : List String} {name : String}
    (h : repeats names = name :: others) :
    ∃ earlier later, names = earlier ++ name :: later ∧ earlier.Nodup ∧ name ∈ earlier := by
  obtain ⟨earlier, later, hnames, hnodup, -, hgiven⟩ := exists_of_repeats_go h
  exact ⟨earlier, later, hnames, hnodup, hgiven.resolve_left List.not_mem_nil⟩

/-- A block that has the name of one before it: all blocks up to it are closed, have declared names,
and no two of those before it have one name. -/
structure GivenAgain (source : String) (name : String) (earlier : List Cut) (again : Cut) : Prop where
  first : FirstCuts source 0 (earlier ++ [again])
  declared : ∀ cut ∈ earlier ++ [again], isDeclaredName cut.name = true
  distinct : (earlier.map Cut.name).Nodup
  named : again.name = name
  given : name ∈ earlier.map Cut.name

section Policies

variable {source : String} {file : Path}

theorem extract_lastWins_eq (hsize : source.utf8ByteSize ≤ maxSourceSize) :
    (extract source file .lastWins).2 =
      match (outline (pieces source.toList)).failure? file with
      | some failure => .error failure
      | none => .ok ((outline (pieces source.toList)).extraction file) := by
  rw [extract_of_le hsize]
  cases hr : (outline (pieces source.toList)).repeated <;> rfl

/-- Where no name is given again, the policy does not matter. -/
theorem extract_of_repeated_nil (h : (outline (pieces source.toList)).repeated = []) :
    extract source file .error = extract source file .lastWins := by
  rw [extract, extract]
  split
  · rfl
  · simp only [Outline.extract, h]

theorem extract_of_repeated_cons (hsize : source.utf8ByteSize ≤ maxSourceSize) {name : String}
    {others : List String} (h : (outline (pieces source.toList)).repeated = name :: others) :
    extract source file .error = ([], .error (.duplicateName file name)) := by
  rw [extract_of_le hsize]
  simp only [Outline.extract, h]

theorem extract_of_tooLarge (h : maxSourceSize < source.utf8ByteSize) :
    extract source file .error = extract source file .lastWins := by
  rw [extract, extract, if_pos h, if_pos h]

/-- The first name that is given again is that of a cut, after cuts with distinct names. -/
theorem exists_givenAgain {name : String} {others : List String}
    (h : (outline (pieces source.toList)).repeated = name :: others) :
    ∃ earlier again later, (outline (pieces source.toList)).cuts = earlier ++ again :: later ∧
      GivenAgain source name earlier again := by
  obtain ⟨hfirst, hdeclared, -⟩ := firstCuts_outline source
  obtain ⟨names, rest, hnames, hdistinct, hgiven⟩ := exists_of_repeats h
  rw [← Outline.map_name_cuts] at hnames
  obtain ⟨earlier, tail, hcuts, rfl, htail⟩ := List.map_eq_append_iff.mp hnames
  obtain ⟨again, later, rfl, hname, -⟩ := List.map_eq_cons_iff.mp htail
  have hsplit : (outline (pieces source.toList)).cuts = (earlier ++ [again]) ++ later := by
    rw [hcuts]
    simp
  rw [hsplit] at hfirst hdeclared
  refine ⟨earlier, again, later, hcuts, (firstCuts_append.mp hfirst).1, ?_, hdistinct, hname, hgiven⟩
  exact fun cut hcut => hdeclared cut (List.mem_append_left later hcut)

/-- Behind the block that has a name again, extraction that lets the last one win comes upon a block
that it refuses, or gives the name to one component. -/
theorem extract_lastWins_of_givenAgain (hsize : source.utf8ByteSize ≤ maxSourceSize) {name : String}
    {earlier later : List Cut} {again : Cut}
    (hcuts : (outline (pieces source.toList)).cuts = earlier ++ again :: later)
    (h : GivenAgain source name earlier again) (file : Path) :
    (∃ later failure, FirstCuts source again.stop later ∧
      RefusesNext source (endOfCuts again.stop later) file failure ∧
      (extract source file .lastWins).2 = .error failure) ∨
    ∃ e, (extract source file .lastWins).2 = .ok e ∧
      (e.components.map SubComponent.name).count name = 1 := by
  obtain ⟨hfirst, -, hrefused⟩ := firstCuts_outline source
  have hlast := @extract_lastWins_eq source file hsize
  let o := outline (pieces source.toList)
  cases hf : o.failure? file with
  | some failure =>
    have hrefuses := hrefused file failure hf
    rw [hf] at hlast
    rw [hcuts] at hfirst hrefuses
    rw [endOfCuts_append] at hrefuses
    exact .inl ⟨later, failure, (firstCuts_append.mp hfirst).2.2, hrefuses, hlast⟩
  | none =>
    rw [hf] at hlast
    refine .inr ⟨_, hlast, ?_⟩
    have hmem : name ∈ o.cuts.map Cut.name := by
      rw [hcuts, List.map_append]
      exact List.mem_append_left _ h.given
    obtain ⟨b, hb, hname⟩ := List.mem_map.mp (o.map_name_cuts ▸ hmem)
    obtain ⟨c, hc, hcname⟩ := Outline.exists_component_of_mem_blocks hb file
    exact List.count_eq_one_of_mem (o.nodup_names file)
      (List.mem_map.mpr ⟨c, hc, hcname.trans hname⟩)

/-- Letting the last one win, extraction never complains of a name given again. -/
theorem extract_lastWins_ne_duplicateName (source : String) (file : Path) (name : String) :
    (extract source file .lastWins).2 ≠ .error (.duplicateName file name) := by
  intro h
  by_cases hsize : source.utf8ByteSize ≤ maxSourceSize
  · rw [extract_lastWins_eq hsize] at h
    split at h
    · next failure hf =>
      obtain ⟨stop, -, rfl⟩ := Option.map_eq_some_iff.mp hf
      cases stop <;> cases h
    · cases h
  · rw [extract, if_pos (by omega)] at h
    cases h

/-- The policies give the same, unless a name is given again in a source whose size is allowed. -/
theorem extract_error_cases (source : String) (file : Path) :
    extract source file .error = extract source file .lastWins ∨
      source.utf8ByteSize ≤ maxSourceSize ∧ ∃ name others,
        (outline (pieces source.toList)).repeated = name :: others ∧
        extract source file .error = ([], .error (.duplicateName file name)) := by
  by_cases hsize : source.utf8ByteSize ≤ maxSourceSize
  · cases hr : (outline (pieces source.toList)).repeated with
    | nil => exact .inl (extract_of_repeated_nil hr)
    | cons name others =>
      exact .inr ⟨hsize, name, others, rfl, extract_of_repeated_cons hsize hr⟩
  · exact .inl (extract_of_tooLarge (by omega))

end Policies

/-- The two policies differ only where a name is given again before any block is refused. There the
one fails, and the other goes on: to a later block that it refuses, or to a result with one
component of that name. -/
theorem extract_policies (source : String) (file : Path) :
    (∀ events e, extract source file .error = (events, .ok e) →
      extract source file .lastWins = (events, .ok e)) ∧
    (∀ events failure, extract source file .error = (events, .error failure) →
      (∀ name, failure ≠ .duplicateName file name) →
      extract source file .lastWins = (events, .error failure)) ∧
    (∀ name, (extract source file .error).2 = .error (.duplicateName file name) →
      ∃ earlier again, GivenAgain source name earlier again ∧
        ((∃ later failure, FirstCuts source again.stop later ∧
          RefusesNext source (endOfCuts again.stop later) file failure ∧
          (extract source file .lastWins).2 = .error failure) ∨
        ∃ e, (extract source file .lastWins).2 = .ok e ∧
          (e.components.map SubComponent.name).count name = 1)) ∧
    (∀ failure, (extract source file .lastWins).2 = .error failure →
      ∃ other, (extract source file .error).2 = .error other) := by
  rcases extract_error_cases source file with hsame | ⟨hsize, name, others, hrepeated, herror⟩
  · rw [hsame]
    refine ⟨fun _ _ h => h, fun _ _ h _ => h, ?_, fun failure h => ⟨failure, h⟩⟩
    exact fun name h => absurd h (extract_lastWins_ne_duplicateName source file name)
  · rw [herror]
    refine ⟨?_, ?_, ?_, fun _ _ => ⟨_, rfl⟩⟩
    · intro events e h
      cases h
    · intro events failure h hne
      cases h
      exact absurd rfl (hne name)
    · intro other h
      cases h
      obtain ⟨earlier, again, later, hcuts, hgiven⟩ := exists_givenAgain hrepeated
      exact ⟨earlier, again, hgiven, extract_lastWins_of_givenAgain hsize hcuts hgiven file⟩

/-- A name given again comes before a block that is refused. -/
theorem extract_policies_refused_later :
    let source := "<template name=A>é</template><template name=A></template><template name=b>"
    let file : Path := ⟨"/P.svelte"⟩
    (extract source file .error).2 = .error (.duplicateName file "A") ∧
      (extract source file .lastWins).2 = .error (.invalidName file "b") ∧
      ∃ earlier again, GivenAgain source "A" earlier again ∧
        ((∃ later failure, FirstCuts source again.stop later ∧
          RefusesNext source (endOfCuts again.stop later) file failure ∧
          (extract source file .lastWins).2 = .error failure) ∨
        ∃ e, (extract source file .lastWins).2 = .ok e ∧
          (e.components.map SubComponent.name).count "A" = 1) := by
  intro source file
  let read : List Piece := [.opening " name=A".toList, .text ['é'], .closing [],
    .opening " name=A".toList, .closing [], .opening " name=b".toList]
  have hsize : source.utf8ByteSize ≤ maxSourceSize := by decide +kernel
  have hread : pieces source.toList = read := by decide +kernel
  have hrepeated : (outline read).repeated = ["A"] := by decide +kernel
  have hstop : (outline read).stop = some (.invalidName "b") := by decide +kernel
  have herror : (extract source file .error).2 = .error (.duplicateName file "A") := by
    rw [extract_of_le hsize, hread]
    simp only [Outline.extract, hrepeated]
  have hlast : (extract source file .lastWins).2 = .error (.invalidName file "b") := by
    rw [extract_of_le hsize, hread]
    simp only [Outline.extract, hrepeated, Outline.failure?, hstop, Option.map_some]
  exact ⟨herror, hlast, (extract_policies source file).2.2.1 "A" herror⟩

end InlineComponents
