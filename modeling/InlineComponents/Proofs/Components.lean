import InlineComponents.Extraction
import InlineComponents.Proofs.Reading
import InlineComponents.Proofs.Segments
import Mathlib.Data.List.Induction

namespace InlineComponents

theorem eraseDups_concat (names : List String) (name : String) :
    (names ++ [name]).eraseDups =
      if name ∈ names then names.eraseDups else names.eraseDups ++ [name] := by
  rw [List.eraseDups_append]
  by_cases h : name ∈ names
  · have he : List.removeAll [name] names = [] := by simpa [List.removeAll] using h
    simp [h, he]
  · have he : List.removeAll [name] names = [name] := by simpa [List.removeAll] using h
    rw [if_neg h, he]
    rfl

theorem nodup_eraseDups (names : List String) : names.eraseDups.Nodup := by
  induction names using List.reverseRecOn with
  | nil => simp
  | append_singleton names name ih =>
    rw [eraseDups_concat]
    split
    · exact ih
    · next h =>
      refine List.nodup_append.mpr ⟨ih, by simp, ?_⟩
      intro a ha b hb hab
      obtain rfl := List.mem_singleton.mp hb
      exact h (List.mem_eraseDups.mp (hab ▸ ha))

theorem map_name_putComponent (c : SubComponent) (cs : List SubComponent) :
    (putComponent c cs).map SubComponent.name =
      if c.name ∈ cs.map SubComponent.name then cs.map SubComponent.name
      else cs.map SubComponent.name ++ [c.name] := by
  induction cs with
  | nil => rfl
  | cons old others ih =>
    by_cases h : old.name = c.name
    · simp [putComponent, h]
    · have hn : c.name ≠ old.name := fun he => h he.symm
      simp only [putComponent, if_neg h, List.map_cons, ih, List.mem_cons, hn, false_or]
      split <;> rfl

/-- A component put there replaces the one of its name, and no other. -/
theorem mem_putComponent {c d : SubComponent} {cs : List SubComponent}
    (h : (cs.map SubComponent.name).Nodup) :
    d ∈ putComponent c cs ↔ d = c ∨ d ∈ cs ∧ d.name ≠ c.name := by
  induction cs with
  | nil => simp [putComponent]
  | cons old others ih =>
    rw [List.map_cons, List.nodup_cons] at h
    by_cases ho : old.name = c.name
    · have hd : d ∈ others → d.name ≠ c.name := by
        intro hm he
        exact h.1 (List.mem_map.mpr ⟨d, hm, he.trans ho.symm⟩)
      rw [putComponent, if_pos ho, List.mem_cons, List.mem_cons]
      constructor
      · rintro (rfl | hm)
        · exact .inl rfl
        · exact .inr ⟨.inr hm, hd hm⟩
      · rintro (rfl | ⟨rfl | hm, hn⟩)
        · exact .inl rfl
        · exact absurd ho hn
        · exact .inr hm
    · rw [putComponent, if_neg ho, List.mem_cons, ih h.2, List.mem_cons]
      constructor
      · rintro (rfl | rfl | ⟨hm, hn⟩)
        · exact .inr ⟨.inl rfl, ho⟩
        · exact .inl rfl
        · exact .inr ⟨.inr hm, hn⟩
      · rintro (rfl | ⟨rfl | hm, hn⟩)
        · exact .inr (.inl rfl)
        · exact .inl rfl
        · exact .inr (.inr ⟨hm, hn⟩)

/-- What a block is named and what it holds. -/
def Block.entry (b : Block) : String × String :=
  (b.name, String.ofList (render b.body))

/-- The names in the order in which they were first given, each with the last body of it. -/
theorem foldl_putComponent (naming : ArtifactNaming) (blocks : List Block) :
    let cs := blocks.foldl (fun cs b => putComponent (b.component naming) cs) []
    cs.map SubComponent.name = (blocks.map Block.name).eraseDups ∧
      ∀ c, c ∈ cs ↔ c.path = naming.path c.name ∧
        (blocks.map Block.entry).reverse.lookup c.name = some c.body := by
  induction blocks using List.reverseRecOn with
  | nil => simp
  | append_singleton blocks b ih =>
    obtain ⟨hn, hm⟩ := ih
    simp only [List.foldl_append, List.foldl_cons, List.foldl_nil]
    generalize blocks.foldl (fun cs b => putComponent (b.component naming) cs) [] = cs at hn hm
    refine ⟨?_, fun c => ?_⟩
    · rw [map_name_putComponent, hn, List.map_append, List.map_singleton, eraseDups_concat]
      simp only [Block.component, List.mem_eraseDups]
    · rw [mem_putComponent (hn ▸ nodup_eraseDups _), hm, List.map_append, List.map_singleton,
        List.reverse_append, List.reverse_singleton, List.singleton_append, Block.entry,
        List.lookup_cons]
      by_cases h : c.name = b.name
      · simp only [h, BEq.rfl, Option.some.injEq]
        constructor
        · rintro (rfl | ⟨-, hc⟩)
          · exact ⟨rfl, rfl⟩
          · exact absurd rfl hc
        · rintro ⟨hp, hb⟩
          refine .inl ?_
          cases c
          simp_all [Block.component]
      · rw [beq_false_of_ne h]
        constructor
        · rintro (rfl | ⟨he, -⟩)
          · exact absurd rfl h
          · exact he
        · intro he
          exact .inr ⟨he, h⟩

namespace Outline

def entries (o : Outline) : List (String × String) :=
  o.blocks.map Block.entry

theorem components_names (o : Outline) (file : Path) :
    (o.components file).map SubComponent.name = (o.entries.map Prod.fst).eraseDups := by
  rw [entries, List.map_map]
  exact (foldl_putComponent _ o.blocks).1

/-- The component of a name has the body of the last block of that name. -/
theorem mem_components_iff {o : Outline} {file : Path} {c : SubComponent} :
    c ∈ o.components file ↔ c.path = artifactPath file c.name ∧
      o.entries.reverse.lookup c.name = some c.body :=
  (foldl_putComponent (.ofParent file) o.blocks).2 c

/-- A component is that of a block. -/
theorem exists_entry_of_mem_components {o : Outline} {file : Path} {c : SubComponent}
    (h : c ∈ o.components file) : ∃ b ∈ o.blocks, b.entry = (c.name, c.body) := by
  obtain ⟨-, hbody⟩ := mem_components_iff.mp h
  obtain ⟨earlier, later, hentries, -⟩ := List.lookup_eq_some_iff.mp hbody
  have hentry : (c.name, c.body) ∈ o.entries := by
    rw [← List.mem_reverse, hentries]
    simp
  exact List.mem_map.mp hentry

/-- Every block's name is that of a component. -/
theorem exists_component_of_mem_blocks {o : Outline} {b : Block} (h : b ∈ o.blocks)
    (file : Path) : ∃ c ∈ o.components file, c.name = b.name := by
  apply List.mem_map.mp
  rw [components_names, List.mem_eraseDups]
  exact List.mem_map_of_mem (List.mem_map_of_mem h)

theorem nodup_names (o : Outline) (file : Path) :
    ((o.components file).map SubComponent.name).Nodup := by
  rw [components_names]
  exact nodup_eraseDups _

end Outline

theorem isDeclaredName_of_mem_components {ps : List Piece} {file : Path} {c : SubComponent}
    (h : c ∈ (outline ps).components file) : isDeclaredName c.name = true := by
  have hname : c.name ∈ (outline ps).entries.map Prod.fst := by
    apply List.mem_eraseDups.mp
    rw [← Outline.components_names _ file]
    exact List.mem_map_of_mem h
  rw [Outline.entries, List.map_map] at hname
  obtain ⟨b, hb, hn⟩ := List.mem_map.mp hname
  rw [← hn]
  exact (sound_of_mem_blocks hb).declared

theorem failure?_eq_none_iff {o : Outline} {file : Path} :
    o.failure? file = none ↔ o.stop = none := by
  simp [Outline.failure?]

/-- A source that is not too large is extracted by its pieces. -/
theorem extract_of_le {source : String} (hsize : source.utf8ByteSize ≤ maxSourceSize) (file : Path)
    (policy : DuplicatePolicy) :
    extract source file policy = (outline (pieces source.toList)).extract file policy := by
  rw [extract, if_neg (Nat.not_lt.mpr hsize)]

/-- An extraction that is given is that of an outline without a stop. -/
theorem extract_eq_ok {source : String} {file : Path} {policy : DuplicatePolicy} {e : Extraction}
    (h : (extract source file policy).2 = .ok e) :
    (outline (pieces source.toList)).stop = none ∧
      e = (outline (pieces source.toList)).extraction file := by
  unfold extract at h
  split at h
  · cases h
  · unfold Outline.extract at h
    split at h
    · cases h
    · dsimp only at h
      split at h
      · cases h
      · next hf => exact ⟨failure?_eq_none_iff.mp hf, (Except.ok.inj h).symm⟩

/-- Without a stop, and if a name given again is no failure, an extraction is given. -/
theorem extract_lastWins {source : String} {file : Path}
    (hsize : source.utf8ByteSize ≤ maxSourceSize)
    (hstop : (outline (pieces source.toList)).stop = none) :
    (extract source file .lastWins).2 = .ok ((outline (pieces source.toList)).extraction file) := by
  have hf : (outline (pieces source.toList)).failure? file = none :=
    failure?_eq_none_iff.mpr hstop
  rw [extract_of_le hsize]
  cases hr : (outline (pieces source.toList)).repeated <;> simp [Outline.extract, hf]

theorem repeats_go_eq_nil_iff {seen found names : List String} :
    repeats.go seen found names = [] ↔
      found = [] ∧ names.Nodup ∧ ∀ name ∈ names, name ∉ seen := by
  induction names generalizing seen found with
  | nil => simp [repeats.go]
  | cons name names ih =>
    rw [repeats.go, List.nodup_cons]
    split
    · next hs =>
      have hname : name ∈ seen := by simpa using hs
      rw [ih]
      constructor
      · rintro ⟨hnil, -⟩
        cases hnil
      · rintro ⟨-, -, hnone⟩
        exact absurd hname (hnone name List.mem_cons_self)
    · next hs =>
      have hname : name ∉ seen := by simpa using hs
      rw [ih]
      refine and_congr_right fun _ => ⟨?_, ?_⟩
      · rintro ⟨hnodup, hnone⟩
        refine ⟨⟨fun hm => hnone name hm List.mem_cons_self, hnodup⟩, ?_⟩
        intro other hm
        rcases List.mem_cons.mp hm with rfl | hm
        · exact hname
        · exact fun ho => hnone other hm (List.mem_cons_of_mem name ho)
      · rintro ⟨⟨hm, hnodup⟩, hnone⟩
        refine ⟨hnodup, fun other ho hc => ?_⟩
        rcases List.mem_cons.mp hc with rfl | hc
        · exact hm ho
        · exact hnone other (List.mem_cons_of_mem name ho) hc

theorem repeats_eq_nil_iff {names : List String} : repeats names = [] ↔ names.Nodup := by
  simp [repeats, repeats_go_eq_nil_iff]

/-- An extraction is given without a word where no block is refused and no name given again. -/
theorem extract_eq_quiet_iff {source : String} {file : Path} {policy : DuplicatePolicy}
    {e : Extraction} : extract source file policy = ([], .ok e) ↔
      source.utf8ByteSize ≤ maxSourceSize ∧ (outline (pieces source.toList)).stop = none ∧
        ((outline (pieces source.toList)).blocks.map Block.name).Nodup ∧
        e = (outline (pieces source.toList)).extraction file := by
  constructor
  · intro h
    obtain ⟨hstop, he⟩ := extract_eq_ok (congrArg Prod.snd h)
    unfold extract at h
    split at h
    · cases h
    · next hsize =>
      refine ⟨by omega, hstop, repeats_eq_nil_iff.mp ?_, he⟩
      unfold Outline.extract at h
      split at h
      · cases h
      · exact List.map_eq_nil_iff.mp (Prod.mk.inj h).1
  · rintro ⟨hsize, hstop, hnodup, rfl⟩
    have hrepeated : (outline (pieces source.toList)).repeated = [] :=
      repeats_eq_nil_iff.mpr hnodup
    have hf : (outline (pieces source.toList)).failure? file = none :=
      failure?_eq_none_iff.mpr hstop
    rw [extract_of_le hsize]
    cases policy <;> simp only [Outline.extract, hrepeated, hf, List.map_nil]

end InlineComponents
