import InlineComponents.Naming
import InlineComponents.Proofs.NormalPaths
import InlineComponents.Proofs.Reading

namespace InlineComponents

theorem isPrefixOf_dot_append {s : List Char} (h : '.' ∉ s) (t : List Char) :
    ∀ rest, rest <:+ s → rest ≠ [] → ['.'].isPrefixOf (rest ++ t) = false := by
  intro rest hs hr
  obtain ⟨c, rest, rfl⟩ := List.exists_cons_of_ne_nil hr
  have hc : '.' ≠ c := by
    rintro rfl
    exact h (hs.subset List.mem_cons_self)
  simpa [List.isPrefixOf] using hc

theorem splitLast_dot_append {s t : List Char} (h : '.' ∉ t) :
    splitLast ['.'] (s ++ '.' :: t) = some (s, t) := by
  have hb : breakAt (['.'].isPrefixOf ·) (t.reverse ++ '.' :: s.reverse) =
      some (t.reverse, '.' :: s.reverse) :=
    breakAt_append_eq_some (List.cons_ne_nil _ _) rfl
      (isPrefixOf_dot_append (fun ht => h (List.mem_reverse.mp ht)) _)
  have hr : (s ++ '.' :: t).reverse = t.reverse ++ '.' :: s.reverse := by simp
  rw [splitLast, hr]
  simp only [List.reverse_singleton, hb]
  simp

theorem splitLast_dot_of_notMem {s : List Char} (h : '.' ∉ s) : splitLast ['.'] s = none := by
  have hb : breakAt (['.'].isPrefixOf ·) (s.reverse ++ []) = none := by
    rw [breakAt_append_left (isPrefixOf_dot_append (fun hs => h (List.mem_reverse.mp hs)) [])]
    rfl
  rw [List.append_nil] at hb
  rw [splitLast, List.reverse_singleton, hb]
  rfl

/-- A file name told apart into a stem and, after its last dot, an extension. -/
def IsSplitName (name : List Char) : List Char → Option (List Char) → Prop
  | stem, none => stem = name ∧ '.' ∉ name.tail
  | stem, some extension => stem ≠ [] ∧ name = stem ++ '.' :: extension ∧ '.' ∉ extension

theorem isSplitName_splitExtension (name : String) :
    IsSplitName name.toList (Path.splitExtension name).1.toList
      ((Path.splitExtension name).2.map String.toList) := by
  by_cases h : '.' ∈ name.toList
  · obtain ⟨after, before, hr, ha⟩ := List.eq_append_cons_of_mem (List.mem_reverse.mpr h)
    have hn : name.toList = before.reverse ++ '.' :: after.reverse := by
      rw [← List.reverse_reverse name.toList, hr]
      simp
    have hafter : '.' ∉ after.reverse := by simpa using ha
    rw [Path.splitExtension, hn, splitLast_dot_append hafter]
    cases hb : before.reverse with
    | nil =>
      rw [hb] at hn
      exact ⟨by simpa using hn, by simpa using hafter⟩
    | cons c stem => exact ⟨by simp, by simp, by simpa using ha⟩
  · rw [Path.splitExtension, splitLast_dot_of_notMem h]
    exact ⟨rfl, fun ht => h (List.mem_of_mem_tail ht)⟩

theorem IsSplitName.unique {name stem stem' : List Char} {extension extension' : Option (List Char)}
    (h : IsSplitName name stem extension) (h' : IsSplitName name stem' extension') :
    stem = stem' ∧ extension = extension' := by
  -- a dot after the first character begins an extension
  have hdot {s e : List Char} (hs : s ≠ []) : '.' ∈ (s ++ '.' :: e).tail := by
    obtain ⟨c, s, rfl⟩ := List.exists_cons_of_ne_nil hs
    simp
  match extension, extension' with
  | none, none => exact ⟨h.1.trans h'.1.symm, rfl⟩
  | none, some e' => exact absurd (h'.2.1 ▸ hdot h'.1) h.2
  | some e, none => exact absurd (h.2.1 ▸ hdot h.1) h'.2
  | some e, some e' =>
    have he : splitLast ['.'] name = some (stem, e) := by
      rw [h.2.1]
      exact splitLast_dot_append h.2.2
    have he' : splitLast ['.'] name = some (stem', e') := by
      rw [h'.2.1]
      exact splitLast_dot_append h'.2.2
    rw [he] at he'
    obtain ⟨rfl, rfl⟩ : stem = stem' ∧ e = e' := by simpa using he'
    exact ⟨rfl, rfl⟩

theorem IsSplitName.name_unique {name name' stem : List Char} {extension : Option (List Char)}
    (h : IsSplitName name stem extension) (h' : IsSplitName name' stem extension) :
    name = name' := by
  cases extension with
  | none => exact h.1.symm.trans h'.1
  | some extension => exact h.2.1.trans h'.2.1.symm

theorem IsSplitName.stem_ne_nil {name stem : List Char} {extension : Option (List Char)}
    (h : IsSplitName name stem extension) (hn : name ≠ []) : stem ≠ [] := by
  cases extension with
  | none => exact h.1 ▸ hn
  | some extension => exact h.1

theorem isSplitName_of_fileName {p : Path} {name : String} (h : p.fileName = some name) :
    IsSplitName name.toList (p.fileStem.getD "").toList (p.extension.map String.toList) := by
  have hsplit := isSplitName_splitExtension name
  rw [Path.fileStem, Path.extension, h]
  exact hsplit

theorem fileStem_of_fileName_none {p : Path} (h : p.fileName = none) :
    p.fileStem.getD "" = "" ∧ p.extension = none := by
  simp [Path.fileStem, Path.extension, h]

/-- A path's file name is known by its stem and its extension. -/
theorem fileName_eq_of_splits {p q : Path} (hstem : p.fileStem.getD "" = q.fileStem.getD "")
    (hext : p.extension = q.extension) : p.fileName = q.fileName := by
  have hone {p q : Path} {name : String} (hstem : p.fileStem.getD "" = q.fileStem.getD "")
      (hp : p.fileName = some name) : q.fileName ≠ none := by
    intro hq
    have hne := (isSplitName_of_fileName hp).stem_ne_nil (Path.parts_of_fileName hp).1.ne_nil
    rw [hstem, (fileStem_of_fileName_none hq).1] at hne
    exact hne rfl
  cases hp : p.fileName with
  | none =>
    cases hq : q.fileName with
    | none => rfl
    | some name => exact absurd hp (hone hstem.symm hq)
  | some name =>
    cases hq : q.fileName with
    | none => exact absurd hq (hone hstem hp)
    | some name' =>
      have hsplit := isSplitName_of_fileName hp
      rw [hstem, hext] at hsplit
      exact congrArg some (String.toList_inj.mp (hsplit.name_unique (isSplitName_of_fileName hq)))

theorem toList_separator : separator.toList = ['_', '_'] := by
  decide

structure IsDeclared (name : List Char) : Prop where
  starts : ∃ c cs, name = c :: cs ∧ isUpper c = true
  wordChars : ∀ c ∈ name, isWordChar c = true
  noSeparator : ¬ ['_', '_'] <:+: name

theorem isDeclared_of_isDeclaredName {name : String} (h : isDeclaredName name = true) :
    IsDeclared name.toList := by
  unfold isDeclaredName at h
  split at h
  · simp at h
  · next c cs hc =>
    simp only [Bool.and_eq_true, Bool.not_eq_true', occursIn, Bool.or_eq_false_iff] at h
    obtain ⟨⟨hupper, hword⟩, -, hnone⟩ := h
    rw [hc]
    refine ⟨⟨c, cs, rfl, hupper⟩, ?_, ?_⟩
    · intro d hd
      rcases List.mem_cons.mp hd with rfl | hd
      · simp [isWordChar, hupper]
      · exact List.all_eq_true.mp hword d hd
    · rintro ⟨before, after, hi⟩
      have hbreak : breakAt (separator.toList.isPrefixOf ·) (c :: cs) = none := by simpa using hnone
      have hsuffix : ['_', '_'] ++ after <:+ c :: cs := ⟨before, by rw [← hi, List.append_assoc]⟩
      have hno := breakAt_eq_none hbreak _ hsuffix (by simp)
      rw [toList_separator, List.isPrefixOf_iff_prefix.mpr (List.prefix_append _ after)] at hno
      exact Bool.noConfusion hno

theorem IsDeclared.separator_eq_nil {name name' beyond : List Char} (h : IsDeclared name)
    (he : '_' :: '_' :: name = beyond ++ '_' :: '_' :: name') : beyond = [] := by
  match beyond with
  | [] => rfl
  | [_] =>
    obtain ⟨c, cs, hc, hupper⟩ := h.starts
    simp only [List.cons_append, List.nil_append, List.cons.injEq, true_and, hc] at he
    obtain rfl := he.2.1
    exact absurd hupper (by decide)
  | _ :: _ :: beyond =>
    simp only [List.cons_append, List.cons.injEq] at he
    exact absurd ⟨beyond, name', by simp [he.2.2]⟩ h.noSeparator

/-- The last separator in front of a declared name tells the stem. -/
theorem separator_append_inj {stem stem' name name' : List Char} (h : IsDeclared name)
    (h' : IsDeclared name')
    (he : stem ++ '_' :: '_' :: name = stem' ++ '_' :: '_' :: name') :
    stem = stem' ∧ name = name' := by
  rcases List.append_eq_append_iff.mp he with ⟨beyond, rfl, ho⟩ | ⟨beyond, rfl, ho⟩
  · obtain rfl := h.separator_eq_nil ho
    simpa using ho
  · obtain rfl := h'.separator_eq_nil ho
    simpa using ho.symm

theorem toList_artifactFileName (parent : Path) (name : String) :
    (artifactFileName parent name).toList =
      (parent.fileStem.getD "").toList ++ '_' :: '_' :: name.toList ++
        (match parent.extension with
          | some extension => '.' :: extension.toList
          | none => []) := by
  simp only [artifactFileName, ArtifactNaming.fileName, ArtifactNaming.ofParent,
    String.toList_append, toList_separator]
  cases parent.extension <;> simp

/-- The stem and the extension of an artifact's file name are those of its parent's, with the
declared name after the stem. -/
theorem isSplitName_artifactFileName {parent : Path} {name : String} (h : IsDeclared name.toList) :
    IsSplitName (artifactFileName parent name).toList
      ((parent.fileStem.getD "").toList ++ '_' :: '_' :: name.toList)
      (parent.extension.map String.toList) := by
  have hdot : '.' ∉ name.toList := by
    intro hm
    exact absurd (h.wordChars _ hm) (by decide)
  have hbare {stem : List Char} (hs : '.' ∉ stem.tail) :
      IsSplitName (stem ++ '_' :: '_' :: name.toList ++ []) (stem ++ '_' :: '_' :: name.toList)
        none := by
    refine ⟨(List.append_nil _).symm, ?_⟩
    cases stem <;> simp_all
  rw [toList_artifactFileName]
  cases hf : parent.fileName with
  | none =>
    obtain ⟨hs, hx⟩ := fileStem_of_fileName_none hf
    rw [hs, hx]
    exact hbare (by simp)
  | some fileName =>
    have hsplit := isSplitName_of_fileName hf
    cases hx : parent.extension with
    | none =>
      rw [hx] at hsplit
      refine hbare ?_
      rw [hsplit.1]
      exact hsplit.2
    | some extension =>
      rw [hx] at hsplit
      exact ⟨by simp, rfl, hsplit.2.2⟩

theorem isName_of_mem {s : List Char} (h : '_' ∈ s) : Path.isName s = true := by
  have hne {t : List Char} (ht : '_' ∉ t) : s ≠ t := by
    rintro rfl
    exact ht h
  have hnil := hne (List.not_mem_nil)
  have hdot : s ≠ ['.'] := hne (by decide)
  have hup : s ≠ ['.', '.'] := hne (by decide)
  simp [Path.isName, Path.isIdle, hnil, hdot, hup]

theorem slash_notMem_splits (p : Path) :
    '/' ∉ (p.fileStem.getD "").toList ∧ ∀ e ∈ p.extension, '/' ∉ e.toList := by
  cases hf : p.fileName with
  | none =>
    obtain ⟨hs, hx⟩ := fileStem_of_fileName_none hf
    rw [hs, hx]
    simp
  | some name =>
    have hslash := (Path.parts_of_fileName hf).1.noSlash
    have hsplit := isSplitName_of_fileName hf
    cases hx : p.extension with
    | none =>
      rw [hx] at hsplit
      rw [hsplit.1]
      exact ⟨hslash, by simp⟩
    | some extension =>
      rw [hx] at hsplit
      rw [hsplit.2.1] at hslash
      simp_all

theorem isEntryName_artifactFileName {parent : Path} {name : String} (h : IsDeclared name.toList) :
    Path.IsEntryName (artifactFileName parent name).toList := by
  have hslash : '/' ∉ name.toList := by
    intro hm
    exact absurd (h.wordChars _ hm) (by decide)
  obtain ⟨hstem, hext⟩ := slash_notMem_splits parent
  rw [toList_artifactFileName]
  refine ⟨isName_of_mem (by simp), ?_⟩
  cases hx : parent.extension with
  | none => simp [hstem, hslash]
  | some extension => simp [hstem, hslash, hext extension hx]

/-- The components of an artifact's path, in normal form. -/
theorem normalParts_artifactPath {parent : Path} {name : String} (h : IsDeclared name.toList) :
    (artifactPath parent name).normalParts =
      parent.place.normalParts ++ [.name (artifactFileName parent name)] :=
  Path.normalParts_of_parts_append (Path.parts_join (isEntryName_artifactFileName h) parent.place)

theorem clean_eq_of_place {p q : Path} (hplace : p.place.normalParts = q.place.normalParts)
    (hname : p.fileName = q.fileName) : p.clean = q.clean := by
  cases hp : p.fileName with
  | none =>
    have hq := hname.symm.trans hp
    apply Path.clean_eq_clean_iff.mpr
    simpa [Path.place, hp, hq] using hplace
  | some name =>
    have hq := hname.symm.trans hp
    exact (Path.clean_eq_iff_of_fileName hp hq).mpr ⟨hplace, rfl⟩

/-- Components with the same cleaned artifact path have the same name, and parents that are the
same path once they are cleaned. -/
theorem artifactPath_clean_inj {parent parent' : Path} {name name' : String}
    (hn : isDeclaredName name = true) (hn' : isDeclaredName name' = true)
    (h : (artifactPath parent name).clean = (artifactPath parent' name').clean) :
    parent.clean = parent'.clean ∧ name = name' := by
  have hd := isDeclared_of_isDeclaredName hn
  have hd' := isDeclared_of_isDeclaredName hn'
  have hparts := Path.clean_eq_clean_iff.mp h
  rw [normalParts_artifactPath hd, normalParts_artifactPath hd'] at hparts
  obtain ⟨hplace, hfile⟩ := List.append_inj' hparts rfl
  have hfile : artifactFileName parent name = artifactFileName parent' name' := by simpa using hfile
  have hsplit : IsSplitName (artifactFileName parent name).toList _ _ :=
    isSplitName_artifactFileName hd
  rw [hfile] at hsplit
  obtain ⟨hstem, hext⟩ := hsplit.unique (isSplitName_artifactFileName hd')
  obtain ⟨hstem, hname⟩ := separator_append_inj hd hd' hstem
  refine ⟨clean_eq_of_place hplace (fileName_eq_of_splits (String.toList_inj.mp hstem) ?_),
    String.toList_inj.mp hname⟩
  exact Option.map_injective (fun _ _ => String.toList_inj.mp) hext

end InlineComponents
