import InlineComponents.Imports
import InlineComponents.Proofs.PathParts
import InlineComponents.Proofs.WrittenAttributes

namespace InlineComponents

section Words

variable {blank : Char → Bool} {s t w : List Char} {x : Char}

theorem words_go_found (word : List Char) (found : List (List Char)) (s : List Char) :
    words.go blank word found s = found.reverse ++ words.go blank word [] s := by
  induction s generalizing word found with
  | nil =>
    rw [words.go, words.go]
    split <;> simp
  | cons c s ih =>
    unfold words.go
    split
    · rw [ih, ih _ (if word = [] then [] else _)]
      split <;> simp
    · exact ih ..

theorem words_go_append_cons (hx : blank x = true) (word : List Char) :
    words.go blank word [] (s ++ x :: t) = words.go blank word [] s ++ words blank t := by
  induction s generalizing word with
  | nil =>
    rw [List.nil_append, words.go, words.go, if_pos hx, words_go_found]
    rfl
  | cons c s ih =>
    rw [List.cons_append]
    unfold words.go
    split
    · rw [words_go_found, ih, words_go_found _ (if word = [] then [] else _) s, List.append_assoc]
    · exact ih _

/-- A blank ends the word before it. -/
theorem words_append_cons (hx : blank x = true) :
    words blank (s ++ x :: t) = words blank s ++ words blank t :=
  words_go_append_cons hx []

theorem words_append (ht : t.head?.all blank = true) :
    words blank (s ++ t) = words blank s ++ words blank t := by
  cases t with
  | nil => simp [words, words.go]
  | cons x t =>
    have hx : blank x = true := by simpa using ht
    have hcons : words blank (x :: t) = words blank t := words_append_cons (s := []) hx
    rw [words_append_cons hx, hcons]

theorem words_append_of_all (hs : ∀ c ∈ s, blank c = true) :
    words blank (s ++ t) = words blank t := by
  induction s with
  | nil => rfl
  | cons c s ih =>
    have hcons : words blank (c :: (s ++ t)) = words blank (s ++ t) :=
      words_append_cons (s := []) (hs c List.mem_cons_self)
    rw [List.cons_append, hcons, ih fun d hd => hs d (List.mem_cons_of_mem c hd)]

theorem words_of_all (hs : ∀ c ∈ s, blank c = true) : words blank s = [] := by
  have hnil := words_append_of_all (t := []) hs
  rwa [List.append_nil] at hnil

theorem words_go_of_none (hw : ∀ c ∈ w, blank c = false) (word : List Char)
    (hne : word.reverse ++ w ≠ []) : words.go blank word [] w = [word.reverse ++ w] := by
  induction w generalizing word with
  | nil =>
    have hword : word ≠ [] := by simpa using hne
    simp [words.go, hword]
  | cons c w ih =>
    have hc : ¬ blank c = true := by simp [hw c List.mem_cons_self]
    rw [words.go, if_neg hc, ih (fun d hd => hw d (List.mem_cons_of_mem c hd)) _ (by simp)]
    simp

theorem words_of_none (hw : ∀ c ∈ w, blank c = false) (hne : w ≠ []) : words blank w = [w] :=
  words_go_of_none hw [] hne

theorem exists_of_mem_words_go {word : List Char} (h : w ∈ words.go blank word [] s) :
    (∃ m b, w = word.reverse ++ m ∧ s = m ++ b ∧ b.head?.all blank = true) ∨
      ∃ a x b, s = a ++ x :: (w ++ b) ∧ blank x = true ∧ b.head?.all blank = true := by
  induction s generalizing word with
  | nil =>
    rw [words.go] at h
    split at h
    · simp at h
    · exact .inl ⟨[], [], by simpa using h, rfl, rfl⟩
  | cons c s ih =>
    rw [words.go] at h
    split at h
    · next hc =>
      rw [words_go_found, List.mem_append] at h
      rcases h with hword | hlater
      · refine .inl ⟨[], c :: s, ?_, rfl, by simpa using hc⟩
        split at hword
        · simp at hword
        · simpa using hword
      · rcases ih hlater with ⟨m, b, rfl, rfl, hb⟩ | ⟨a, x, b, rfl, hx, hb⟩
        · exact .inr ⟨[], c, b, rfl, hc, hb⟩
        · exact .inr ⟨c :: a, x, b, rfl, hx, hb⟩
    · rcases ih h with ⟨m, b, rfl, rfl, hb⟩ | ⟨a, x, b, rfl, hx, hb⟩
      · exact .inl ⟨c :: m, b, by simp, rfl, hb⟩
      · exact .inr ⟨c :: a, x, b, rfl, hx, hb⟩

/-- A word begins the text or follows a blank, and ends the text or has a blank after it. -/
theorem exists_of_mem_words (h : w ∈ words blank s) :
    (∃ b, s = w ++ b ∧ b.head?.all blank = true) ∨
      ∃ a x b, s = a ++ x :: (w ++ b) ∧ blank x = true ∧ b.head?.all blank = true := by
  rcases exists_of_mem_words_go h with ⟨m, b, rfl, rfl, hb⟩ | hlater
  · exact .inl ⟨b, rfl, hb⟩
  · exact .inr hlater

/-- A word at the beginning has in it what a text without blanks at the beginning has in it. -/
theorem append_ne_append_of_notMem {b : List Char} {c : Char} (hs : ∀ c ∈ s, blank c = false)
    (hc : c ∈ s) (hw : c ∉ w) (hb : b.head?.all blank = true) : s ++ t ≠ w ++ b := by
  intro h
  rcases List.append_eq_append_iff.mp h with ⟨m, rfl, -⟩ | ⟨m, rfl, rfl⟩
  · exact hw (List.mem_append_left m hc)
  · cases m with
    | nil => exact hw (by simpa using hc)
    | cons y m =>
      have hy : blank y = true := by simpa using hb
      rw [hs y (by simp)] at hy
      cases hy

/-- A blank stands behind a text without blanks. -/
theorem exists_of_append_eq_append_cons {a u : List Char} (hs : ∀ c ∈ s, blank c = false)
    (hx : blank x = true) (h : s ++ t = a ++ x :: u) : ∃ a', t = a' ++ x :: u := by
  rcases List.append_eq_append_iff.mp h with ⟨a', -, ht⟩ | ⟨m, hm, hrest⟩
  · exact ⟨a', ht⟩
  · cases m with
    | nil => exact ⟨[], hrest.symm⟩
    | cons y m =>
      obtain ⟨rfl, -⟩ := List.cons_eq_cons.mp hrest
      have hnone : blank x = false := hs x (by simp [hm])
      rw [hx] at hnone
      cases hnone

end Words

/-- The word that marks a module's script, as it is found in the text of a tag: with any number of
slashes behind it. -/
def moduleWord (slashes : Nat) : List Char :=
  "module".toList ++ List.replicate slashes '/'

theorem dropTail_eq_module_iff {w : List Char} :
    dropTail (· = '/') w = "module".toList ↔ ∃ slashes, w = moduleWord slashes := by
  constructor
  · intro h
    obtain ⟨slashes, hw, hslashes⟩ := Path.exists_dropTail_append (· = '/') w
    rw [h] at hw
    have hall : slashes = List.replicate slashes.length '/' :=
      List.eq_replicate_of_mem (by simpa using hslashes)
    exact ⟨slashes.length, hw.trans (congrArg ("module".toList ++ ·) hall)⟩
  · rintro ⟨slashes, rfl⟩
    have hslashes : ∀ c ∈ List.replicate slashes '/', decide (c = '/') = true := by
      intro c hc
      simpa using List.eq_of_mem_replicate hc
    have hword : ("module".toList.reverse.dropWhile (· = '/')).reverse = "module".toList := by
      decide +kernel
    show dropTail (· = '/') ("module".toList ++ List.replicate slashes '/') = "module".toList
    rw [dropTail, List.reverse_append, List.reverse_replicate,
      List.dropWhile_append_of_pos hslashes, hword]

theorem mem_moduleWord {slashes : Nat} {c : Char} (h : c ∈ moduleWord slashes) :
    isBlank c = false ∧ isQuote c = false ∧ c ≠ '=' := by
  rcases List.mem_append.mp h with hletter | hslash
  · have hletters : "module".toList.all (fun c => !isBlank c && !isQuote c && c ≠ '=') = true :=
      rfl
    simpa [and_assoc] using List.all_eq_true.mp hletters c hletter
  · rw [List.eq_of_mem_replicate hslash]
    decide

theorem moduleWord_ne_nil (slashes : Nat) : moduleWord slashes ≠ [] :=
  List.append_ne_nil_of_left_ne_nil (by decide) _

/-- The word stands in the text with blanks on both sides. -/
def HoldsModuleWord (value : List Char) : Prop :=
  ∃ a x slashes y b, isBlank x = true ∧ isBlank y = true ∧
    value = a ++ x :: (moduleWord slashes ++ y :: b)

theorem not_holdsModuleWord_of_none {value : List Char} (h : value.any isBlank = false) :
    ¬ HoldsModuleWord value := by
  rintro ⟨a, x, slashes, y, b, hx, -, rfl⟩
  exact List.any_eq_false.mp h x (by simp) hx

/-- The word is among the words that the text is split into at its blanks. -/
def HasModuleWord (s : List Char) : Prop :=
  ∃ slashes, moduleWord slashes ∈ words isBlank s

theorem isModuleScript_eq_true_iff {inside : List Char} :
    isModuleScript inside = true ↔
      attributeValue inside "context".toList = some "module".toList ∨ HasModuleWord inside := by
  rw [isModuleScript, Bool.or_eq_true, decide_eq_true_eq, List.any_eq_true]
  apply or_congr_right
  constructor
  · rintro ⟨w, hw, htail⟩
    obtain ⟨slashes, rfl⟩ := dropTail_eq_module_iff.mp (of_decide_eq_true htail)
    exact ⟨slashes, hw⟩
  · rintro ⟨slashes, hw⟩
    exact ⟨_, hw, decide_eq_true (dropTail_eq_module_iff.mpr ⟨slashes, rfl⟩)⟩

theorem hasModuleWord_append {s t : List Char} (ht : t.head?.all isBlank = true) :
    HasModuleWord (s ++ t) ↔ HasModuleWord s ∨ HasModuleWord t := by
  simp only [HasModuleWord, words_append ht, List.mem_append, exists_or]

theorem hasModuleWord_of_none {w : List Char} (hw : ∀ c ∈ w, isBlank c = false) (hne : w ≠ []) :
    HasModuleWord w ↔ ∃ slashes, w = moduleWord slashes := by
  simp only [HasModuleWord, words_of_none hw hne, List.mem_singleton, eq_comm]

/-- Neither quotes nor slashes. -/
def IsUnmarked (s : List Char) : Prop :=
  ∀ c ∈ s, isQuote c = false ∧ c ≠ '/'

instance : DecidablePred IsUnmarked :=
  List.decidableBAll fun c => isQuote c = false ∧ c ≠ '/'

namespace WrittenAttribute

/-- What can stand in a script's tag: no blanks beside an equals sign, and neither quotes nor
slashes but in quoted values. -/
def IsPlain : WrittenAttribute → Prop
  | .bare key => IsUnmarked key
  | .valued key before after (.quoted ..) => IsUnmarked key ∧ before = [] ∧ after = []
  | .valued key before after (.unquoted value) =>
    IsUnmarked key ∧ before = [] ∧ after = [] ∧ IsUnmarked value

instance : DecidablePred IsPlain
  | .bare key => inferInstanceAs (Decidable (IsUnmarked key))
  | .valued key before after (.quoted ..) =>
    inferInstanceAs (Decidable (IsUnmarked key ∧ before = [] ∧ after = []))
  | .valued key before after (.unquoted value) =>
    inferInstanceAs (Decidable (IsUnmarked key ∧ before = [] ∧ after = [] ∧ IsUnmarked value))

/-- The word stands between blanks in a quoted value. -/
def HoldsModuleWord : WrittenAttribute → Prop
  | .valued _ _ _ (.quoted _ value) => InlineComponents.HoldsModuleWord value
  | _ => False

theorem isBlank_of_isKey {key : List Char} (h : IsKey key) {c : Char} (hc : c ∈ key) :
    isBlank c = false ∧ c ≠ '=' := by
  have hends := h.2 c hc
  simpa [endsKey] using hends

theorem hasModuleWord_bare {key : List Char} (hkey : IsKey key) (hplain : IsUnmarked key) :
    HasModuleWord key ↔ key = "module".toList := by
  rw [hasModuleWord_of_none (fun c hc => (isBlank_of_isKey hkey hc).1) hkey.1]
  constructor
  · rintro ⟨slashes, rfl⟩
    cases slashes with
    | zero => rfl
    | succ n =>
      have hslash : '/' ∈ moduleWord (n + 1) := List.mem_append_right _ List.mem_cons_self
      exact absurd rfl (hplain '/' hslash).2
  · rintro rfl
    exact ⟨0, rfl⟩

/-- An attribute with a value and no blanks is one word, which has an equals sign. -/
theorem not_hasModuleWord_unquoted {key value : List Char} (hkey : IsKey key)
    (hvalue : (WrittenValue.unquoted value).WellFormed) :
    ¬ HasModuleWord (key ++ '=' :: value) := by
  have hblank : ∀ c ∈ key ++ '=' :: value, isBlank c = false := by
    intro c hc
    simp only [List.mem_append, List.mem_cons] at hc
    rcases hc with hc | rfl | hc
    · exact (isBlank_of_isKey hkey hc).1
    · rfl
    · exact hvalue.2.1 c hc
  rw [hasModuleWord_of_none hblank (by simp)]
  rintro ⟨slashes, heq⟩
  have hsign : '=' ∈ moduleWord slashes := heq ▸ by simp
  exact (mem_moduleWord hsign).2.2 rfl

/-- The word in a quoted attribute begins after a blank of the value, since what comes before is
in one word with the equals sign, and ends before one, since the quote is no part of it. -/
theorem hasModuleWord_quoted {key : List Char} (value : List Char) {quote : Char}
    (hkey : IsKey key) (hquote : isQuote quote = true) :
    HasModuleWord (key ++ '=' :: quote :: (value ++ [quote])) ↔
      InlineComponents.HoldsModuleWord value := by
  have hfront : ∀ c ∈ key ++ ['=', quote], isBlank c = false := by
    intro c hc
    simp only [List.mem_append, List.mem_cons, List.not_mem_nil, or_false] at hc
    rcases hc with hc | rfl | rfl
    · exact (isBlank_of_isKey hkey hc).1
    · rfl
    · exact WrittenValue.isBlank_of_isQuote hquote
  have hshape : key ++ '=' :: quote :: (value ++ [quote]) =
      (key ++ ['=', quote]) ++ (value ++ [quote]) := by
    simp
  rw [hshape]
  constructor
  · rintro ⟨slashes, hw⟩
    rcases exists_of_mem_words hw with ⟨b, heq, hb⟩ | ⟨a, x, b, heq, hx, hb⟩
    · have hsign : '=' ∉ moduleWord slashes := fun hc => (mem_moduleWord hc).2.2 rfl
      exact absurd heq (append_ne_append_of_notMem hfront (by simp) hsign hb)
    · obtain ⟨a', hvalue⟩ := exists_of_append_eq_append_cons hfront hx heq
      rcases List.eq_nil_or_concat b with rfl | ⟨b', z, rfl⟩
      · have hlast := List.getLast?_eq_some_getLast (moduleWord_ne_nil slashes)
        have hends : quote = (moduleWord slashes).getLast (moduleWord_ne_nil slashes) := by
          simpa [List.getLast?_append, List.getLast?_cons, hlast] using
            congrArg List.getLast? hvalue
        have hnone := (mem_moduleWord (hends ▸ List.getLast_mem (moduleWord_ne_nil slashes))).2.1
        rw [hquote] at hnone
        cases hnone
      · have hends : value ++ [quote] = (a' ++ x :: (moduleWord slashes ++ b')) ++ [z] := by
          simpa using hvalue
        obtain ⟨hshort, hz⟩ := List.append_inj' hends rfl
        obtain rfl : quote = z := by simpa using hz
        cases b' with
        | nil =>
          have hblank : isBlank quote = true := by simpa using hb
          rw [WrittenValue.isBlank_of_isQuote hquote] at hblank
          cases hblank
        | cons y b' =>
          have hy : isBlank y = true := by simpa using hb
          exact ⟨a', x, slashes, y, b', hx, hy, hshort⟩
  · rintro ⟨a, x, slashes, y, b, hx, hy, rfl⟩
    refine ⟨slashes, ?_⟩
    have hwords : words isBlank (moduleWord slashes) = [moduleWord slashes] :=
      words_of_none (fun c hc => (mem_moduleWord hc).1) (moduleWord_ne_nil slashes)
    have hsplit : (key ++ ['=', quote]) ++ (a ++ x :: (moduleWord slashes ++ y :: b) ++ [quote]) =
        ((key ++ ['=', quote]) ++ a) ++ x :: (moduleWord slashes ++ y :: (b ++ [quote])) := by
      simp
    rw [hsplit, words_append_cons hx, words_append_cons hy, hwords]
    simp

theorem hasModuleWord_render {a : WrittenAttribute} (h : a.WellFormed) (hplain : a.IsPlain) :
    HasModuleWord a.render ↔ a = .bare "module".toList ∨ a.HoldsModuleWord := by
  match a with
  | .bare key =>
    have hword := hasModuleWord_bare h hplain
    simpa [render, HoldsModuleWord] using hword
  | .valued key before after (.unquoted value) =>
    obtain ⟨-, rfl, rfl, -⟩ := hplain
    have hnone := not_hasModuleWord_unquoted h.1 h.2.2
    simpa [render, WrittenValue.render, HoldsModuleWord] using hnone
  | .valued key before after (.quoted quote value) =>
    obtain ⟨-, rfl, rfl⟩ := hplain
    have hword := hasModuleWord_quoted value h.1 h.2.2.1
    simpa [render, WrittenValue.render, HoldsModuleWord] using hword

end WrittenAttribute

theorem not_hasModuleWord_of_allBlank {blanks : List Char} (h : allBlank blanks = true) :
    ¬ HasModuleWord blanks := by
  rintro ⟨slashes, hw⟩
  rw [words_of_all (List.all_eq_true.mp h)] at hw
  cases hw

/-- The word is found where one of the attributes has it. -/
theorem AreSeparated.hasModuleWord_iff {as : List (List Char × WrittenAttribute)}
    {trailing : List Char} (h : AreSeparated as) (htrailing : allBlank trailing = true) :
    HasModuleWord (renderAttributes as ++ trailing) ↔ ∃ p ∈ as, HasModuleWord p.2.render := by
  induction as with
  | nil => simpa [renderAttributes] using not_hasModuleWord_of_allBlank htrailing
  | cons p as ih =>
    have hblank := List.all_eq_true.mp (h.blank p List.mem_cons_self)
    have hshape : renderAttributes (p :: as) ++ trailing =
        p.1 ++ (p.2.render ++ (renderAttributes as ++ trailing)) := by
      simp [renderAttributes]
    have hfront : HasModuleWord (renderAttributes (p :: as) ++ trailing) ↔
        HasModuleWord (p.2.render ++ (renderAttributes as ++ trailing)) := by
      simp only [HasModuleWord, hshape, words_append_of_all hblank]
    rw [hfront, hasModuleWord_append (h.head_rest htrailing), ih h.tail]
    simp

/-- The script is marked as one of the module: the first of its attributes `context` says so, or
it has the attribute `module` without a value. -/
def MarksModule (as : List WrittenAttribute) : Prop :=
  ((as.map WrittenAttribute.toAttribute).find? fun a => a.key = "context".toList).bind
      Attribute.value = some "module".toList ∨
    .bare "module".toList ∈ as

instance : DecidablePred MarksModule :=
  fun as => inferInstanceAs (Decidable (((as.map WrittenAttribute.toAttribute).find?
    fun a => a.key = "context".toList).bind Attribute.value = some "module".toList ∨
      .bare "module".toList ∈ as))

/-- A script is taken for one of the module if it is marked as one, and besides if, and only if, a
quoted value has the word between blanks. -/
theorem isModuleScript_renderAttributes {as : List (List Char × WrittenAttribute)}
    {trailing : List Char} (h : AreSeparated as) (hplain : ∀ p ∈ as, p.2.IsPlain)
    (htrailing : allBlank trailing = true) :
    isModuleScript (renderAttributes as ++ trailing) = true ↔
      MarksModule (as.map Prod.snd) ∨ ∃ a ∈ as.map Prod.snd, a.HoldsModuleWord := by
  have hcontext : attributeValue (renderAttributes as ++ trailing) "context".toList =
      (((as.map Prod.snd).map WrittenAttribute.toAttribute).find?
        fun a => a.key = "context".toList).bind Attribute.value := by
    rw [attributeValue, h.attributes_render htrailing, List.map_map]
    rfl
  have hword : (∃ p ∈ as, HasModuleWord p.2.render) ↔
      .bare "module".toList ∈ as.map Prod.snd ∨ ∃ a ∈ as.map Prod.snd, a.HoldsModuleWord := by
    constructor
    · rintro ⟨p, hp, hw⟩
      have hmem : p.2 ∈ as.map Prod.snd := List.mem_map_of_mem hp
      rcases (WrittenAttribute.hasModuleWord_render (h.wellFormed p hp) (hplain p hp)).mp hw with
        hbare | hholds
      · exact .inl (hbare ▸ hmem)
      · exact .inr ⟨p.2, hmem, hholds⟩
    · intro hsome
      have hany : ∃ a ∈ as.map Prod.snd, a = .bare "module".toList ∨ a.HoldsModuleWord := by
        rcases hsome with hbare | ⟨a, ha, hholds⟩
        · exact ⟨_, hbare, .inl rfl⟩
        · exact ⟨a, ha, .inr hholds⟩
      obtain ⟨a, ha, hsays⟩ := hany
      obtain ⟨p, hp, rfl⟩ := List.mem_map.mp ha
      exact ⟨p, hp, (WrittenAttribute.hasModuleWord_render (h.wellFormed p hp) (hplain p hp)).mpr
        hsays⟩
  rw [isModuleScript_eq_true_iff, hcontext, h.hasModuleWord_iff htrailing, hword, MarksModule,
    or_assoc]

theorem isModuleScript_renderAttributes_near_misses :
    let as : List (List Char × WrittenAttribute) :=
      [([' '], .valued "context".toList [] [] (.quoted '\x22' "client".toList)),
        (['\n'], .valued "context".toList [] [] (.unquoted "module".toList)),
        ([' '], .valued "title".toList [] [] (.quoted '\'' "module".toList)),
        ([' '], .bare "data-module".toList)]
    AreSeparated as ∧ (∀ p ∈ as, p.2.IsPlain) ∧ allBlank [' '] = true ∧
      isModuleScript (renderAttributes as ++ [' ']) = false := by
  intro as
  have hs : AreSeparated as := by decide
  have hplain : ∀ p ∈ as, p.2.IsPlain := by decide
  refine ⟨hs, hplain, rfl, ?_⟩
  rw [Bool.eq_false_iff, ne_eq, isModuleScript_renderAttributes hs hplain rfl]
  have hmarked : ¬ MarksModule (as.map Prod.snd) := by decide
  have hclient : ¬ HoldsModuleWord "client".toList := not_holdsModuleWord_of_none rfl
  have htitle : ¬ HoldsModuleWord "module".toList := not_holdsModuleWord_of_none rfl
  have hholds : ¬ ∃ a ∈ as.map Prod.snd, a.HoldsModuleWord := by
    rintro ⟨a, ha, hholds⟩
    simp only [as, List.map_cons, List.map_nil, List.mem_cons, List.not_mem_nil, or_false] at ha
    rcases ha with rfl | rfl | rfl | rfl
    · exact hclient hholds
    · exact hholds
    · exact htitle hholds
    · exact hholds
  exact not_or.mpr ⟨hmarked, hholds⟩

/-- A script with the word in its title is taken for one of the module, though nothing marks it. -/
theorem isModuleScript_of_title :
    ¬ ∀ (as : List (List Char × WrittenAttribute)) (trailing : List Char), AreSeparated as →
      (∀ p ∈ as, p.2.IsPlain) → allBlank trailing = true →
        (isModuleScript (renderAttributes as ++ trailing) = true ↔
          MarksModule (as.map Prod.snd)) := by
  intro h
  let as : List (List Char × WrittenAttribute) :=
    [([' '], .valued "title".toList [] [] (.quoted '\x22' "a module b".toList))]
  have hmodule : isModuleScript (renderAttributes as ++ []) = true := by decide +kernel
  have hmarked : ¬ MarksModule (as.map Prod.snd) := by decide
  exact hmarked ((h as [] (by decide) (by decide) rfl).mp hmodule)

end InlineComponents
