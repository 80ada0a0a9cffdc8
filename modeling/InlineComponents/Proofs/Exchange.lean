import InlineComponents.Proofs.ScriptChoice
import InlineComponents.Proofs.Specifiers

namespace InlineComponents

/-- What markup after the text is read as does not depend on the text, in which each script is
closed. -/
structure IsReadable (u : List Char) : Prop where
  split : ∃ front plain, u = front ++ plain ∧ (∀ c ∈ plain, isPlain c = true) ∧
    ∀ t, tokens (front ++ t) = tokens front ++ tokens t
  closed : (tokens u).any Token.isUnclosedScript = false

/-- What can stand behind any readable text, which is readable with it. -/
def Continues (s : List Char) : Prop :=
  ∀ u, IsReadable u → IsReadable (u ++ s)

theorem tokens_plain {plain t : List Char} (hne : plain ≠ [])
    (hplain : ∀ c ∈ plain, isPlain c = true) (ht : t.head?.all (fun c => !isPlain c) = true) :
    tokens (plain ++ t) = .text plain :: tokens t := by
  have htaken := takeWhile_append_stop hplain ht
  have hdropped := dropWhile_append_stop hplain ht
  obtain ⟨c, cs, rfl⟩ := List.exists_cons_of_ne_nil hne
  obtain ⟨hangle, hbrace⟩ : c ≠ '<' ∧ c ≠ '{' := by
    have hc := hplain c List.mem_cons_self
    simpa [isPlain] using hc
  have hnext : nextToken (c :: cs ++ t) = (.text (c :: cs), t) := by
    calc nextToken (c :: cs ++ t)
      _ = (.text ((c :: cs ++ t).takeWhile isPlain), (c :: cs ++ t).dropWhile isPlain) := by
        rw [List.cons_append, nextToken, if_neg hangle, if_neg hbrace]
      _ = (.text (c :: cs), t) := by rw [htaken, hdropped]
  rw [tokens_of_ne_nil (by simp), hnext]

namespace IsReadable

variable {u t : List Char}

theorem tokens_append (h : IsReadable u) (ht : t.head?.all (fun c => !isPlain c) = true) :
    tokens (u ++ t) = tokens u ++ tokens t := by
  obtain ⟨front, plain, rfl, hplain, hfront⟩ := h.split
  rw [List.append_assoc, hfront, hfront, List.append_assoc]
  by_cases hne : plain = []
  · simp [hne]
  · have halone : tokens plain = [.text plain] := by
      have hnil := tokens_plain hne hplain (t := []) rfl
      rwa [List.append_nil, tokens_nil] at hnil
    rw [tokens_plain hne hplain ht, halone, List.singleton_append]

theorem nil : IsReadable [] :=
  ⟨⟨[], [], rfl, by simp, fun _ => by simp⟩, by simp⟩

theorem append_plain (h : IsReadable u) (ht : ∀ c ∈ t, isPlain c = true) :
    IsReadable (u ++ t) := by
  obtain ⟨front, plain, rfl, hplain, hfront⟩ := h.split
  have hall : ∀ c ∈ plain ++ t, isPlain c = true := List.forall_mem_append.mpr ⟨hplain, ht⟩
  refine ⟨⟨front, plain ++ t, List.append_assoc .., hall, hfront⟩, ?_⟩
  have hbefore := h.closed
  rw [hfront, List.any_append, Bool.or_eq_false_iff] at hbefore
  rw [List.append_assoc, hfront, List.any_append, hbefore.1, Bool.false_or]
  by_cases hne : plain ++ t = []
  · rw [hne, tokens_nil]
    rfl
  · have htext := tokens_plain hne hall (t := []) rfl
    rw [List.append_nil, tokens_nil] at htext
    rw [htext]
    rfl

theorem append_token (h : IsReadable u) {token : Token} (ht : IsToken t token)
    (hclosed : token.isUnclosedScript = false) : IsReadable (u ++ t) := by
  have hsplit (s : List Char) : tokens (u ++ (t ++ s)) = tokens u ++ token :: tokens s := by
    rw [h.tokens_append (ht.head_append s), ht.tokens_append]
  have hwhole : tokens (u ++ t) = tokens u ++ [token] := by
    have hnil := hsplit []
    rwa [List.append_nil, tokens_nil] at hnil
  refine ⟨⟨u ++ t, [], (List.append_nil _).symm, by simp, ?_⟩, ?_⟩
  · intro s
    rw [List.append_assoc, hsplit, hwhole, List.append_assoc, List.singleton_append]
  · rw [hwhole, List.any_append, h.closed, List.any_cons, hclosed]
    rfl

end IsReadable

theorem continues_nil : Continues [] := by
  intro u hu
  rwa [List.append_nil]

theorem Continues.append {s t : List Char} (hs : Continues s) (ht : Continues t) :
    Continues (s ++ t) := by
  intro u hu
  rw [← List.append_assoc]
  exact ht _ (hs u hu)

theorem continues_plain {s : List Char} (h : ∀ c ∈ s, isPlain c = true) : Continues s :=
  fun _ hu => hu.append_plain h

theorem IsToken.continues {s : List Char} {token : Token} (h : IsToken s token)
    (hclosed : token.isUnclosedScript = false) : Continues s :=
  fun _ hu => hu.append_token h hclosed

theorem Continues.isReadable {s : List Char} (h : Continues s) : IsReadable s :=
  h [] .nil

section Exchanged

variable {α : Type} {a a' : α} {before after : List α}

/-- What is chosen of two lists that differ in one place, not in that place, but in the same one
of each, or nothing of either. -/
inductive SameChoice (before after : List α) (a a' : α) :
    Option (List α × α × List α) → Option (List α × α × List α) → Prop
  | none : SameChoice before after a a' none none
  | before {front back : List α} {b : α} (h : before = front ++ b :: back) :
    SameChoice before after a a' (some (front, b, back ++ a :: after))
      (some (front, b, back ++ a' :: after))
  | after {front back : List α} {b : α} (h : after = front ++ b :: back) :
    SameChoice before after a a' (some (before ++ a :: front, b, back))
      (some (before ++ a' :: front, b, back))

theorem SameChoice.or {first first' second second' : Option (List α × α × List α)}
    (h : SameChoice before after a a' first first')
    (h' : SameChoice before after a a' second second') :
    SameChoice before after a a' (first.or second) (first'.or second') := by
  cases h with
  | none => exact h'
  | before h => exact .before h
  | after h => exact .after h

theorem sameChoice_splitFirst {p : α → Bool} (before after : List α) (ha : p a = false)
    (ha' : p a' = false) :
    SameChoice before after a a' (splitFirst p (before ++ a :: after))
      (splitFirst p (before ++ a' :: after)) := by
  rcases exists_first p before with hbefore | ⟨front, b, back, rfl, hb, hfront⟩
  · -- the place itself is passed over in both lists
    have hpassed {c : α} (hc : p c = false) {front : List α} (hf : ∀ d ∈ front, p d = false) :
        ∀ d ∈ before ++ c :: front, p d = false := by
      intro d hd
      simp only [List.mem_append, List.mem_cons] at hd
      rcases hd with hd | rfl | hd
      · exact hbefore d hd
      · exact hc
      · exact hf d hd
    rcases exists_first p after with hafter | ⟨front, b, back, rfl, hb, hfront⟩
    · rw [splitFirst_eq_none (hpassed ha hafter), splitFirst_eq_none (hpassed ha' hafter)]
      exact .none
    · have hsplit {c : α} (hc : p c = false) :
          splitFirst p (before ++ c :: (front ++ b :: back)) =
            some (before ++ c :: front, b, back) := by
        rw [← splitFirst_append (hpassed hc hfront) hb]
        simp
      rw [hsplit ha, hsplit ha']
      exact .after rfl
  · have hsplit (c : α) : splitFirst p (front ++ b :: back ++ c :: after) =
        some (front, b, back ++ c :: after) := by
      rw [← splitFirst_append hfront hb]
      simp
    rw [hsplit, hsplit]
    exact .before rfl

theorem SameChoice.map {β : Type} (f : α → β) {first second : Option (List α × α × List α)}
    (h : SameChoice before after a a' first second) :
    SameChoice (before.map f) (after.map f) (f a) (f a')
      (first.map fun (front, b, back) => (front.map f, f b, back.map f))
      (second.map fun (front, b, back) => (front.map f, f b, back.map f)) := by
  cases h with
  | none => exact .none
  | before h => simpa using SameChoice.before (by simp [h])
  | after h => simpa using SameChoice.after (by simp [h])

end Exchanged

/-- Two texts, or two opening tags that open the same. -/
inductive Token.Alike : Token → Token → Prop
  | text (chars chars' : List Char) : Alike (.text chars) (.text chars')
  | opening (name : List Char) {inside inside' : List Char}
      (h : endsWithSlash inside = endsWithSlash inside') :
    Alike (.opening name inside) (.opening name inside')

namespace Token.Alike

variable {t t' : Token}

theorem after_eq (h : t.Alike t') (opened : OpenElements) : opened.after t = opened.after t' := by
  cases h with
  | text => rfl
  | opening name h => simp only [OpenElements.after, h]

theorem isUnclosedScript_eq (h : t.Alike t') :
    t.isUnclosedScript = false ∧ t'.isUnclosedScript = false := by
  cases h <;> exact ⟨rfl, rfl⟩

theorem isTopScript_eq (h : t.Alike t') (opened : OpenElements) :
    isTopScript (opened, t) = false ∧ isTopScript (opened, t') = false := by
  cases h <;> cases opened <;> exact ⟨rfl, rfl⟩

theorem isInstanceScript_eq (h : t.Alike t') (opened : OpenElements) :
    isInstanceScript (opened, t) = false ∧ isInstanceScript (opened, t') = false := by
  cases h <;> cases opened <;> exact ⟨rfl, rfl⟩

end Token.Alike

/-- The imports go to the same script, and to none, where a token stands in the place of one that
it is like. -/
theorem sameChoice_importTarget {t t' : Token} (h : t.Alike t') (before after : List Token) :
    SameChoice before after t t' (importTarget (before ++ t :: after))
      (importTarget (before ++ t' :: after)) := by
  let opened := OpenElements.afterAll [] before
  have hplaced (u : Token) : placed (before ++ u :: after) =
      placedFrom [] before ++ (opened, u) :: placedFrom (opened.after u) after := by
    rw [placed_eq, placedFrom_append]
    rfl
  have hinstance := h.isInstanceScript_eq opened
  have htop := h.isTopScript_eq opened
  let front := placedFrom [] before
  let back := placedFrom (opened.after t) after
  have hchoice := ((sameChoice_splitFirst front back hinstance.1 hinstance.2).or
    (sameChoice_splitFirst front back htop.1 htop.2)).map Prod.snd
  rw [map_snd_placedFrom, map_snd_placedFrom] at hchoice
  rw [importTarget, importTarget, hplaced, hplaced, ← h.after_eq]
  exact hchoice

/-- The first text with another put into it somewhere is the second. -/
def TakesIn (text : List Char) (s t : List Char) : Prop :=
  ∃ front back, s = front ++ back ∧ t = front ++ (text ++ back)

namespace TakesIn

variable {text s t : List Char}

theorem append_left (h : TakesIn text s t) (u : List Char) : TakesIn text (u ++ s) (u ++ t) := by
  obtain ⟨front, back, rfl, rfl⟩ := h
  exact ⟨u ++ front, back, (List.append_assoc ..).symm, (List.append_assoc ..).symm⟩

theorem append_right (h : TakesIn text s t) (u : List Char) : TakesIn text (s ++ u) (t ++ u) := by
  obtain ⟨front, back, rfl, rfl⟩ := h
  exact ⟨front, back ++ u, by simp, by simp⟩

theorem prepend (text : List Char) (before : List Token) (inside content : List Char)
    (after : List Token) : TakesIn text (tokensText (before ++ .script inside content :: after))
      (tokensText (before ++ (Token.script inside content).prepend text :: after)) :=
  ⟨tokensText before ++ (scriptOpening ++ inside ++ ['>']), content ++ tokensText after,
    by simp [Token.render], by simp [Token.render, Token.prepend]⟩

end TakesIn

/-- The imports are put into the source with `added` at the place between `u` and `v` where they
are put into the source without it. -/
def SameInsertion (file : Path) (imports : List Import) (u added v : List Char) : Prop :=
  ∃ text a b, (TakesIn text u a ∧ v = b ∨ u = a ∧ TakesIn text v b) ∧
    injectImports (String.ofList (u ++ v)) file imports = .ok (String.ofList (a ++ b)) ∧
    injectImports (String.ofList (u ++ (added ++ v))) file imports =
      .ok (String.ofList (a ++ (added ++ b)))

theorem append_ofList (text : String) (s : List Char) :
    text ++ String.ofList s = String.ofList (text.toList ++ s) := by
  rw [String.ofList_append, String.ofList_toList]

/-- Where a text is added to a token that is still like it was, the imports are put into the same
place. -/
theorem sameInsertion_of_alike {front a added b back : List Char} {t t' : Token}
    (hfront : IsReadable front) (hback : IsReadable back) (ht : IsToken (a ++ b) t)
    (ht' : IsToken (a ++ (added ++ b)) t') (h : t.Alike t') (file : Path)
    {imports : List Import} (himports : imports ≠ []) :
    SameInsertion file imports (front ++ a) added (b ++ back) := by
  let block := (importBlock imports).toList
  have htokens {token : Token} {u : List Char} (hu : IsToken u token) :
      tokens (front ++ (u ++ back)) = tokens front ++ token :: tokens back := by
    rw [hfront.tokens_append (hu.head_append back), hu.tokens_append]
  have hclosed {token : Token} {u : List Char} (hu : IsToken u token)
      (hopen : token.isUnclosedScript = false) :
      (tokens (front ++ (u ++ back))).any Token.isUnclosedScript = false := by
    rw [htokens hu, List.any_append, List.any_cons, hfront.closed, hopen, hback.closed]
    rfl
  have hopen := h.isUnclosedScript_eq
  have hbare : front ++ a ++ (b ++ back) = front ++ (a ++ b ++ back) := by simp
  have hadded : front ++ a ++ (added ++ (b ++ back)) =
      front ++ (a ++ (added ++ b) ++ back) := by
    simp
  have hchoice := sameChoice_importTarget h (tokens front) (tokens back)
  rw [← htokens ht, ← htokens ht'] at hchoice
  rw [SameInsertion, hbare, hadded]
  generalize hfirst : importTarget (tokens (front ++ (a ++ b ++ back))) = first at hchoice
  generalize hsecond : importTarget (tokens (front ++ (a ++ (added ++ b) ++ back))) = second
    at hchoice
  cases hchoice with
  | none =>
    let script := "<script>" ++ importBlock imports ++ "\n</script>\n"
    refine ⟨script.toList, script.toList ++ (front ++ a), b ++ back,
      .inl ⟨⟨[], front ++ a, rfl, rfl⟩, rfl⟩, ?_, ?_⟩
    · rw [injectImports_of_none himports (hclosed ht hopen.1) hfirst, append_ofList]
      simp only [List.append_assoc, script]
    · rw [injectImports_of_none himports (hclosed ht' hopen.2) hsecond, append_ofList]
      simp only [List.append_assoc, script]
  | @before before after token hbefore =>
    obtain ⟨-, inside, content, rfl⟩ := importTarget_eq_some hfirst
    have htakes := TakesIn.prepend block before inside content after
    rw [← hbefore, tokensText_tokens] at htakes
    refine ⟨block, _, b ++ back, .inl ⟨htakes.append_right a, rfl⟩, ?_, ?_⟩
    · rw [injectImports_of_some himports (hclosed ht hopen.1) hfirst]
      simp [ht.render_eq, tokensText_tokens, block]
    · rw [injectImports_of_some himports (hclosed ht' hopen.2) hsecond]
      simp [ht'.render_eq, tokensText_tokens, block]
  | @after before after token hafter =>
    obtain ⟨-, inside, content, rfl⟩ := importTarget_eq_some hfirst
    have htakes := TakesIn.prepend block before inside content after
    rw [← hafter, tokensText_tokens] at htakes
    refine ⟨block, front ++ a, _, .inr ⟨rfl, htakes.append_left b⟩, ?_, ?_⟩
    · rw [injectImports_of_some himports (hclosed ht hopen.1) hfirst]
      simp [ht.render_eq, tokensText_tokens, block]
    · rw [injectImports_of_some himports (hclosed ht' hopen.2) hsecond]
      simp [ht'.render_eq, tokensText_tokens, block]

end InlineComponents
