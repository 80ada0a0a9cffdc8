import InlineComponents.Proofs.Slices
import InlineComponents.Proofs.Specifiers

namespace InlineComponents

/-- The source with a text put in at a byte offset. -/
def insertAt (source : String) (offset : Nat) (text : String) : String :=
  slice source 0 offset ++ text ++ slice source offset source.utf8ByteSize

/-- The source without so many bytes from an offset on. -/
def removeAt (source : String) (offset length : Nat) : String :=
  slice source 0 offset ++ slice source (offset + length) source.utf8ByteSize

theorem slice_front {source : String} {before after : List Char}
    (h : source.toList = before ++ after) :
    slice source 0 (byteLength before) = String.ofList before := by
  have hs := @slice_eq source [] before after (by simpa using h)
  rwa [byteLength_nil, Nat.zero_add] at hs

theorem insertAt_byteLength {source : String} {before after : List Char}
    (h : source.toList = before ++ after) (text : String) :
    insertAt source (byteLength before) text = String.ofList (before ++ text.toList ++ after) := by
  rw [insertAt, slice_front h, slice_rest h, String.ofList_append, String.ofList_append,
    String.ofList_toList]

theorem removeAt_byteLength {source : String} {before text after : List Char}
    (h : source.toList = before ++ text ++ after) :
    removeAt source (byteLength before) (byteLength text) = String.ofList (before ++ after) := by
  have hfront := slice_front (h.trans (List.append_assoc ..))
  rw [removeAt, hfront, ← byteLength_append, slice_rest h, String.ofList_append]

/-- What is put in can be taken out again. -/
theorem removeAt_insertAt {source : String} {offset : Nat} (ho : IsBoundary source offset)
    (text : String) :
    removeAt (insertAt source offset text) offset text.utf8ByteSize = source := by
  obtain ⟨before, after, rfl, he⟩ := String.Pos.Raw.isValid_iff_exists_append.mp ho
  have hbefore : offset = byteLength before.toList := by
    rw [← utf8ByteSize_eq_byteLength]
    exact congrArg String.Pos.Raw.byteIdx he
  have hsource : (before ++ after).toList = before.toList ++ after.toList := String.toList_append
  have hinserted : (insertAt (before ++ after) offset text).toList =
      before.toList ++ text.toList ++ after.toList := by
    rw [hbefore, insertAt_byteLength hsource, String.toList_ofList]
  rw [hbefore] at hinserted ⊢
  rw [utf8ByteSize_eq_byteLength text, removeAt_byteLength hinserted, ← hsource,
    String.ofList_toList]

/-- The quote that is open after one more character of a tag. -/
def nextQuote (quote : Option Char) (c : Char) : Option Char :=
  match quote with
  | some q => if c = q then none else some q
  | none => if isQuote c then some c else none

/-- The quote that is open after a text in a tag, if there is one. -/
def openQuote (s : List Char) : Option Char :=
  s.foldl nextQuote none

theorem closeAngle_go_cons (quote : Option Char) (seen : List Char) (c : Char) (s : List Char) :
    closeAngle.go quote seen (c :: s) =
      if quote = none ∧ c = '>' then some (seen.reverse, s)
      else closeAngle.go (nextQuote quote c) (c :: seen) s := by
  cases quote <;> simp [closeAngle.go, nextQuote]

theorem closeAngle_go_eq_none_iff {quote : Option Char} {seen s : List Char} :
    closeAngle.go quote seen s = none ↔
      ∀ before after, s = before ++ '>' :: after → before.foldl nextQuote quote ≠ none := by
  induction s generalizing quote seen with
  | nil => simp [closeAngle.go]
  | cons c s ih =>
    rw [closeAngle_go_cons]
    split
    · next hc =>
      obtain ⟨rfl, rfl⟩ := hc
      simp only [reduceCtorEq, false_iff]
      exact fun h => h [] s rfl rfl
    · next hc =>
      rw [ih]
      constructor
      · rintro h before after he
        cases before with
        | nil =>
          obtain ⟨rfl, rfl⟩ := List.cons.inj he
          exact fun hq => hc ⟨hq, rfl⟩
        | cons d before =>
          obtain ⟨rfl, rfl⟩ := List.cons.inj he
          exact h before after rfl
      · rintro h before after rfl
        exact h (c :: before) after rfl

/-- A tag is not closed just if each `>` after its name is quoted. -/
theorem closeAngle_eq_none_iff {s : List Char} :
    closeAngle s = none ↔ ∀ before after, s = before ++ '>' :: after → openQuote before ≠ none :=
  closeAngle_go_eq_none_iff

/-- Each token is read from the text that it begins. -/
theorem nextToken_of_tokens_append {s : List Char} {before after : List Token} {t : Token}
    (h : tokens s = before ++ t :: after) :
    nextToken (t.render ++ tokensText after) = (t, tokensText after) := by
  induction before generalizing s with
  | nil =>
    cases s with
    | nil => simp at h
    | cons c s =>
      rw [tokens_cons, List.nil_append] at h
      obtain ⟨ht, hafter⟩ := List.cons.inj h
      have hrest := tokensText_tokens (nextToken (c :: s)).2
      rw [hafter] at hrest
      rw [hrest, ← ht, nextToken_append]
  | cons u before ih =>
    cases s with
    | nil => simp at h
    | cons c s =>
      rw [tokens_cons, List.cons_append] at h
      exact ih (List.cons.inj h).2

theorem beginsTag_scriptOpening_of_rawTag? {s : List Char} (h : rawTag? s = some .script) :
    beginsTag scriptOpening s = true := by
  unfold rawTag? at h
  split at h
  · next s =>
    rw [scriptOpening, beginsTag_cons]
    split at h
    · next hs => simpa using hs
    · split at h <;> cases h
  · cases h

/-- A script, or what would be one if its opening tag were closed. -/
def Token.isScriptTag : Token → Bool
  | .script .. | .unclosedScript _ => true
  | _ => false

theorem isScriptTag_closingToken (s : List Char) : (closingToken s).1.isScriptTag = false := by
  unfold closingToken
  split <;> rfl

theorem isScriptTag_openingToken (s : List Char) : (openingToken s).1.isScriptTag = false := by
  unfold openingToken
  split <;> rfl

theorem isScriptTag_rawToken_style (s : List Char) :
    (rawToken .style s).1.isScriptTag = false := by
  unfold rawToken
  split <;> first | rfl | simp_all

/-- A script is read only where its tag begins. -/
theorem angleToken_of_isScriptTag {cs : List Char} (h : (angleToken cs).1.isScriptTag = true) :
    rawTag? ('<' :: cs) = some .script ∧ angleToken cs = rawToken .script ('<' :: cs) := by
  unfold angleToken at h ⊢
  dsimp only at h ⊢
  split at h
  · split at h <;> cases h
  · next hcomment =>
    split at h
    · rw [isScriptTag_closingToken] at h
      cases h
    · next hclosing =>
      split at h
      · next raw hraw =>
        cases raw with
        | script => exact ⟨hraw, by rw [if_neg hcomment, if_neg hclosing]⟩
        | style =>
          rw [isScriptTag_rawToken_style] at h
          cases h
      · split at h
        · rw [isScriptTag_openingToken] at h
          cases h
        · cases h

theorem nextToken_of_isScriptTag {s : List Char} (h : (nextToken s).1.isScriptTag = true) :
    rawTag? s = some .script ∧ nextToken s = rawToken .script s := by
  unfold nextToken at h ⊢
  split at h
  · cases h
  · next c cs =>
    split at h
    · next hc =>
      subst hc
      simpa using angleToken_of_isScriptTag h
    · split at h
      · split at h <;> cases h
      · cases h

theorem nextToken_eq_script {s inside content rest : List Char}
    (h : nextToken s = (.script inside content, rest)) : beginsTag scriptOpening s = true ∧
      closeAngle (s.drop scriptOpening.length) = some (inside, content ++ rest) := by
  have hscript : (nextToken s).1.isScriptTag = true := by rw [h]; rfl
  obtain ⟨hraw, hnext⟩ := nextToken_of_isScriptTag hscript
  refine ⟨beginsTag_scriptOpening_of_rawTag? hraw, ?_⟩
  rw [h] at hnext
  unfold rawToken at hnext
  split at hnext
  · cases hnext
  · cases hnext
  · next within after hclose =>
    obtain ⟨htoken, rfl⟩ := Prod.mk.inj hnext
    obtain ⟨rfl, rfl⟩ := Token.script.inj htoken
    rw [closeRaw_append]
    exact hclose
  · cases hnext

theorem nextToken_eq_unclosedScript {s chars rest : List Char}
    (h : nextToken s = (.unclosedScript chars, rest)) : beginsTag scriptOpening s = true ∧
      closeAngle (s.drop scriptOpening.length) = none := by
  have hscript : (nextToken s).1.isScriptTag = true := by rw [h]; rfl
  obtain ⟨hraw, hnext⟩ := nextToken_of_isScriptTag hscript
  refine ⟨beginsTag_scriptOpening_of_rawTag? hraw, ?_⟩
  rw [h] at hnext
  unfold rawToken at hnext
  split at hnext <;> first | assumption | cases hnext

/-- A script's opening tag ends at the offset: right after the first `>` after its name that stands
outside quotes. -/
def ScriptTagEndsAt (source : String) (offset : Nat) : Prop :=
  ∃ before inside after, source.toList = before ++ (scriptOpening ++ inside ++ '>' :: after) ∧
    beginsTag scriptOpening (scriptOpening ++ inside ++ '>' :: after) = true ∧
    closeAngle (inside ++ '>' :: after) = some (inside, after) ∧
    offset = byteLength (before ++ (scriptOpening ++ inside ++ ['>']))

/-- A script's opening tag begins somewhere, and each `>` after its name is quoted. -/
def HasOpenScriptTag (source : String) : Prop :=
  ∃ before rest, source.toList = before ++ (scriptOpening ++ rest) ∧
    beginsTag scriptOpening (scriptOpening ++ rest) = true ∧
    ∀ inside after, rest = inside ++ '>' :: after → openQuote inside ≠ none

variable {residual : String} {before after : List Token}

/-- A script among the tokens has its opening tag in the text. -/
theorem scriptTagEndsAt_of_tokens {inside content : List Char}
    (h : tokens residual.toList = before ++ .script inside content :: after) :
    ScriptTagEndsAt residual
      (byteLength (tokensText before ++ (scriptOpening ++ inside ++ ['>']))) := by
  have htext := tokensText_tokens residual.toList
  obtain ⟨hbegins, hclose⟩ := nextToken_eq_script (nextToken_of_tokens_append h)
  have hrender : (Token.script inside content).render ++ tokensText after =
      scriptOpening ++ inside ++ '>' :: (content ++ tokensText after) := by
    simp [Token.render]
  rw [hrender] at hbegins hclose
  rw [List.append_assoc, List.drop_left] at hclose
  refine ⟨tokensText before, inside, content ++ tokensText after, ?_, hbegins, hclose, rfl⟩
  rw [← htext, h, tokensText_append, tokensText_cons, hrender]

theorem hasOpenScriptTag_of_tokens {chars : List Char}
    (h : tokens residual.toList = before ++ .unclosedScript chars :: after) :
    HasOpenScriptTag residual := by
  have htext := tokensText_tokens residual.toList
  let s := (Token.unclosedScript chars).render ++ tokensText after
  obtain ⟨hbegins, hclose⟩ := nextToken_eq_unclosedScript (nextToken_of_tokens_append h)
  have hs : s = scriptOpening ++ s.drop scriptOpening.length := beginsTag_prefix hbegins
  refine ⟨tokensText before, s.drop scriptOpening.length, ?_, ?_, closeAngle_eq_none_iff.mp hclose⟩
  · rw [← hs, ← htext, h, tokensText_append, tokensText_cons]
  · rw [← hs]
    exact hbegins

/-- What injection comes to: a failure at a script that is not closed, a script that takes the
statements in front of its content, or a script of their own at the top. -/
theorem injectImports_cases (residual : String) (file : Path) {imports : List Import}
    (himports : imports ≠ []) :
    (∃ before chars after, tokens residual.toList = before ++ .unclosedScript chars :: after ∧
      injectImports residual file imports = .error (.malformedScript file)) ∨
    (∃ before inside content after,
      tokens residual.toList = before ++ .script inside content :: after ∧
      injectImports residual file imports = .ok (String.ofList (tokensText (before ++
        .script inside ((importBlock imports).toList ++ content) :: after)))) ∨
    injectImports residual file imports =
      .ok ("<script>" ++ importBlock imports ++ "\n</script>\n" ++ residual) := by
  have hsome : imports.isEmpty = false := by simpa using himports
  cases hunclosed : (tokens residual.toList).any Token.isUnclosedScript with
  | true =>
    obtain ⟨t, ht, hu⟩ := List.any_eq_true.mp hunclosed
    obtain ⟨before, after, hsplit⟩ := List.append_of_mem ht
    cases t with
    | unclosedScript chars =>
      exact .inl ⟨before, chars, after, hsplit, by simp [injectImports, hsome, hunclosed]⟩
    | _ => cases hu
  | false =>
    cases htarget : importTarget (tokens residual.toList) with
    | none =>
      have hnew := injectImports_of_none himports hunclosed htarget file
      rw [String.ofList_toList] at hnew
      exact .inr (.inr hnew)
    | some target =>
      obtain ⟨before, script, after⟩ := target
      obtain ⟨hsplit, inside, content, rfl⟩ := importTarget_eq_some htarget
      have htaken := injectImports_of_some himports hunclosed htarget file
      rw [String.ofList_toList] at htaken
      exact .inr (.inl ⟨before, inside, content, after, hsplit, htaken⟩)

/-- A script among the tokens takes a text right behind its opening tag. -/
theorem insertAt_script {inside content : List Char}
    (h : tokens residual.toList = before ++ .script inside content :: after) (text : String) :
    insertAt residual (byteLength (tokensText before ++ (scriptOpening ++ inside ++ ['>']))) text =
      String.ofList (tokensText (before ++ .script inside (text.toList ++ content) :: after)) := by
  have hsource : residual.toList = tokensText before ++ (scriptOpening ++ inside ++ ['>']) ++
      (content ++ tokensText after) := by
    rw [← tokensText_tokens residual.toList, h]
    simp [Token.render]
  rw [insertAt_byteLength hsource]
  simp [Token.render]

theorem insertAt_zero (source text : String) : insertAt source 0 text = text ++ source := by
  have hsource : source.toList = [] ++ source.toList := rfl
  have h := insertAt_byteLength hsource text
  rw [byteLength_nil, List.nil_append, String.ofList_append, String.ofList_toList,
    String.ofList_toList] at h
  exact h

/-- One statement for each import, in order. -/
theorem toList_importBlock (imports : List Import) :
    (importBlock imports).toList = imports.flatMap fun i => i.statement.toList := by
  induction imports with
  | nil => rfl
  | cons i imports ih =>
    have hcons : importBlock (i :: imports) = i.statement ++ importBlock imports := by
      rw [importBlock, List.map_cons, String.join_cons, ← importBlock]
    rw [hcons, String.toList_append, ih, List.flatMap_cons]

/-- Injection puts one text into the source, which can be taken out again, at one offset: the
statements of the imports right behind a script's opening tag, or a script of their own at the top.
It fails only where a script's opening tag is never closed. -/
theorem injectImports_inserts (residual : String) (file : Path) {imports : List Import}
    (himports : imports ≠ []) :
    (∀ code, injectImports residual file imports = .ok code →
      ∃ offset text, IsBoundary residual offset ∧ code = insertAt residual offset text ∧
        removeAt code offset text.utf8ByteSize = residual ∧
        (text = importBlock imports ∧ ScriptTagEndsAt residual offset ∨
          text = "<script>" ++ importBlock imports ++ "\n</script>\n" ∧
            code = text ++ residual)) ∧
    (∀ failure, injectImports residual file imports = .error failure →
      failure = .malformedScript file ∧ HasOpenScriptTag residual) ∧
    (importBlock imports).toList = imports.flatMap fun i =>
      ("\nimport " ++ (declaredName? i.fileName).getD i.name ++ " from './" ++ i.fileName ++
        "';").toList := by
  refine ⟨?_, ?_, ?_⟩
  · intro code hcode
    rcases injectImports_cases residual file himports with
      ⟨before, chars, after, -, herror⟩ | ⟨before, inside, content, after, hsplit, hok⟩ | hok
    · rw [herror] at hcode
      cases hcode
    · obtain rfl := Except.ok.inj (hok.symm.trans hcode)
      have hends := scriptTagEndsAt_of_tokens hsplit
      obtain ⟨front, within, back, hsource, -, -, hoffset⟩ := id hends
      have hboundary : IsBoundary residual
          (byteLength (tokensText before ++ (scriptOpening ++ inside ++ ['>']))) := by
        rw [hoffset]
        exact @isBoundary_byteLength _ _ back (by simp [hsource])
      refine ⟨_, importBlock imports, hboundary, (insertAt_script hsplit _).symm, ?_,
        .inl ⟨rfl, hends⟩⟩
      rw [← insertAt_script hsplit, removeAt_insertAt hboundary]
    · obtain rfl := Except.ok.inj (hok.symm.trans hcode)
      have hboundary : IsBoundary residual 0 := @isBoundary_byteLength residual [] _ rfl
      refine ⟨0, _, hboundary, (insertAt_zero residual _).symm, ?_, .inr ⟨rfl, rfl⟩⟩
      rw [← insertAt_zero, removeAt_insertAt hboundary]
  · intro failure hfailure
    rcases injectImports_cases residual file himports with
      ⟨before, chars, after, hsplit, herror⟩ | ⟨before, inside, content, after, -, hok⟩ | hok
    · exact ⟨(Except.error.inj (herror.symm.trans hfailure)).symm,
        hasOpenScriptTag_of_tokens hsplit⟩
    · rw [hok] at hfailure
      cases hfailure
    · rw [hok] at hfailure
      cases hfailure
  · exact toList_importBlock imports

/-- Behind a character of two bytes and a quoted `>`. -/
theorem injectImports_inserts_quoted_angle :
    let residual := "é<script title='>'>a</script>"
    let file : Path := ⟨"/App.svelte"⟩
    let imports : List Import := [⟨"A", "App__A.svelte"⟩, ⟨"B", "App__B.svelte"⟩]
    let block := "\nimport A from './App__A.svelte';\nimport B from './App__B.svelte';"
    let code := "é<script title='>'>" ++ block ++ "a</script>"
    (imports ≠ [] ∧ injectImports residual file imports = .ok code) ∧
      ∃ offset text, IsBoundary residual offset ∧ code = insertAt residual offset text ∧
        removeAt code offset text.utf8ByteSize = residual ∧
        (text = importBlock imports ∧ ScriptTagEndsAt residual offset ∨
          text = "<script>" ++ importBlock imports ++ "\n</script>\n" ∧
            code = text ++ residual) := by
  intro residual file imports block code
  have himports : imports ≠ [] := List.cons_ne_nil _ _
  let script : Token := .script " title='>'".toList "a</script>".toList
  have htokens : tokens residual.toList = [.text ['é'], script] := by decide +kernel
  have hclosed : (tokens residual.toList).any Token.isUnclosedScript = false := by
    rw [htokens]
    rfl
  have htarget : importTarget (tokens residual.toList) = some ([.text ['é']], script, []) := by
    rw [htokens]
    decide +kernel
  have hblock : importBlock imports = block := by decide +kernel
  have hwritten : String.ofList (tokensText ([.text ['é']] ++ [script.prepend block.toList])) =
      code := by
    decide +kernel
  have hcode : injectImports residual file imports = .ok code := by
    have htaken := injectImports_of_some himports hclosed htarget file
    rwa [String.ofList_toList, hblock, hwritten] at htaken
  exact ⟨⟨himports, hcode⟩, (injectImports_inserts residual file himports).1 code hcode⟩

end InlineComponents
