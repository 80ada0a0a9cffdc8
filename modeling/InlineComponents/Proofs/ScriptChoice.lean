import InlineComponents.Proofs.OpenElements
import Mathlib.Data.List.TakeWhile

namespace InlineComponents

theorem splitFirst_append {α : Type} {p : α → Bool} {before after : List α} {a : α}
    (hbefore : ∀ b ∈ before, p b = false) (ha : p a = true) :
    splitFirst p (before ++ a :: after) = some (before, a, after) := by
  have hkept : ∀ b ∈ before, (!p b) = true := by
    intro b hb
    rw [hbefore b hb]
    rfl
  have hdropped : (before ++ a :: after).dropWhile (fun b => !p b) = a :: after := by
    rw [List.dropWhile_append_of_pos hkept]
    simp [ha]
  have htaken : (before ++ a :: after).takeWhile (fun b => !p b) = before := by
    rw [List.takeWhile_append_of_pos hkept]
    simp [ha]
  rw [splitFirst, hdropped, htaken]

theorem splitFirst_eq_none {α : Type} {p : α → Bool} {l : List α} (h : ∀ a ∈ l, p a = false) :
    splitFirst p l = none := by
  have hnil : l.dropWhile (fun a => !p a) = [] := by
    rw [List.dropWhile_eq_nil_iff]
    intro a ha
    rw [h a ha]
    rfl
  rw [splitFirst, hnil]

/-- None of a list satisfies `p`, or there is a first one that does. -/
theorem exists_first {α : Type} (p : α → Bool) (l : List α) :
    (∀ b ∈ l, p b = false) ∨ ∃ front b back, l = front ++ b :: back ∧ p b = true ∧
      ∀ c ∈ front, p c = false := by
  cases h : l.find? p with
  | none => exact .inl fun b hb => by simpa using List.find?_eq_none.mp h b hb
  | some b =>
    obtain ⟨hb, front, back, hl, hfront⟩ := List.find?_eq_some_iff_append.mp h
    exact .inr ⟨front, b, back, hl, hb, fun c hc => by simpa using hfront c hc⟩

theorem isTopScript_of_isInstanceScript {p : OpenElements × Token} (h : isInstanceScript p = true) :
    isTopScript p = true := by
  obtain ⟨opened, t⟩ := p
  cases opened with
  | nil => cases t <;> first | rfl | exact absurd h Bool.false_ne_true
  | cons => exact absurd h Bool.false_ne_true

section Injection

variable {s : List Char} {imports : List Import} (himports : imports ≠ [])
  (hclosed : (tokens s).any Token.isUnclosedScript = false)

include himports hclosed

theorem injectImports_of_none (h : importTarget (tokens s) = none) (file : Path) :
    injectImports (String.ofList s) file imports =
      .ok ("<script>" ++ importBlock imports ++ "\n</script>\n" ++ String.ofList s) := by
  have hsome : imports.isEmpty = false := by simpa using himports
  simp only [injectImports, hsome, String.toList_ofList, hclosed, h, Bool.false_eq_true,
    ↓reduceIte]

theorem injectImports_of_some {before after : List Token} {script : Token}
    (h : importTarget (tokens s) = some (before, script, after)) (file : Path) :
    injectImports (String.ofList s) file imports = .ok (String.ofList
      (tokensText (before ++ script.prepend (importBlock imports).toList :: after))) := by
  have hsome : imports.isEmpty = false := by simpa using himports
  simp only [injectImports, hsome, String.toList_ofList, hclosed, h, Bool.false_eq_true,
    ↓reduceIte]

end Injection

/-- The text of the imports goes in front of what a script contains. -/
theorem render_prepend (block inside content ending : List Char) :
    ((Token.script inside (content ++ RawTag.script.closing ++ ending ++ ['>'])).prepend block).render =
      (Node.raw .script inside (block ++ content) ending).render := by
  simp [Token.prepend, Token.render, Node.render, scriptOpening]

namespace Node

variable {before after doc : List Node} {inside content ending : List Char}

def isScript : Node → Bool
  | .raw .script .. => true
  | _ => false

/-- A script that is none of the module. -/
def isInstanceScript : Node → Bool
  | .raw .script inside .. => !isModuleScript inside
  | _ => false

/-- A script ends nothing that is left open before it. -/
theorem AllEnded.of_append_script {parent : Option ElementName}
    (h : AllEnded parent (before ++ .raw .script inside content ending :: after)) :
    AllEnded none before ∧ AllEnded parent after := by
  induction before with
  | nil => exact ⟨trivial, h.2⟩
  | cons n before ih =>
    obtain ⟨hn, hrest⟩ := h
    obtain ⟨hbefore, hafter⟩ := ih hrest
    refine ⟨⟨?_, hbefore⟩, hafter⟩
    intro name hname
    have hended : EndedBy parent name (before ++ .raw .script inside content ending :: after) :=
      hn name hname
    rw [EndedBy, List.find?_append] at hended
    rw [EndedBy]
    cases hf : before.find? isElement with
    | some next => rwa [hf] at hended
    | none =>
      rw [hf] at hended
      obtain ⟨other, ho, -⟩ := hended
      cases ho

/-- No tag of a document is a script without an end. -/
theorem isUnclosedScript_of_mem_tagsAll (ns : List Node) :
    ∀ t ∈ tagsAll ns, t.isUnclosedScript = false := by
  induction ns using list_induction with
  | nil => simp [tagsAll]
  | text chars ns ih => simpa [tagsAll, tags] using ih
  | expression said ns ih => simpa [tagsAll, tags] using ih
  | comment said ns ih => simpa [tagsAll, tags] using ih
  | raw tag inside content ending ns ih =>
    cases tag with
    | script => simpa [tagsAll, tags, Token.isUnclosedScript] using ih
    | style => simpa [tagsAll, tags] using ih
  | childless name inside ns ih => simpa [tagsAll, tags, Token.isUnclosedScript] using ih
  | element name inside children ending ns ihchildren ih =>
    intro t ht
    rw [tagsAll, tags, List.cons_append, List.mem_cons, List.mem_append, List.mem_append] at ht
    rcases ht with rfl | (ht | ht) | ht
    · rfl
    · exact ihchildren t ht
    · obtain ⟨closing, -, rfl⟩ := List.mem_map.mp ht
      rfl
    · exact ih t ht

/-- The document is read as its tags, with text between them. -/
theorem filter_isTag_tokens (hw : AllWellFormed doc) :
    (tokens (renderAll doc)).filter Token.isTag = tagsAll doc := by
  obtain ⟨ts, hts, hnone⟩ := exists_tokens_eq (renderAll doc)
  obtain ⟨us, hus, htags⟩ := reads_renderAll doc hw []
  have hmarkup : markupTokens (renderAll doc) = us := by
    rw [List.append_nil] at hus
    rw [hus, markupTokens, List.dropWhile_nil, tokens_nil, List.append_nil]
  rw [hts, List.filter_append, hnone, hmarkup, htags, List.nil_append]

theorem any_isUnclosedScript_tokens (hw : AllWellFormed doc) :
    (tokens (renderAll doc)).any Token.isUnclosedScript = false := by
  rw [List.any_eq_false]
  intro t ht hu
  have htag : t.isTag = true := by
    cases t <;> first | rfl | exact absurd hu Bool.false_ne_true
  have hmem : t ∈ tagsAll doc := filter_isTag_tokens hw ▸ List.mem_filter.mpr ⟨ht, htag⟩
  rw [isUnclosedScript_of_mem_tagsAll doc t hmem] at hu
  cases hu

/-- Tokens with the tags of a document leave no element open, and their scripts that no element
contains are those of the document. -/
theorem afterAll_eq_of_filter_isTag (hw : AllWellFormed doc) (he : AllEnded none doc)
    {ts : List Token} (hts : ts.filter Token.isTag = tagsAll doc) :
    OpenElements.afterAll [] ts = [] ∧
      topScripts [] ts = (doc.filterMap script?).map (([], ·)) := by
  have hpasses : Passes none [] none doc := passes doc hw he (fun _ _ _ _ => rfl) (by simp)
  obtain ⟨hafter, hscripts⟩ := filter_isTag [] ts
  rw [hts] at hafter hscripts
  refine ⟨?_, hscripts.symm.trans hpasses.scripts⟩
  obtain ⟨left, hleft, hended⟩ := hpasses.left
  obtain rfl : left = none := by
    cases left with
    | none => rfl
    | some name =>
      obtain ⟨outer, ho, -⟩ := hended name rfl
      cases ho
  exact hafter.symm.trans hleft

/-- What is read as a script that no element contains is one of the document's own nodes. -/
theorem exists_of_isTopScript {ts : List Token}
    (hts : topScripts [] ts = (doc.filterMap script?).map (([], ·)))
    {p : OpenElements × Token} (hp : p ∈ placedFrom [] ts) (htop : isTopScript p = true) :
    ∃ n ∈ doc, n.isScript = true ∧ n.isInstanceScript = InlineComponents.isInstanceScript p := by
  have hmem : p ∈ topScripts [] ts := List.mem_filter.mpr ⟨hp, htop⟩
  rw [hts] at hmem
  obtain ⟨t, ht, rfl⟩ := List.mem_map.mp hmem
  obtain ⟨n, hn, hscript⟩ := List.mem_filterMap.mp ht
  refine ⟨n, hn, ?_⟩
  cases n with
  | raw tag inside content ending =>
    cases tag with
    | script =>
      cases Option.some.inj hscript
      exact ⟨rfl, rfl⟩
    | style => cases hscript
  | _ => cases hscript

theorem isInstanceScript_eq_false {ts : List Token}
    (hts : topScripts [] ts = (doc.filterMap script?).map (([], ·)))
    (h : ∀ n ∈ doc, n.isInstanceScript = false) :
    ∀ p ∈ placedFrom [] ts, InlineComponents.isInstanceScript p = false := by
  intro p hp
  rw [Bool.eq_false_iff]
  intro hinstance
  obtain ⟨n, hn, -, heq⟩ :=
    exists_of_isTopScript hts hp (isTopScript_of_isInstanceScript hinstance)
  rw [h n hn, hinstance] at heq
  cases heq

theorem isTopScript_eq_false {ts : List Token}
    (hts : topScripts [] ts = (doc.filterMap script?).map (([], ·)))
    (h : ∀ n ∈ doc, n.isScript = false) : ∀ p ∈ placedFrom [] ts, isTopScript p = false := by
  intro p hp
  rw [Bool.eq_false_iff]
  intro htop
  obtain ⟨n, hn, hscript, -⟩ := exists_of_isTopScript hts hp htop
  rw [h n hn] at hscript
  cases hscript

/-- A script of a document is a token of its own, between the tokens of what stands before it and
those of what stands after it. -/
theorem exists_tokens_script
    (hw : AllWellFormed (before ++ .raw .script inside content ending :: after)) :
    ∃ ts us, tokens (renderAll (before ++ .raw .script inside content ending :: after)) =
        ts ++ .script inside (content ++ RawTag.script.closing ++ ending ++ ['>']) :: us ∧
      (tokensText ts = renderAll before ∧ ts.filter Token.isTag = tagsAll before) ∧
      tokensText us = renderAll after ∧ us.filter Token.isTag = tagsAll after := by
  obtain ⟨hbefore, hscript, hafter⟩ := allWellFormed_append.mp hw
  let script : Node := .raw .script inside content ending
  let token : Token := .script inside (content ++ RawTag.script.closing ++ ending ++ ['>'])
  obtain ⟨plain, hplain, hnone⟩ := exists_tokens_eq (renderAll before ++ renderAll (script :: after))
  obtain ⟨ts, hts, htags⟩ := reads_renderAll before hbefore (renderAll (script :: after))
  have hrest : markupTokens (renderAll (script :: after)) = token :: tokens (renderAll after) :=
    (isToken_raw hscript).markupTokens_append (renderAll after)
  have htokens : tokens (renderAll (before ++ script :: after)) =
      (plain ++ ts) ++ token :: tokens (renderAll after) := by
    rw [renderAll_append, hplain, hts, hrest, List.append_assoc]
  refine ⟨plain ++ ts, tokens (renderAll after), htokens, ⟨?_, ?_⟩, tokensText_tokens _,
    filter_isTag_tokens hafter⟩
  · have htext := tokensText_tokens (renderAll (before ++ script :: after))
    have hrender : token.render = script.render := (isToken_raw hscript).render_eq
    rw [htokens, tokensText_append, tokensText_cons, tokensText_tokens, renderAll_append, renderAll,
      hrender] at htext
    exact List.append_cancel_right htext
  · rw [List.filter_append, hnone, htags, List.nil_append]

/-- The imports go to the script that is the first of the document's own that are none of the
module or, where all are the module's, to the first of its own. -/
theorem importTarget_tokens
    (hw : AllWellFormed (before ++ .raw .script inside content ending :: after))
    (he : AllEnded none (before ++ .raw .script inside content ending :: after))
    (hchosen : (isModuleScript inside = false ∧ ∀ n ∈ before, n.isInstanceScript = false) ∨
      ((∀ n ∈ before ++ .raw .script inside content ending :: after, n.isInstanceScript = false) ∧
        ∀ n ∈ before, n.isScript = false)) :
    ∃ ts us, importTarget
        (tokens (renderAll (before ++ .raw .script inside content ending :: after))) =
          some (ts, .script inside (content ++ RawTag.script.closing ++ ending ++ ['>']), us) ∧
      tokensText ts = renderAll before ∧ tokensText us = renderAll after := by
  let token : Token := .script inside (content ++ RawTag.script.closing ++ ending ++ ['>'])
  obtain ⟨ts, us, htokens, ⟨hts, htags⟩, hus, -⟩ := exists_tokens_script hw
  obtain ⟨hnothing, hbefore⟩ := afterAll_eq_of_filter_isTag (allWellFormed_append.mp hw).1
    he.of_append_script.1 htags
  have hplaced : placed (ts ++ token :: us) =
      placedFrom [] ts ++ ([], token) :: placedFrom [] us := by
    rw [placed_eq, placedFrom_append, hnothing]
    rfl
  have htarget : (splitFirst InlineComponents.isInstanceScript (placed (ts ++ token :: us))).or
      (splitFirst isTopScript (placed (ts ++ token :: us))) =
        some (placedFrom [] ts, ([], token), placedFrom [] us) := by
    rcases hchosen with ⟨hinside, hnone⟩ | ⟨hnone, hfirst⟩
    · have hinstance : InlineComponents.isInstanceScript ([], token) = true := by
        simp [InlineComponents.isInstanceScript, token, hinside]
      rw [hplaced, splitFirst_append (isInstanceScript_eq_false hbefore hnone) hinstance,
        Option.some_or]
    · have hall := (afterAll_eq_of_filter_isTag hw he (filter_isTag_tokens hw)).2
      have hinstance := isInstanceScript_eq_false hall hnone
      rw [htokens, ← placed_eq] at hinstance
      rw [splitFirst_eq_none hinstance, Option.none_or, hplaced,
        splitFirst_append (isTopScript_eq_false hbefore hfirst) rfl]
  refine ⟨ts, us, ?_, hts, hus⟩
  rw [htokens, importTarget]
  dsimp only
  rw [htarget]
  simp only [Option.map_some, map_snd_placedFrom, token]

/-- The imports go in front of what the script contains that takes them. -/
theorem injectImports_script
    (hw : AllWellFormed (before ++ .raw .script inside content ending :: after))
    (he : AllEnded none (before ++ .raw .script inside content ending :: after))
    (hchosen : (isModuleScript inside = false ∧ ∀ n ∈ before, n.isInstanceScript = false) ∨
      ((∀ n ∈ before ++ .raw .script inside content ending :: after, n.isInstanceScript = false) ∧
        ∀ n ∈ before, n.isScript = false)) (file : Path)
    {imports : List Import} (himports : imports ≠ []) :
    injectImports (String.ofList (renderAll (before ++
        .raw .script inside content ending :: after))) file imports =
      .ok (String.ofList (renderAll (before ++
        .raw .script inside ((importBlock imports).toList ++ content) ending :: after))) := by
  obtain ⟨ts, us, htarget, hts, hus⟩ := importTarget_tokens hw he hchosen
  have hwritten : tokensText (ts ++ (Token.script inside
      (content ++ RawTag.script.closing ++ ending ++ ['>'])).prepend (importBlock imports).toList :: us) =
        renderAll (before ++
          .raw .script inside ((importBlock imports).toList ++ content) ending :: after) := by
    rw [tokensText_append, tokensText_cons, hts, hus, render_prepend, renderAll_append, renderAll]
  rw [injectImports_of_some himports (any_isUnclosedScript_tokens hw) htarget, hwritten]

theorem injectImports_noScript (hw : AllWellFormed doc) (he : AllEnded none doc)
    (hnone : ∀ n ∈ doc, n.isScript = false) (file : Path)
    {imports : List Import} (himports : imports ≠ []) :
    injectImports (String.ofList (renderAll doc)) file imports =
      .ok ("<script>" ++ importBlock imports ++ "\n</script>\n" ++
        String.ofList (renderAll doc)) := by
  have hscripts := (afterAll_eq_of_filter_isTag hw he (filter_isTag_tokens hw)).2
  have hinstance : ∀ n ∈ doc, n.isInstanceScript = false := by
    intro n hn
    have hscript := hnone n hn
    cases n with
    | raw tag => cases tag <;> first | rfl | cases hscript
    | _ => rfl
  have htarget : importTarget (tokens (renderAll doc)) = none := by
    rw [importTarget]
    dsimp only
    rw [placed_eq, splitFirst_eq_none (isInstanceScript_eq_false hscripts hinstance),
      splitFirst_eq_none (isTopScript_eq_false hscripts hnone)]
    rfl
  exact injectImports_of_none himports (any_isUnclosedScript_tokens hw) htarget file

/-- In a document, the scripts that no element contains are found to be its own, and the imports
go in front of what the first of them contains that is none of the module. Where all are the
module's it is the first of them, and where there is none it is a new script at the top. -/
theorem injectImports_document (hw : AllWellFormed doc) (he : AllEnded none doc) (file : Path)
    {imports : List Import} (himports : imports ≠ []) :
    ((placed (tokens (renderAll doc))).filter isTopScript).map Prod.snd = doc.filterMap script? ∧
    (∀ before inside content ending after,
      doc = before ++ .raw .script inside content ending :: after →
      (isModuleScript inside = false ∧ ∀ n ∈ before, n.isInstanceScript = false) ∨
        ((∀ n ∈ doc, n.isInstanceScript = false) ∧ ∀ n ∈ before, n.isScript = false) →
      injectImports (String.ofList (renderAll doc)) file imports =
        .ok (String.ofList (renderAll (before ++
          .raw .script inside ((importBlock imports).toList ++ content) ending :: after)))) ∧
    ((∀ n ∈ doc, n.isScript = false) →
      injectImports (String.ofList (renderAll doc)) file imports =
        .ok ("<script>" ++ importBlock imports ++ "\n</script>\n" ++
          String.ofList (renderAll doc))) := by
  have hscripts := (afterAll_eq_of_filter_isTag hw he (filter_isTag_tokens hw)).2
  refine ⟨?_, ?_, fun hnone => injectImports_noScript hw he hnone file himports⟩
  · rw [placed_eq]
    calc (topScripts [] (tokens (renderAll doc))).map Prod.snd
      _ = ((doc.filterMap script?).map fun t => (([] : OpenElements), t)).map Prod.snd := by
        rw [hscripts]
      _ = doc.filterMap script? := by
        rw [List.map_map]
        exact List.map_id _
  · rintro before inside content ending after rfl hchosen
    exact injectImports_script hw he hchosen file himports

/-- With a script in an element and one of the module before the script that takes the import, and
with elements ended by the next opening tag or by the closing tag of their parent. -/
theorem injectImports_document_open_elements :
    let before : List Node :=
      [.element ['s', 'v', 'e', 'l', 't', 'e', ':', 'h', 'e', 'a', 'd'] []
          [.raw .script [] ['a'] [], .childless ['m', 'e', 't', 'a'] []] (some []),
        .element ['u', 'l'] [' ', 'i', 'd', '=', '\'', '>', '\'']
          [.element ['l', 'i'] [] [.text ['b']] none,
            .element ['l', 'i'] [] [.expression ['\'', '}', '\'']] none] (some []),
        .element ['p'] [] [.text ['é']] none, .comment ['<', 'p', '>'],
        .element ['d', 'i', 'v'] [] [] (some []),
        .raw .script [' ', 'm', 'o', 'd', 'u', 'l', 'e'] ['c'] []]
    let doc (content : List Char) : List Node :=
      before ++ .raw .script [] content [] :: [.childless ['N', 'a', 'v'] [' ', '/']]
    let imports : List Import := [⟨"Nav", "App__Nav.svelte"⟩]
    let file : Path := ⟨"/App.svelte"⟩
    (AllWellFormed (doc ['d']) ∧ AllEnded none (doc ['d']) ∧ imports ≠ []) ∧
    injectImports (String.ofList (renderAll (doc ['d']))) file imports =
      .ok (String.ofList (renderAll (doc ((importBlock imports).toList ++ ['d'])))) := by
  intro before doc imports file
  have hw : AllWellFormed (doc ['d']) := by decide
  have he : AllEnded none (doc ['d']) := by decide
  have hi : imports ≠ [] := List.cons_ne_nil _ _
  obtain ⟨-, htakes, -⟩ := injectImports_document hw he file hi
  have hmodule : isModuleScript [' ', 'm', 'o', 'd', 'u', 'l', 'e'] = true := by decide +kernel
  have hinstance : isModuleScript [] = false := by decide +kernel
  have hbefore : ∀ n ∈ before, n.isInstanceScript = false := by
    simp [before, isInstanceScript, hmodule]
  exact ⟨⟨hw, he, hi⟩, htakes before [] ['d'] [] _ rfl (.inl ⟨hinstance, hbefore⟩)⟩

end Node

end InlineComponents
