import InlineComponents.Proofs.Exchange
import InlineComponents.Proofs.ExpressionTokens

namespace InlineComponents

/-- A comment as it is written in an expression. -/
def blockComment (said : List Char) : List Char :=
  '/' :: '*' :: (said ++ ['*', '/'])

/-- A comment that is read as a part of its expression and leaves the reader where it was does so
at any place between two tokens. -/
theorem leads_blockComment {said : List Char} (h : (Standing.braces 0).Leads said (.braces 0))
    (depth : Nat) : (Standing.braces depth).Leads (blockComment said) (.braces depth) := by
  have hsaid : (Standing.braces depth).Leads said (.braces depth) := by
    have hdeep := h.deepen depth rfl
    rwa [Standing.deepen, Nat.zero_add] at hdeep
  have hopens : (Standing.braces depth).Leads ['/', '*'] (.braces depth) :=
    leads_of_isNeutral rfl depth
  have hcloses : (Standing.braces depth).Leads ['*', '/'] (.braces depth) :=
    leads_of_isNeutral rfl depth
  exact hopens.append (hsaid.append hcloses)

theorem isToken_of_leads {said : List Char} (h : (Standing.braces 0).Leads said (.braces 0)) :
    IsToken ('{' :: (said ++ ['}'])) (.text ('{' :: said ++ ['}'])) :=
  isToken_expression (closeBrace_of_leads h [])

theorem closeTag_go_of_none {standing : Standing} {seen s : List Char}
    (h : closeTag.go standing seen s = none) (t : List Char) :
    closeTag.go standing seen (s ++ t) =
      closeTag.go (s.foldl Standing.next standing) (s.reverse ++ seen) t := by
  induction s generalizing standing seen with
  | nil => rfl
  | cons c s ih =>
    rw [closeTag.go] at h
    split at h
    · cases h
    · next hc =>
      rw [List.cons_append, closeTag.go, if_neg hc, ih h, List.reverse_cons, List.append_assoc,
        List.singleton_append, List.foldl_cons]

/-- A tag with an expression is closed at its `>` whatever the expression says, if it is so at
all. -/
theorem closeTag_expression {a s b : List Char} (ha : a.foldl Standing.next .plain = .plain)
    (hs : (Standing.braces 0).Leads s (.braces 0)) :
    closeTag (a ++ '{' :: (s ++ '}' :: (b ++ ['>']))) = some (a ++ '{' :: (s ++ '}' :: b), []) ↔
      closeTag a = none ∧ closeTag (b ++ ['>']) = some (b, []) := by
  cases hfront : closeTag a with
  | some closed =>
    obtain ⟨inside, rest⟩ := closed
    rw [closeTag, closeTag_go_append hfront]
    simp
  | none =>
    let seen := '}' :: (s.reverse ++ '{' :: (a.reverse ++ []))
    have hread : closeTag (a ++ '{' :: (s ++ '}' :: (b ++ ['>']))) =
        closeTag.go .plain seen (b ++ ['>']) := by
      rw [closeTag, closeTag_go_of_none hfront, ha, closeTag.go, if_neg (by simp)]
      change closeTag.go (.braces 0) _ _ = _
      rw [Standing.closeTag_go_leads rfl hs, closeTag.go, if_neg (by simp)]
      rfl
    rw [hread, closeTag_go_seen, ← closeTag]
    simp [seen]

theorem isElementInside_expression {a s s' b : List Char}
    (ha : a.foldl Standing.next .plain = .plain) (hs : (Standing.braces 0).Leads s (.braces 0))
    (hs' : (Standing.braces 0).Leads s' (.braces 0))
    (h : IsElementInside (a ++ '{' :: (s ++ '}' :: b))) :
    IsElementInside (a ++ '{' :: (s' ++ '}' :: b)) := by
  have hshape (r : List Char) : a ++ '{' :: (r ++ '}' :: b) ++ ['>'] =
      a ++ '{' :: (r ++ '}' :: (b ++ ['>'])) := by
    simp
  have hbounded := h.bounded
  have hclosed := h.closed
  rw [hshape, closeTag_expression ha hs] at hclosed
  rw [hshape] at hbounded
  refine ⟨?_, ?_⟩
  · rw [hshape]
    cases a with
    | nil => simp [isBoundary] at hbounded
    | cons c a => exact hbounded
  · rw [hshape, closeTag_expression ha hs']
    exact hclosed

namespace Node

mutual

/-- Text, expressions, scripts and elements with both their tags. -/
def IsExplicit : Node → Prop
  | .text chars => ∀ c ∈ chars, c ≠ '<' ∧ c ≠ '{' ∧ c ≠ '}'
  | .expression said => ∃ ts, ExpressionToken.AllWellFormed ts ∧ said = ExpressionToken.renderAll ts
  | .raw .script inside content ending => (Node.raw .script inside content ending).WellFormed
  | .element name inside children (some ending) =>
    (IsElementName name ∧ IsElementInside inside ∧ IsElementInside ending) ∧ AllExplicit children
  | _ => False

def AllExplicit : List Node → Prop
  | [] => True
  | n :: ns => n.IsExplicit ∧ AllExplicit ns

end

theorem continues_renderAll (ns : List Node) (h : AllExplicit ns) : Continues (renderAll ns) := by
  induction ns using list_induction with
  | nil => exact continues_nil
  | text chars ns ih =>
    obtain ⟨hn, hns⟩ := h
    have hplain : ∀ c ∈ chars, isPlain c = true := by
      intro c hc
      simp [isPlain, (hn c hc).1, (hn c hc).2.1]
    exact (continues_plain hplain).append (ih hns)
  | expression said ns ih =>
    obtain ⟨⟨ts, hts, rfl⟩, hns⟩ := h
    have htoken := isToken_of_leads (ExpressionToken.leads_renderAll hts 0)
    exact (htoken.continues rfl).append (ih hns)
  | comment said ns ih => exact h.1.elim
  | raw tag inside content ending ns ih =>
    cases tag with
    | script => exact ((isToken_raw h.1).continues rfl).append (ih h.2)
    | style => exact h.1.elim
  | childless name inside ns ih => exact h.1.elim
  | element name inside children ending ns ihchildren ih =>
    cases ending with
    | none => exact h.1.elim
    | some ending =>
      obtain ⟨⟨⟨hname, hinside, hending⟩, hchildren⟩, hns⟩ := h
      have hopening := (isToken_opening hname hinside).continues rfl
      have hclosing := (isToken_closing hname hending).continues rfl
      have hread := (hopening.append ((ihchildren hchildren).append hclosing)).append (ih hns)
      simpa [renderAll, render] using hread

/-- The source before and after a place between two tokens of one of its expressions. The
expression may be a node, or stand in the tag of an element. -/
inductive Between : List Node → List Char → List Char → Prop
  | expression (ns : List Node) {ts : List ExpressionToken} {u v : List Char}
      (hw : ExpressionToken.AllWellFormed ts) (h : Gap ts u v) :
    Between (.expression (ExpressionToken.renderAll ts) :: ns) ('{' :: u)
      (v ++ '}' :: renderAll ns)
  | tag (name : List Char) (children : List Node) (ending : Option (List Char)) (ns : List Node)
      {a b : List Char} {ts : List ExpressionToken} {u v : List Char}
      (ha : a.foldl Standing.next .plain = .plain) (hw : ExpressionToken.AllWellFormed ts)
      (h : Gap ts u v) :
    Between
      (.element name (a ++ '{' :: (ExpressionToken.renderAll ts ++ '}' :: b)) children ending :: ns)
      ('<' :: (name ++ (a ++ '{' :: u)))
      (v ++ '}' :: (b ++ '>' :: (renderAll children ++ (closingTag name ending ++ renderAll ns))))
  | child (name inside : List Char) (ending : Option (List Char)) (ns : List Node)
      {children : List Node} {u v : List Char} (h : Between children u v) :
    Between (.element name inside children ending :: ns) ('<' :: (name ++ (inside ++ '>' :: u)))
      (v ++ (closingTag name ending ++ renderAll ns))
  | later (n : Node) {ns : List Node} {u v : List Char} (h : Between ns u v) :
    Between (n :: ns) (n.render ++ u) v

variable {ns : List Node} {u v : List Char}

/-- What stands before the place and what stands after it are the source. -/
theorem Between.renderAll_eq (h : Between ns u v) : renderAll ns = u ++ v := by
  induction h with
  | expression ns hw h => simp [renderAll, render, h.renderAll_eq]
  | tag name children ending ns ha hw h => simp [renderAll, render, h.renderAll_eq]
  | child name inside ending ns h ih => simp [renderAll, render, ih]
  | later n h ih => rw [renderAll, ih, List.append_assoc]

/-- The place is in one token, and what leaves the reader where it was may be added there. -/
theorem Between.exists_alike (h : Between ns u v) (hns : AllExplicit ns) {added : List Char}
    (hadded : ∀ depth, (Standing.braces depth).Leads added (.braces depth)) :
    ∃ front a b back t t', u = front ++ a ∧ v = b ++ back ∧ Continues front ∧ Continues back ∧
      IsToken (a ++ b) t ∧ IsToken (a ++ (added ++ b)) t' ∧ t.Alike t' := by
  induction h with
  | @expression ns ts u v hw h =>
    have hbare : (Standing.braces 0).Leads (u ++ v) (.braces 0) :=
      h.renderAll_eq ▸ ExpressionToken.leads_renderAll hw 0
    have htoken := isToken_of_leads hbare
    have htoken' := isToken_of_leads (h.leads_append hw hadded)
    refine ⟨[], '{' :: u, v ++ ['}'], renderAll ns, .text ('{' :: (u ++ v) ++ ['}']),
      .text ('{' :: (u ++ (added ++ v)) ++ ['}']), rfl, by simp, continues_nil,
      continues_renderAll ns hns.2, ?_, ?_, .text _ _⟩
    · simpa using htoken
    · simpa using htoken'
  | @tag name children ending ns a b ts u v ha hw h =>
    cases ending with
    | none => exact hns.1.elim
    | some ending =>
      obtain ⟨⟨⟨hname, hinside, hending⟩, hchildren⟩, hrest⟩ := hns
      have hbare : (Standing.braces 0).Leads (u ++ v) (.braces 0) :=
        h.renderAll_eq ▸ ExpressionToken.leads_renderAll hw 0
      have hcommented := h.leads_append hw hadded
      rw [h.renderAll_eq] at hinside
      have hinside' := isElementInside_expression ha hbare hcommented hinside
      have hback := (continues_renderAll children hchildren).append
        (((isToken_closing hname hending).continues rfl).append (continues_renderAll ns hrest))
      have hslash : endsWithSlash (a ++ '{' :: (u ++ v ++ '}' :: b)) =
          endsWithSlash (a ++ '{' :: (u ++ (added ++ v) ++ '}' :: b)) := by
        simp [endsWithSlash, List.getLast?_append, List.getLast?_cons]
      refine ⟨[], '<' :: (name ++ (a ++ '{' :: u)), v ++ '}' :: (b ++ ['>']), _, _, _, rfl,
        by simp, continues_nil, hback, ?_, ?_, .opening name hslash⟩
      · simpa using isToken_opening hname hinside
      · simpa using isToken_opening hname hinside'
  | @child name inside ending ns children u v h ih =>
    cases ending with
    | none => exact hns.1.elim
    | some ending =>
      obtain ⟨⟨⟨hname, hinside, hending⟩, hchildren⟩, hrest⟩ := hns
      obtain ⟨front, a, b, back, t, t', rfl, rfl, hfront, hback, hread⟩ := ih hchildren
      have hopening := (isToken_opening hname hinside).continues rfl
      have hclosing := (isToken_closing hname hending).continues rfl
      refine ⟨_, a, b, _, t, t', ?_, ?_, hopening.append hfront,
        hback.append (hclosing.append (continues_renderAll ns hrest)), hread⟩
      · simp
      · simp
  | @later n ns u v h ih =>
    obtain ⟨front, a, b, back, t, t', rfl, rfl, hfront, hback, hread⟩ := ih hns.2
    have hn : Continues (renderAll [n]) := continues_renderAll [n] ⟨hns.1, trivial⟩
    rw [renderAll, renderAll, List.append_nil] at hn
    exact ⟨n.render ++ front, a, b, back, t, t', by simp, rfl, hn.append hfront, hback, hread⟩

/-- Wherever in an expression the comment is put, the imports are put into the same place of the
source. -/
def KeepsImports (said : List Char) : Prop :=
  ∀ doc u v, AllExplicit doc → Between doc u v → ∀ file imports, imports ≠ [] →
    SameInsertion file imports u (blockComment said) v

theorem keepsImports_of_leads {said : List Char}
    (h : (Standing.braces 0).Leads said (.braces 0)) : KeepsImports said := by
  intro doc u v hdoc hplace file imports himports
  obtain ⟨front, a, b, back, t, t', rfl, rfl, hfront, hback, ht, ht', halike⟩ :=
    hplace.exists_alike hdoc (leads_blockComment h)
  exact sameInsertion_of_alike hfront.isReadable hback.isReadable ht ht' halike file himports

/-- Imports that go into a script behind an expression are not at their place in a script in front
of it. -/
theorem not_sameInsertion {file : Path} {imports : List Import} {u said v s s' : List Char}
    (h : injectImports (String.ofList (u ++ v)) file imports = .ok (String.ofList ('{' :: s)))
    (h' : injectImports (String.ofList (u ++ (blockComment said ++ v))) file imports =
      .ok (String.ofList ('<' :: s'))) :
    ¬ SameInsertion file imports u (blockComment said) v := by
  rintro ⟨text, a, b, -, hbare, hcommented⟩
  have hbrace := String.ofList_injective (Except.ok.inj (h.symm.trans hbare))
  have hangle := String.ofList_injective (Except.ok.inj (h'.symm.trans hcommented))
  cases a with
  | nil => simp [blockComment] at hangle
  | cons c a =>
    obtain ⟨rfl, -⟩ := List.cons.inj hbrace
    cases hangle

/-- In a string, or in a group, the end of the comment and one brace do not lead out of the
expression, and neither does a script without content. -/
theorem exists_leads_of_ne {last : Standing} (hw : last.isWithin = true) (hq : last.IsQuoted)
    (hne : last ≠ .braces 0) :
    ∃ after, last.Leads (['*', '/', '}'] ++ renderAll [.raw .script [] [] []]) after := by
  have hliteral {quote : Char} (hquote : beginsLiteral quote = true) (depth : Nat) :=
    ExpressionToken.leads_of_not_beginsLiteral hquote
      (show (['/', '}'] ++ renderAll [.raw .script [] [] []]).all
        (fun c => !beginsLiteral c && c ≠ '\\') = true by rfl) depth
  match last with
  | .braces 0 => exact absurd rfl hne
  | .braces (depth + 1) =>
    have hend : (Standing.braces (depth + 1)).Leads ['*', '/'] (.braces (depth + 1)) :=
      leads_of_isNeutral rfl (depth + 1)
    have hclose : (Standing.braces (depth + 1)).Leads ['}'] (.braces depth) :=
      Standing.leads_singleton rfl rfl
    have hscript : (Standing.braces depth).Leads (renderAll [.raw .script [] [] []])
        (.braces depth) :=
      leads_of_isNeutral rfl depth
    exact ⟨_, (hend.append hclose).append hscript⟩
  | .literal depth quote =>
    have hstar : (Standing.literal depth quote).Leads ['*'] (.literal depth quote) :=
      ExpressionToken.leads_of_not_beginsLiteral hq rfl depth
    exact ⟨_, hstar.append (hliteral hq depth)⟩
  | .escaped depth quote => exact ⟨_, .cons rfl rfl (hliteral hq depth)⟩

/-- An expression that the comment leaves in a string or in a group swallows the script behind
it. -/
theorem tokens_unclosed {said : List Char} (h : closeBrace said = none)
    (hne : said.foldl Standing.next (.braces 0) ≠ .braces 0) :
    let s := '{' :: (blockComment said ++ '}' :: renderAll [.raw .script [] [] []])
    tokens s = [.text s] := by
  intro s
  have hsaid := Standing.leads_of_closeBrace_go rfl h
  have hopens : (Standing.braces 0).Leads ['/', '*'] (.braces 0) :=
    leads_of_isNeutral rfl 0
  obtain ⟨hw, hq⟩ := hsaid.isQuoted rfl trivial
  obtain ⟨last, hlast⟩ := exists_leads_of_ne hw hq hne
  have hread := Standing.closeBrace_go_leads ((hopens.append hsaid).append hlast) [] []
  have hunclosed : closeBrace (blockComment said ++ '}' :: renderAll [.raw .script [] [] []]) =
      none := by
    rw [closeBrace]
    simpa [blockComment, closeBrace.go] using hread
  rw [tokens_cons, nextToken]
  simp [hunclosed, s]

/-- The imports go into a script in front of the source. -/
theorem injectImports_of_text {s : List Char} (h : tokens s = [.text s]) (file : Path)
    {imports : List Import} (himports : imports ≠ []) :
    ∃ code, injectImports (String.ofList s) file imports = .ok (String.ofList ('<' :: code)) := by
  have hclosed : (tokens s).any Token.isUnclosedScript = false := by
    rw [h]
    rfl
  have htarget : importTarget (tokens s) = none := by
    rw [h]
    rfl
  have hfront : "<script>".toList = '<' :: "script>".toList := rfl
  refine ⟨"script>".toList ++ ((importBlock imports ++ "\n</script>\n").toList ++ s), ?_⟩
  rw [injectImports_of_none himports hclosed htarget, append_ofList, String.append_assoc,
    String.toList_append, hfront, List.cons_append, List.cons_append, List.append_assoc]

theorem not_keepsImports {said : List Char} (h : closeBrace said = none)
    (hne : said.foldl Standing.next (.braces 0) ≠ .braces 0) : ¬ KeepsImports said := by
  intro hkeeps
  let script : Node := .raw .script [] [] []
  let imports : List Import := [⟨"A", "App__A.svelte"⟩]
  let file : Path := ⟨"/App.svelte"⟩
  have himports : imports ≠ [] := List.cons_ne_nil _ _
  have hw : AllWellFormed ([.expression []] ++ script :: []) := by decide
  have hdoc : AllExplicit [.expression [], script] := ⟨⟨[], trivial, rfl⟩, hw.2.1, trivial⟩
  have hnone : ExpressionToken.AllWellFormed [] := trivial
  have hplace : Between [.expression [], script] ['{'] ('}' :: renderAll [script]) :=
    .expression [script] hnone (.here [])
  have hmodule : isModuleScript [] = false := by decide +kernel
  have hbefore : ∀ n ∈ [Node.expression []], n.isInstanceScript = false := by
    simp [isInstanceScript]
  have htaken := injectImports_script hw (by decide) (.inl ⟨hmodule, hbefore⟩) file himports
  have hsource (nodes : List Node) :
      renderAll ([.expression []] ++ nodes) = '{' :: '}' :: renderAll nodes := rfl
  rw [hsource, hsource] at htaken
  obtain ⟨code, hcode⟩ := injectImports_of_text (tokens_unclosed h hne) file himports
  exact not_sameInsertion htaken hcode (hkeeps _ _ _ hdoc hplace file imports himports)

/-- A comment that does not end its expression leaves the imports where they are put without it, in
every document and wherever in an expression it stands, if and only if reading it as a part of the
expression leaves the reader where it was: in as many braces, and in no string. -/
theorem keepsImports_iff {said : List Char} (h : closeBrace said = none) :
    KeepsImports said ↔ said.foldl Standing.next (.braces 0) = .braces 0 := by
  constructor
  · intro hkeeps
    by_contra hne
    exact not_keepsImports h hne hkeeps
  · intro hback
    have hleads := Standing.leads_of_closeBrace_go rfl h
    rw [hback] at hleads
    exact keepsImports_of_leads hleads

theorem keepsImports_iff_quoted_brace :
    let said := "it's \x7ba\x7d' \x7b\x60\x7d\x60\x7d".toList
    closeBrace said = none ∧ KeepsImports said := by
  intro said
  have h : closeBrace said = none := by rfl
  exact ⟨h, (keepsImports_iff h).mpr rfl⟩

/-- Behind an apostrophe in a comment no script is found. -/
theorem script_hidden_by_apostrophe :
    let doc : List Node := [.expression ['a'], .raw .script [] ['b'] []]
    let u := "\x7ba".toList
    let v := "\x7d<script>b</script>".toList
    let file : Path := ⟨"/App.svelte"⟩
    let imports : List Import := [⟨"A", "App__A.svelte"⟩]
    (AllExplicit doc ∧ Between doc u v ∧ imports ≠ [] ∧ ¬ ['*', '/'] <:+: ['\'']) ∧
      injectImports "\x7ba\x7d<script>b</script>" file imports =
        .ok "\x7ba\x7d<script>\nimport A from './App__A.svelte';b</script>" ∧
      injectImports "\x7ba/*'*/\x7d<script>b</script>" file imports =
        .ok "<script>\nimport A from './App__A.svelte';\n</script>\n\x7ba/*'*/\x7d<script>b</script>" ∧
      ¬ SameInsertion file imports u (blockComment ['\'']) v := by
  intro doc u v file imports
  have himports : imports ≠ [] := List.cons_ne_nil _ _
  have hw : AllWellFormed doc := by decide
  have htoken : ExpressionToken.AllWellFormed [.plain 'a'] := ⟨rfl, trivial⟩
  have hdoc : AllExplicit doc := ⟨⟨[.plain 'a'], htoken, rfl⟩, hw.2.1, trivial⟩
  have hplace : Between doc u v :=
    .expression [.raw .script [] ['b'] []] htoken (.later (.plain 'a') (.here []))
  have hbare : injectImports "\x7ba\x7d<script>b</script>" file imports =
      .ok "\x7ba\x7d<script>\nimport A from './App__A.svelte';b</script>" :=
    toOption_eq_some_iff.mp (by decide +kernel)
  have hcommented : injectImports "\x7ba/*'*/\x7d<script>b</script>" file imports =
      .ok "<script>\nimport A from './App__A.svelte';\n</script>\n\x7ba/*'*/\x7d<script>b</script>" :=
    toOption_eq_some_iff.mp (by decide +kernel)
  exact ⟨⟨hdoc, hplace, himports, by decide⟩, hbare, hcommented,
    not_sameInsertion hbare hcommented⟩

end Node

end InlineComponents
