import InlineComponents.Proofs.ScriptChoice

namespace InlineComponents

/-- A component's name: ASCII letters and digits, the first of them a capital. -/
def isComponentName (name : List Char) : Bool :=
  match name with
  | [] => false
  | c :: cs => isUpper c && cs.all Char.isAlphanum

theorem isElementName_of_isComponentName {name : List Char} (h : isComponentName name = true) :
    IsElementName name := by
  cases name with
  | nil => cases h
  | cons c cs =>
    obtain ⟨hupper, hrest⟩ := Bool.and_eq_true_iff.mp h
    have hfirst : c.isAlpha = true := by
      have hcapital : c.isUpper = true := by
        obtain ⟨hlow, hhigh⟩ := Bool.and_eq_true_iff.mp hupper
        exact decide_eq_true ⟨of_decide_eq_true hlow, of_decide_eq_true hhigh⟩
      show (c.isUpper || c.isLower) = true
      rw [hcapital, Bool.true_or]
    have hplain {d : Char} (hd : d.isAlphanum = true) :
        isBoundary d = false ∧ isQuote d = false ∧ d ≠ '{' := by
      have hne (e : Char) (he : e.isAlphanum = false) : d ≠ e := by
        rintro rfl
        rw [hd] at he
        cases he
      refine ⟨?_, ?_, hne _ rfl⟩
      · simp [isBoundary, hne ' ' rfl, hne '\t' rfl, hne '\n' rfl, hne '\r' rfl, hne '>' rfl,
          hne '/' rfl]
      · simp [isQuote, hne '"' rfl, hne '\'' rfl]
    refine ⟨hfirst, ?_, ?_⟩
    · intro d hd
      apply hplain
      rcases List.mem_cons.mp hd with rfl | hd
      · simp [Char.isAlphanum, hfirst]
      · exact List.all_eq_true.mp hrest d hd
    · constructor <;>
      · intro heq
        rw [(List.cons.inj heq).1] at hupper
        cases hupper

/-- No opening tag ends a component that is open. -/
theorem endedBy_of_isComponentName {name : List Char} (h : isComponentName name = true) :
    endedBy (String.ofList name) = [] := by
  have hne (other : String) (ho : isComponentName other.toList = false) :
      String.ofList name ≠ other := by
    rintro rfl
    rw [String.toList_ofList, h] at ho
    cases ho
  unfold endedBy
  split <;> first | rfl | (next heq => exact absurd heq (hne _ rfl))

namespace Node

mutual

/-- Text, scripts and elements with both their tags. An element is a component with a name that is
allowed, or an element that is not void and that no child ends. -/
def IsPaired (allowed : List Char → Prop) : Node → Prop
  | .text chars => (Node.text chars).WellFormed
  | .raw .script inside content ending => (Node.raw .script inside content ending).WellFormed
  | .element name inside children (some ending) =>
    (IsElementInside inside ∧ endsWithSlash inside = false ∧ IsElementInside ending) ∧
      (isComponentName name = true ∧ allowed name ∨
        IsElementName name ∧ isVoid (String.ofList name) = false ∧
          ∀ child ∈ children, ∀ other ∈ child.opened?, other ∉ endedBy (String.ofList name)) ∧
      AllPaired allowed children
  | _ => False

def AllPaired (allowed : List Char → Prop) : List Node → Prop
  | [] => True
  | n :: ns => n.IsPaired allowed ∧ AllPaired allowed ns

end

variable {allowed : List Char → Prop}

theorem allEnded_of_allPaired {parent : Option ElementName} {ns : List Node}
    (h : AllPaired allowed ns) : AllEnded parent ns := by
  induction ns with
  | nil => trivial
  | cons n ns ih =>
    refine ⟨?_, ih h.2⟩
    have hn := h.1
    cases n with
    | element name inside children ending =>
      cases ending with
      | none => exact hn.elim
      | some ending => simp [unclosed?]
    | _ => simp [unclosed?]

/-- Where no component has the name of a void element, all elements are read as they are written. -/
theorem allWellFormed_of_allPaired
    (ha : ∀ name, isComponentName name = true → allowed name → isVoid (String.ofList name) = false)
    (ns : List Node) (h : AllPaired allowed ns) : AllWellFormed ns := by
  induction ns using list_induction with
  | nil => trivial
  | text chars ns ih => exact ⟨h.1, ih h.2⟩
  | expression said ns ih => exact h.1.elim
  | comment said ns ih => exact h.1.elim
  | raw tag inside content ending ns ih =>
    refine ⟨?_, ih h.2⟩
    cases tag with
    | script => exact h.1
    | style => exact h.1.elim
  | childless name inside ns ih => exact h.1.elim
  | element name inside children ending ns ihchildren ih =>
    obtain ⟨hn, hns⟩ := h
    refine ⟨?_, ih hns⟩
    cases ending with
    | none => exact hn.elim
    | some ending =>
      obtain ⟨⟨hinside, hslash, hending⟩, hname, hchildren⟩ := hn
      obtain ⟨helement, hvoid, hkept⟩ : IsElementName name ∧ isVoid (String.ofList name) = false ∧
          ∀ child ∈ children, ∀ other ∈ child.opened?, other ∉ endedBy (String.ofList name) := by
        rcases hname with ⟨hcomponent, hallowed⟩ | helement
        · refine ⟨isElementName_of_isComponentName hcomponent, ha name hcomponent hallowed, ?_⟩
          rw [endedBy_of_isComponentName hcomponent]
          simp
        · exact helement
      exact ⟨⟨helement, hinside, by simpa using hending⟩, ⟨hslash, hvoid⟩, hkept,
        allEnded_of_allPaired hchildren, ihchildren hchildren⟩

theorem exists_script_of_isScript {n : Node} (h : n.isScript = true) :
    ∃ inside content ending, n = .raw .script inside content ending ∧
      n.isInstanceScript = !isModuleScript inside := by
  cases n with
  | raw tag inside content ending =>
    cases tag with
    | script => exact ⟨inside, content, ending, rfl, rfl⟩
    | style => cases h
  | _ => cases h

/-- Among nodes with a script there is one that takes the imports. -/
theorem exists_chosen {doc : List Node} (h : ∃ n ∈ doc, n.isScript = true) :
    ∃ before inside content ending after, doc = before ++ .raw .script inside content ending :: after ∧
      ((isModuleScript inside = false ∧ ∀ n ∈ before, n.isInstanceScript = false) ∨
        ((∀ n ∈ doc, n.isInstanceScript = false) ∧ ∀ n ∈ before, n.isScript = false)) := by
  rcases exists_first isInstanceScript doc with hnone | ⟨before, n, after, hdoc, hn, hbefore⟩
  · rcases exists_first isScript doc with htop | ⟨before, n, after, hdoc, hn, hbefore⟩
    · obtain ⟨n, hn, hscript⟩ := h
      rw [htop n hn] at hscript
      cases hscript
    · obtain ⟨inside, content, ending, rfl, -⟩ := exists_script_of_isScript hn
      exact ⟨before, inside, content, ending, after, hdoc, .inr ⟨hnone, hbefore⟩⟩
  · have hscript : n.isScript = true := by
      cases n with
      | raw tag => cases tag <;> first | rfl | cases hn
      | _ => cases hn
    obtain ⟨inside, content, ending, rfl, heq⟩ := exists_script_of_isScript hscript
    rw [hn] at heq
    exact ⟨before, inside, content, ending, after, hdoc, .inl ⟨by simpa using heq, hbefore⟩⟩

/-- The imports go into a script that no element of the document contains, or into a new one in
front of it, and into a new one if all its scripts are in elements. -/
structure ImportsAtTop (doc : List Node) (file : Path) (imports : List Import) : Prop where
  taken : (∃ before inside content ending after,
      doc = before ++ .raw .script inside content ending :: after ∧
        injectImports (String.ofList (renderAll doc)) file imports =
          .ok (String.ofList (renderAll (before ++
            .raw .script inside ((importBlock imports).toList ++ content) ending :: after)))) ∨
    injectImports (String.ofList (renderAll doc)) file imports =
      .ok ("<script>" ++ importBlock imports ++ "\n</script>\n" ++ String.ofList (renderAll doc))
  prepended : (∀ n ∈ doc, n.isScript = false) →
    injectImports (String.ofList (renderAll doc)) file imports =
      .ok ("<script>" ++ importBlock imports ++ "\n</script>\n" ++ String.ofList (renderAll doc))

theorem importsAtTop_of_allWellFormed {doc : List Node} (hw : AllWellFormed doc)
    (he : AllEnded none doc) (file : Path) {imports : List Import} (himports : imports ≠ []) :
    ImportsAtTop doc file imports := by
  have hnone (h : ∀ n ∈ doc, n.isScript = false) := injectImports_noScript hw he h file himports
  refine ⟨?_, hnone⟩
  by_cases h : ∃ n ∈ doc, n.isScript = true
  · obtain ⟨before, inside, content, ending, after, rfl, hchosen⟩ := exists_chosen h
    exact .inl ⟨before, inside, content, ending, after, rfl,
      injectImports_script hw he hchosen file himports⟩
  · refine .inr (hnone fun n hn => ?_)
    rw [Bool.eq_false_iff]
    exact fun hscript => h ⟨n, hn, hscript⟩

/-- An element with both its tags around a script. -/
def around (name content : List Char) : Node :=
  .element name [] [.raw .script [] content []] (some [])

variable {name content : List Char}

theorem tokens_around (hn : IsElementName name)
    (hc : ∀ rest, rest <:+ content → beginsTag RawTag.script.closing rest = false) :
    tokens (renderAll [around name content]) =
      [.opening name [], .script [] (content ++ RawTag.script.closing ++ [] ++ ['>']),
        .closing name []] := by
  have hempty : IsElementInside [] := by decide
  have hinside : IsTagInside [] := by decide
  have hscript : (Node.raw .script [] content []).WellFormed := ⟨hinside, hc, hinside⟩
  have hrender : renderAll [around name content] = '<' :: (name ++ ([] ++ ['>'])) ++
      ((Node.raw .script [] content []).render ++ (closingTag name (some []) ++ [])) := by
    simp [around, renderAll, render]
  rw [hrender, (isToken_opening hn hempty).tokens_append, (isToken_raw hscript).tokens_append,
    (isToken_closing hn hempty).tokens_append, tokens_nil]
  rfl

/-- The script in an element with the name of a void one takes the imports. -/
theorem injectImports_around (hn : IsElementName name) (hv : isVoid (String.ofList name) = true)
    (hc : ∀ rest, rest <:+ content → beginsTag RawTag.script.closing rest = false) (file : Path)
    {imports : List Import} (himports : imports ≠ []) :
    injectImports (String.ofList (renderAll [around name content])) file imports =
      .ok (String.ofList (renderAll [around name ((importBlock imports).toList ++ content)])) := by
  let opening : Token := .opening name []
  let script : Token := .script [] (content ++ RawTag.script.closing ++ [] ++ ['>'])
  let closing : Token := .closing name []
  have htokens : tokens (renderAll [around name content]) = [opening, script, closing] :=
    tokens_around hn hc
  -- the opening tag opens nothing, so that the script is at the top
  have hopens : OpenElements.after [] opening = [] := by
    simp [OpenElements.after, opening, OpenElements.endOmitted, hv]
  have hplaced : placed [opening, script, closing] =
      [([], opening)] ++ ([], script) :: [([], closing)] := by
    rw [placed_eq, placedFrom, hopens]
    rfl
  have hinstance : InlineComponents.isInstanceScript ([], script) = true := by
    have hmodule : isModuleScript [] = false := by decide +kernel
    simp [InlineComponents.isInstanceScript, script, hmodule]
  have htarget : importTarget [opening, script, closing] = some ([opening], script, [closing]) := by
    rw [importTarget]
    dsimp only
    rw [hplaced, splitFirst_append (by simp [InlineComponents.isInstanceScript, opening]) hinstance]
    rfl
  have hclosed : (tokens (renderAll [around name content])).any Token.isUnclosedScript = false := by
    rw [htokens]
    rfl
  have hwritten : tokensText ([opening] ++ script.prepend (importBlock imports).toList :: [closing]) =
      renderAll [around name ((importBlock imports).toList ++ content)] := by
    simp [around, renderAll, render, opening, script, closing, Token.prepend, Token.render,
      closingTag, scriptOpening]
  rw [← htokens] at htarget
  rw [injectImports_of_some himports hclosed htarget, hwritten]

theorem allPaired_around (hname : isComponentName name = true) (hallowed : allowed name)
    (hc : ∀ rest, rest <:+ content → beginsTag RawTag.script.closing rest = false) :
    AllPaired allowed [around name content] := by
  have hinside : IsElementInside [] := by decide
  have hscript : (Node.raw .script [] content []).WellFormed := ⟨by decide, hc, by decide⟩
  exact ⟨⟨⟨hinside, rfl, hinside⟩, .inl ⟨hname, hallowed⟩, hscript, trivial⟩, trivial⟩

theorem not_importsAtTop_around (hname : isComponentName name = true)
    (hv : isVoid (String.ofList name) = true)
    (hc : ∀ rest, rest <:+ content → beginsTag RawTag.script.closing rest = false) (file : Path)
    {imports : List Import} (himports : imports ≠ []) :
    ¬ ImportsAtTop [around name content] file imports := by
  intro h
  have htop := h.prepended (by simp [around, isScript])
  rw [injectImports_around (isElementName_of_isComponentName hname) hv hc file himports] at htop
  -- the one begins with the component's tag, and the other with that of the new script
  cases name with
  | nil => cases hname
  | cons c cs =>
    have hsecond := congrArg (fun code => code.toList[1]?) (Except.ok.inj htop)
    simp only [String.toList_ofList, String.toList_append] at hsecond
    obtain rfl : c = 's' := Option.some.inj hsecond
    cases hname

/-- Imports stay out of components exactly where no component may have the name of a void element,
in whatever case. -/
theorem importsAtTop_iff_not_isVoid (allowed : List Char → Prop) :
    (∀ doc, AllPaired allowed doc → ∀ file imports, imports ≠ [] → ImportsAtTop doc file imports) ↔
      ∀ name, isComponentName name = true → allowed name → isVoid (String.ofList name) = false := by
  constructor
  · intro h name hname hallowed
    have hempty : ∀ rest, rest <:+ [] → beginsTag RawTag.script.closing rest = false := by
      intro rest hr
      rw [List.suffix_nil.mp hr]
      rfl
    have himports : [(⟨"A", "App__A.svelte"⟩ : Import)] ≠ [] := List.cons_ne_nil _ _
    have htop := h _ (allPaired_around hname hallowed hempty) ⟨"/App.svelte"⟩ _ himports
    rw [Bool.eq_false_iff]
    exact fun hv => not_importsAtTop_around hname hv hempty _ himports htop
  · intro ha doc hdoc file imports himports
    exact importsAtTop_of_allWellFormed (allWellFormed_of_allPaired ha doc hdoc)
      (allEnded_of_allPaired hdoc) file himports

/-- A component with the name of a void element is not seen around its script. -/
theorem imports_taken_in_link :
    let doc : List Node := [around "Link".toList ['a']]
    let file : Path := ⟨"/App.svelte"⟩
    let imports : List Import := [⟨"A", "App__A.svelte"⟩]
    (AllPaired (fun _ => True) doc ∧ imports ≠ [] ∧ ∀ n ∈ doc, n.isScript = false) ∧
      String.ofList (renderAll doc) = "<Link><script>a</script></Link>" ∧
      injectImports (String.ofList (renderAll doc)) file imports =
        .ok "<Link><script>\nimport A from './App__A.svelte';a</script></Link>" ∧
      ¬ ImportsAtTop doc file imports := by
  intro doc file imports
  have hname : isComponentName "Link".toList = true := by decide
  have hv : isVoid (String.ofList "Link".toList) = true := by decide +kernel
  have hscript : AllWellFormed [.raw .script [] ['a'] []] := by decide
  have hc := hscript.1.2.1
  have hpaired : AllPaired (fun _ => True) doc := allPaired_around hname trivial hc
  have himports : imports ≠ [] := List.cons_ne_nil _ _
  have hsource : String.ofList (renderAll doc) = "<Link><script>a</script></Link>" := by decide
  have htaken : injectImports (String.ofList (renderAll doc)) file imports =
      .ok "<Link><script>\nimport A from './App__A.svelte';a</script></Link>" := by
    rw [hsource]
    exact toOption_eq_some_iff.mp (by decide +kernel)
  exact ⟨⟨hpaired, himports, by simp [doc, around, isScript]⟩, hsource, htaken,
    not_importsAtTop_around hname hv hc file himports⟩

end Node

end InlineComponents
