import InlineComponents.Imports
import InlineComponents.Proofs.ArtifactNames
import InlineComponents.Proofs.Components
import InlineComponents.Proofs.ScriptChoice
import InlineComponents.Proofs.ScriptLiterals

namespace InlineComponents

theorem splitFirst_eq_some {α : Type} {p : α → Bool} {l before after : List α} {a : α}
    (h : splitFirst p l = some (before, a, after)) : l = before ++ a :: after ∧ p a = true := by
  unfold splitFirst at h
  split at h
  · cases h
  · next b rest hdrop =>
    obtain ⟨rfl, rfl, rfl⟩ : l.takeWhile (fun a => !p a) = before ∧ b = a ∧ rest = after := by
      simpa using h
    refine ⟨?_, ?_⟩
    · rw [← hdrop, List.takeWhile_append_dropWhile]
    · have hhead := List.head?_dropWhile_not (fun a => !p a) l
      rw [hdrop] at hhead
      simpa using hhead

/-- The imports go into a script that is one of the tokens. -/
theorem importTarget_eq_some {ts before after : List Token} {script : Token}
    (h : importTarget ts = some (before, script, after)) :
    ts = before ++ script :: after ∧ ∃ inside content, script = .script inside content := by
  obtain ⟨⟨front, ⟨opened, token⟩, back⟩, hfound, he⟩ := Option.map_eq_some_iff.mp h
  obtain ⟨rfl, rfl, rfl⟩ : front.map Prod.snd = before ∧ token = script ∧
      back.map Prod.snd = after := by simpa using he
  have hsplit : placed ts = front ++ (opened, token) :: back ∧
      isTopScript (opened, token) = true := by
    rcases Option.or_eq_some_iff.mp hfound with hinstance | ⟨-, htop⟩
    · obtain ⟨hplaced, hscript⟩ := splitFirst_eq_some hinstance
      exact ⟨hplaced, isTopScript_of_isInstanceScript hscript⟩
    · exact splitFirst_eq_some htop
  obtain ⟨hplaced, htop⟩ := hsplit
  refine ⟨?_, ?_⟩
  · have hts := map_snd_placedFrom [] ts
    rw [← placed_eq, hplaced] at hts
    rw [← hts]
    simp
  · cases opened with
    | nil =>
      cases token with
      | script inside content => exact ⟨inside, content, rfl⟩
      | _ => cases htop
    | cons => cases htop

/-- The statements of the imports are put into the residual, or into a script of their own in front
of it. -/
theorem injectImports_eq_ok {residual code : String} {file : Path} {imports : List Import}
    (h : injectImports residual file imports = .ok code) :
    ∃ front back, code.toList = front ++ (importBlock imports).toList ++ back ∧
      (front ++ back = residual.toList ∨
        front = "<script>".toList ∧ back = "\n</script>\n".toList ++ residual.toList) := by
  unfold injectImports at h
  split at h
  · next hnone =>
    obtain rfl := Except.ok.inj h
    rw [List.isEmpty_iff.mp hnone]
    exact ⟨[], residual.toList, by simp [importBlock], .inl rfl⟩
  · dsimp only at h
    split at h
    · cases h
    · split at h
      · next before script after htarget =>
        obtain ⟨htokens, inside, content, rfl⟩ := importTarget_eq_some htarget
        obtain rfl := Except.ok.inj h
        refine ⟨tokensText before ++ scriptOpening ++ inside ++ ['>'],
          content ++ tokensText after, ?_, .inl ?_⟩
        · simp [Token.prepend, Token.render]
        · rw [← tokensText_tokens residual.toList, htokens]
          simp [Token.render]
      · obtain rfl := Except.ok.inj h
        exact ⟨_, _, by simp, .inr ⟨rfl, rfl⟩⟩

theorem isBare_of_isWordChar {c : Char} (h : isWordChar c = true) : IsBare c := by
  refine ⟨?_, ?_, ?_, ?_⟩ <;> rintro rfl <;> exact absurd h (by decide)

/-- An artifact's file name stands for itself in a script just if its parent's does. -/
theorem isBare_artifactFileName_iff {file : Path} {fileName name : String}
    (hf : file.fileName = some fileName) (hn : isDeclaredName name = true) :
    (∀ c ∈ (artifactFileName file name).toList, IsBare c) ↔ ∀ c ∈ fileName.toList, IsBare c := by
  have hsplit := isSplitName_of_fileName hf
  have hbetween : ∀ c ∈ '_' :: '_' :: name.toList, IsBare c := by
    intro c hc
    rcases List.mem_cons.mp hc with rfl | hc
    · decide
    rcases List.mem_cons.mp hc with rfl | hc
    · decide
    · exact isBare_of_isWordChar ((isDeclared_of_isDeclaredName hn).wordChars c hc)
  rw [toList_artifactFileName]
  cases hx : file.extension with
  | none =>
    rw [hx] at hsplit
    rw [hsplit.1, List.append_nil, List.forall_mem_append]
    exact and_iff_left hbetween
  | some extension =>
    rw [hx] at hsplit
    rw [hsplit.2.1, List.forall_mem_append, List.forall_mem_append, List.forall_mem_append]
    exact and_congr_left' (and_iff_left hbetween)

/-- The statements before an import's, that statement up to its quote, and the rest from there. -/
theorem importBlock_append (earlier later : List Import) (i : Import) :
    (importBlock (earlier ++ i :: later)).toList = (importBlock earlier).toList ++
      ("\nimport " ++ i.binding ++ " from '").toList ++
        (("./" ++ i.fileName).toList ++ '\'' :: ';' :: (importBlock later).toList) := by
  simp [importBlock, Import.statement, String.join_append, String.join_cons]

/-- The import of a component leads to the component's file just if the file name of the parent
holds no quote, no backslash and no end of a line. -/
theorem specifier_eq_fileName_iff {source code fileName : String} {file : Path}
    {policy : DuplicatePolicy} {e : Extraction} (hf : file.fileName = some fileName)
    (he : (extract source file policy).2 = .ok e)
    (hi : injectImports e.residual file e.imports = .ok code) :
    ∃ front back, code.toList = front ++ (importBlock e.imports).toList ++ back ∧
      (front ++ back = e.residual.toList ∨
        front = "<script>".toList ∧ back = "\n</script>\n".toList ++ e.residual.toList) ∧
      ∀ earlier c later, e.components = earlier ++ c :: later →
        ∃ artifact text, c.path.fileName = some artifact ∧
          (importBlock e.imports).toList ++ back =
            (importBlock (earlier.map SubComponent.toImport)).toList ++
              ("\nimport " ++ c.name ++ " from '").toList ++ text ∧
          ((readLiteral text).map Prod.fst = some (textUnits ("./" ++ artifact).toList) ↔
            ∀ ch ∈ fileName.toList, IsBare ch) := by
  obtain ⟨front, back, hcode, hplace⟩ := injectImports_eq_ok hi
  refine ⟨front, back, hcode, hplace, ?_⟩
  intro earlier c later hsplit
  obtain ⟨-, rfl⟩ := extract_eq_ok he
  have hc : c ∈ (outline (pieces source.toList)).components file := by
    have hmem : c ∈ earlier ++ c :: later := by simp
    rwa [← hsplit] at hmem
  have hpath := (Outline.mem_components_iff.mp hc).1
  have hname := isDeclaredName_of_mem_components hc
  have hfile : c.path.fileName = some (artifactFileName file c.name) := by
    rw [hpath, fileName_artifactPath hname]
  have himport : c.toImport.fileName = artifactFileName file c.name := by
    rw [SubComponent.toImport, hfile, Option.getD_some]
  have hbinding : c.toImport.binding = c.name := by
    rw [Import.binding, himport, declaredName?_artifactFileName hname, Option.getD_some]
  refine ⟨artifactFileName file c.name, ("./" ++ artifactFileName file c.name).toList ++
    '\'' :: ';' :: ((importBlock (later.map SubComponent.toImport)).toList ++ back), hfile, ?_, ?_⟩
  · rw [Extraction.imports, hsplit, List.map_append, List.map_cons, importBlock_append, hbinding,
      himport]
    simp only [List.append_assoc, List.cons_append]
  · rw [readLiteral_eq_text_iff, ← isBare_artifactFileName_iff hf hname, String.toList_append,
      List.forall_mem_append]
    exact and_iff_right (by simp [IsBare])

theorem specifier_eq_fileName_iff_two_components :
    let source := "<template name=A>a</template><A/><template name=B></template>"
    let file : Path := ⟨"/My App.svelte"⟩
    let e : Extraction := ⟨"<A/>",
      [⟨"A", ⟨"/My App__A.svelte"⟩, "a"⟩, ⟨"B", ⟨"/My App__B.svelte"⟩, ""⟩]⟩
    let code := "<script>\nimport A from './My App__A.svelte';" ++
      "\nimport B from './My App__B.svelte';\n</script>\n<A/>"
    (file.fileName = some "My App.svelte" ∧ (extract source file .error).2 = .ok e ∧
      injectImports e.residual file e.imports = .ok code) ∧
    ∃ front back, code.toList = front ++ (importBlock e.imports).toList ++ back ∧
      (front ++ back = e.residual.toList ∨
        front = "<script>".toList ∧ back = "\n</script>\n".toList ++ e.residual.toList) ∧
      ∀ earlier c later, e.components = earlier ++ c :: later →
        ∃ artifact text, c.path.fileName = some artifact ∧
          (importBlock e.imports).toList ++ back =
            (importBlock (earlier.map SubComponent.toImport)).toList ++
              ("\nimport " ++ c.name ++ " from '").toList ++ text ∧
          ((readLiteral text).map Prod.fst = some (textUnits ("./" ++ artifact).toList) ↔
            ∀ ch ∈ "My App.svelte".toList, IsBare ch) := by
  intro source file e code
  have hf : file.fileName = some "My App.svelte" := by decide +kernel
  have he : (extract source file .error).2 = .ok e := toOption_eq_some_iff.mp (by decide +kernel)
  have hi : injectImports e.residual file e.imports = .ok code :=
    toOption_eq_some_iff.mp (by decide +kernel)
  exact ⟨⟨hf, he, hi⟩, specifier_eq_fileName_iff hf he hi⟩

/-- A quote in the parent's file name ends the specifier of its component's import. -/
theorem specifier_of_quote_in_fileName :
    let source := "<template name=A></template>"
    let file : Path := ⟨"/it's.svelte"⟩
    let e : Extraction := ⟨"", [⟨"A", ⟨"/it's__A.svelte"⟩, ""⟩]⟩
    let text := "./it's__A.svelte';\n</script>\n"
    (extract source file .error).2 = .ok e ∧
    injectImports e.residual file e.imports = .ok ("<script>\nimport A from '" ++ text) ∧
    readLiteral text.toList =
      some (textUnits "./it".toList, "s__A.svelte';\n</script>\n".toList) ∧
    textUnits "./it".toList ≠ textUnits "./it's__A.svelte".toList := by
  intro source file e text
  have he : (extract source file .error).2 = .ok e := toOption_eq_some_iff.mp (by decide +kernel)
  have hi : injectImports e.residual file e.imports =
      .ok ("<script>\nimport A from '" ++ text) := toOption_eq_some_iff.mp (by decide +kernel)
  have hbare : ∀ c ∈ "./it".toList, IsBare c := by simp [IsBare]
  have hsplit : text.toList = "./it".toList ++ '\'' :: "s__A.svelte';\n</script>\n".toList := by
    decide
  refine ⟨he, hi, ?_, by decide⟩
  rw [hsplit, readLiteral_of_isBare hbare]

end InlineComponents
