import InlineComponents.Proofs.Carrying
import InlineComponents.Proofs.JsonStrings
import InlineComponents.Proofs.Stylesheets

namespace InlineComponents

namespace Plugin

open Session

/-- What is kept as a stylesheet is not blank. -/
theorem allBlank_of_emittedStylesheet {p : Plugin} {output : CompileOutput} {css : String}
    (h : p.emittedStylesheet output = some css) :
    p.options.emitCss = true ∧ stylesheet output.css = some css ∧
      allBlank css.toList = false := by
  unfold emittedStylesheet at h
  split at h
  · next hemit =>
    refine ⟨hemit, h, ?_⟩
    have hblank := (Option.filter_eq_some_iff.mp h).2
    simpa using hblank
  · cases h

/-- A stylesheet leads to itself, whatever the files are and whoever imports it. -/
theorem onResolveId_of_asset {σ : Type} [FileSystem σ] {s : Session σ} {specifier : String}
    (h : (s.asset? specifier).isSome = true) (importer : Option String) :
    onResolveId specifier importer s = (.ok (some specifier), s) :=
  if_pos h

variable {σ : Type} [FileSystem σ]

/-- Once a stylesheet is kept under an id, there is one, which is not blank, whatever happens. -/
theorem asset?_foldl_turn_of_some {p : Plugin} {s : Session σ} {key css : String}
    (h : s.asset? key = some css) (hblank : allBlank css.toList = false) (run : List (Turn σ)) :
    ∃ css', (run.foldl p.turn s).asset? key = some css' ∧ allBlank css'.toList = false := by
  rw [asset?_foldl_turn, h]
  cases hlast : p.lastEmitted s run key with
  | none => exact ⟨css, rfl, hblank⟩
  | some css' =>
    obtain ⟨code, id, -, -, hcss⟩ :=
      exists_transform_of_mem_emissions (mem_emissions_of_lastEmitted hlast)
    obtain ⟨output, -, houtput⟩ := Option.bind_eq_some_iff.mp hcss
    exact ⟨css', rfl, (allBlank_of_emittedStylesheet houtput).2.2⟩

/-- Where a transform adds to the compiled code, it adds the import of its stylesheet, whose
specifier is a JSON string; the import leads to itself ever after, and to a stylesheet that is not
blank. Where there is no stylesheet to be kept, nothing is added. -/
theorem import_of_transform (p : Plugin) {s t : Session σ} {code id : String}
    {out : TransformOutput} (h : p.transform code id s = (.ok (some out), t)) :
    ∃ output, p.compiled? code id = some output ∧
      (out.code ≠ output.js →
        ∃ literal, out.code = output.js ++ "\nimport " ++ literal ++ ";" ∧
          Json.read literal = .ok (.string (stylesheetId id)) ∧
          ∀ run : List (Turn σ), let u := run.foldl p.turn t
            (∀ {τ : Type} [FileSystem τ] (files : τ) (importer : Option String),
              onResolveId (stylesheetId id) importer (u.onFiles fun _ => files) =
                (.ok (some (stylesheetId id)), u.onFiles fun _ => files)) ∧
            ∃ css, onLoad (stylesheetId id) u = some (css, .css) ∧
              allBlank css.toList = false) ∧
      (p.options.emitCss = false ∨ stylesheet output.css = none →
        out.code = output.js ∧ t.assets = s.assets) := by
  obtain ⟨output, houtput, hcode, hassets⟩ := emitted_of_transform h
  refine ⟨output, houtput, ?_, ?_⟩
  · intro hadded
    cases hcss : p.emittedStylesheet output with
    | none =>
      rw [emittedCode, hcss] at hcode
      exact absurd hcode hadded
    | some css =>
      rw [emittedCode, hcss] at hcode
      refine ⟨jsonString (stylesheetId id), hcode, read_jsonString _, ?_⟩
      intro run u
      have hkept : t.asset? (stylesheetId id) = some css :=
        asset?_of_transform h (by rw [houtput, Option.bind_some, hcss])
      obtain ⟨css', hasset, hblank⟩ := asset?_foldl_turn_of_some (p := p) hkept
        (allBlank_of_emittedStylesheet hcss).2.2 run
      refine ⟨?_, css', ?_, hblank⟩
      · intro τ _ files importer
        refine onResolveId_of_asset ?_ importer
        show (u.asset? (stylesheetId id)).isSome = true
        rw [hasset]
        rfl
      · rw [onLoad, hasset]
        rfl
  · intro hnone
    have hcss : p.emittedStylesheet output = none := by
      rcases hnone with hoff | hblank
      · rw [emittedStylesheet, if_neg (by simp [hoff])]
      · rw [emittedStylesheet, hblank, ite_self]
    rw [emittedCode, hcss] at hcode
    rw [emittedAssets, hcss] at hassets
    exact ⟨hcode, hassets⟩

theorem import_of_transform_scoped :
    let p : Plugin := ⟨.default, none, none, fun source options =>
      .ok ⟨source, none, some options.filename, [], []⟩⟩
    let s : Session Memory := .start .empty
    let run : List (Turn Memory) := [.flush, .resolve "pkg" (some "/A.svelte"),
      .happen (.build (.moduleParsed "/A__B.svelte"))]
    let u := run.foldl p.turn (p.transform "" "/A.svelte" s).2
    (p.transform "" "/A.svelte" s).1 = .ok (some ⟨"\nimport \"/A.css\";", none, []⟩) ∧
      onResolveId (stylesheetId "/A.svelte") none u =
        (.ok (some (stylesheetId "/A.svelte")), u) ∧
      ∃ css, onLoad (stylesheetId "/A.svelte") u = some (css, .css) ∧
        allBlank css.toList = false := by
  intro p s run u
  have hout : (p.transform "" "/A.svelte" s).1 =
      .ok (some ⟨"\nimport \"/A.css\";", none, []⟩) :=
    toOption_eq_some_iff.mp (by decide +kernel)
  have he : p.extraction? "" "/A.svelte" = some ⟨"", []⟩ := by decide +kernel
  have hcompiled : p.compiled? "" "/A.svelte" = some ⟨"", none, some "/A.svelte", [], []⟩ := by
    rw [compiled?, he]
    rfl
  obtain ⟨output, houtput, hadded, -⟩ := import_of_transform p (Prod.ext hout rfl)
  obtain rfl := Option.some.inj (houtput.symm.trans hcompiled)
  obtain ⟨literal, -, -, hlater⟩ := hadded (by decide)
  obtain ⟨hresolved, hloaded⟩ := hlater run
  exact ⟨hout, hresolved u.files none, hloaded⟩

end Plugin

end InlineComponents
