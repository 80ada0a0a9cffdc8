import InlineComponents.Proofs.Compilation

namespace InlineComponents

namespace Session

variable {σ : Type}

/-- The same stylesheets and the same hidden packages, which are beside the store. -/
structure SameBeside (s t : Session σ) : Prop where
  assets : t.assets = s.assets
  hidden : t.hidden = s.hidden

variable {s t u : Session σ}

theorem SameBeside.refl (s : Session σ) : SameBeside s s :=
  ⟨rfl, rfl⟩

theorem SameBeside.trans (h : SameBeside s t) (h' : SameBeside t u) : SameBeside s u :=
  ⟨h'.assets.trans h.assets, h'.hidden.trans h.hidden⟩

theorem frame_sameBeside : Frame (@SameBeside σ) where
  refl := SameBeside.refl
  trans := SameBeside.trans
  log _ _ := ⟨rfl, rfl⟩
  handled _ _ := ⟨rfl, rfl⟩

theorem sameBeside_setPublished (s : Session σ) (key : Path) (published : Bool) :
    SameBeside s (s.setPublished key published) := by
  rw [setPublished_eq]
  exact ⟨rfl, rfl⟩

variable [FileSystem σ]

theorem sameBeside_materialize (s : Session σ) (c : SubComponent) :
    SameBeside s (s.materialize c).2 := by
  rw [materialize_snd]
  exact ⟨rfl, rfl⟩

theorem sameBeside_publish (s : Session σ) (c : SubComponent) :
    SameBeside s (s.publish c).2 := by
  have hm := sameBeside_materialize (s.register c) c
  have hregistered : SameBeside s ((s.register c).materialize c).2 := ⟨hm.assets, hm.hidden⟩
  exact hregistered.trans (frame_sameBeside.publish s c)

theorem sameBeside_materializeAll (s : Session σ) : SameBeside s s.materializeAll.2 :=
  (frame_sameBeside.forEach sameBeside_materialize s _).trans (frame_sameBeside.materializeAll s)

theorem sameBeside_removeFile (s : Session σ) (path : Path) :
    SameBeside s (s.removeFile path) := by
  have hremoved : SameBeside s { s with files := (FileSystem.remove s.files path).2 } := ⟨rfl, rfl⟩
  exact hremoved.trans (frame_sameBeside.removeFile s path)

theorem sameBeside_release (s : Session σ) (path : Path) :
    SameBeside s (s.release path).2 := by
  unfold release
  split
  · exact (sameBeside_setPublished s _ _).trans (sameBeside_removeFile _ _)
  · exact .refl s

theorem sameBeside_drop (s : Session σ) (key : Path) : SameBeside s (s.drop key) := by
  have hremoved := sameBeside_removeFile { s with artifacts := s.artifacts.erase key } key
  exact ⟨hremoved.assets, hremoved.hidden⟩

end Session

namespace Plugin

open Work

variable {σ : Type}

/-- The compiled component before its stylesheet is taken out, if a transform comes that far where
the files let it. -/
def compiled? (p : Plugin) (code id : String) : Option CompileOutput :=
  (p.extraction? code id).bind fun e =>
    (injectImports e.residual ⟨id⟩ e.imports).toOption.bind fun source =>
      (p.compiler source (p.compileOptions id)).toOption

/-- The code that a transform gives the host for a compiled component. -/
def emittedCode (p : Plugin) (id : String) (output : CompileOutput) : String :=
  match p.emittedStylesheet output with
  | none => output.js
  | some _ => output.js ++ "\nimport " ++ jsonString (stylesheetId id) ++ ";"

/-- The stylesheets with that of a compiled component among them. -/
def emittedAssets (p : Plugin) (id : String) (output : CompileOutput)
    (assets : Table String String) : Table String String :=
  match p.emittedStylesheet output with
  | none => assets
  | some css => assets.put (stylesheetId id) css

/-- The emission never fails. -/
theorem run_emit (p : Plugin) (id : String) (output : CompileOutput) (s : Session σ) :
    (p.emit id output).run s =
      (.ok (p.emittedCode id output), { s with assets := p.emittedAssets id output s.assets }) := by
  unfold emit emittedCode emittedAssets
  cases p.emittedStylesheet output with
  | none => rfl
  | some css => rfl

/-- What is left to do for a component that is compiled: its diagnostics are reported, and its
stylesheet is kept. -/
def finish (p : Plugin) (id : String) (output : CompileOutput) (s : Session σ) : Session σ :=
  let reports := p.reporter.reportAll (output.warnings.map fun d => d.orIn id)
  let emitting := (reports.foldl Session.tellReport s).log (.stageEntered id .compiling .emitting)
  { emitting with assets := p.emittedAssets id output emitting.assets }.log
    (.stageEntered id .emitting .done)

/-- What is left to do keeps one stylesheet at most. -/
theorem beside_finish (p : Plugin) (id : String) (output : CompileOutput) (s : Session σ) :
    (p.finish id output s).assets = p.emittedAssets id output s.assets ∧
      (p.finish id output s).hidden = s.hidden := by
  have hreport : s.SameBeside ((p.report id output.warnings).run s).2 :=
    Session.frame_sameBeside.report p id output.warnings s
  exact ⟨congrArg (p.emittedAssets id output) hreport.assets, hreport.hidden⟩

variable [FileSystem σ]

/-- After its source is assembled, a component fails in the compiler or not at all. -/
theorem run_of_assembled {p : Plugin} {unit : SourceUnit} {id : String} {s u : Session σ}
    {assembled : Preprocessed} (h : (p.assemble unit id).run s = (.ok assembled, u)) :
    let asked := u.tell (.compileAsked assembled.code (p.compileOptions id))
    (p.run unit id).run s =
      match p.compiler assembled.code (p.compileOptions id) with
      | .error reason => (.error ⟨.compiling, .notCompiled unit.path reason⟩, asked)
      | .ok output =>
        (.ok ⟨p.emittedCode id output, output.map,
          mergeTexts assembled.dependencies output.dependencies⟩, p.finish id output asked) := by
  intro asked
  rw [run, run_bind, h]
  dsimp only
  rw [run_bind, run_compile]
  cases p.compiler assembled.code (p.compileOptions id) with
  | error reason => rfl
  | ok output =>
    have hemit (t : Session σ) := run_emit p id output t
    simp only [Except.mapError, report, enter, run_bind, hemit]
    rfl

theorem sameBeside_assemble (p : Plugin) (unit : SourceUnit) (id : String) (s : Session σ) :
    s.SameBeside ((p.assemble unit id).run s).2 :=
  Session.frame_sameBeside.assemble Session.sameBeside_publish (fun _ _ _ => ⟨rfl, rfl⟩)
    Session.sameBeside_drop p unit id s

/-- A transform fails and leaves the stylesheets as they are, or puts its own where its component
was compiled. -/
theorem run_cases (p : Plugin) (code id : String) (s : Session σ) :
    (∃ halt t, (p.run (.ofId id code) id).run s = (.error halt, t) ∧ s.SameBeside t) ∨
    ∃ e source output out t, p.extracted? (.ofId id code) id = some e ∧
      injectImports e.residual ⟨id⟩ e.imports = .ok source ∧
      p.compiler source (p.compileOptions id) = .ok output ∧
      (p.run (.ofId id code) id).run s = (.ok out, t) ∧ out.code = p.emittedCode id output ∧
      t.assets = p.emittedAssets id output s.assets ∧ t.hidden = s.hidden := by
  have hassemble := sameBeside_assemble p (.ofId id code) id s
  rcases ha : (p.assemble (.ofId id code) id).run s with ⟨result, u⟩
  rw [ha] at hassemble
  cases result with
  | error halt => exact .inl ⟨halt, u, by rw [run, run_bind, ha], hassemble⟩
  | ok assembled =>
    obtain ⟨e, -, -, he, -, -, -, hsource⟩ := assemble_eq_ok ha
    have hrun := run_of_assembled ha
    cases hc : p.compiler assembled.code (p.compileOptions id) with
    | error message =>
      rw [hc] at hrun
      exact .inl ⟨_, _, hrun, hassemble.trans ⟨rfl, rfl⟩⟩
    | ok output =>
      rw [hc] at hrun
      obtain ⟨hassets, hhidden⟩ := beside_finish p id output
        (u.tell (.compileAsked assembled.code (p.compileOptions id)))
      refine .inr ⟨e, assembled.code, output, _, _, he, hsource, hc, hrun, rfl, ?_, ?_⟩
      · exact hassets.trans (congrArg (p.emittedAssets id output) hassemble.assets)
      · exact hhidden.trans hassemble.hidden

/-- A transform gives the host what was compiled, with its stylesheet kept, or it gives nothing and
leaves the stylesheets as they are. -/
theorem transform_cases (p : Plugin) (code id : String) (s : Session σ) :
    ((∀ out, (p.transform code id s).1 ≠ .ok (some out)) ∧
      s.SameBeside (p.transform code id s).2) ∨
    ∃ out output, (p.transform code id s).1 = .ok (some out) ∧
      p.compiled? code id = some output ∧ out.code = p.emittedCode id output ∧
      (p.transform code id s).2.assets = p.emittedAssets id output s.assets ∧
      (p.transform code id s).2.hidden = s.hidden := by
  by_cases hid : p.options.shouldTransform id = true
  · rw [transform, if_pos hid]
    obtain ⟨halt, t, hrun, hsame⟩ | ⟨e, source, output, out, t, he, hsource, houtput, hrun, hcode,
      hassets, hhidden⟩ := run_cases p code id s
    · rw [hrun]
      exact .inl ⟨by simp, hsame.trans (Session.frame_sameBeside.log t _)⟩
    · rw [hrun]
      refine .inr ⟨out, output, rfl, ?_, hcode, hassets, hhidden⟩
      rw [compiled?, extraction?, if_pos hid, he, Option.bind_some, hsource]
      show (p.compiler source (p.compileOptions id)).toOption = some output
      rw [houtput]
      rfl
  · rw [transform, if_neg hid]
    exact .inl ⟨by simp, .refl s⟩

theorem emitted_of_transform {p : Plugin} {code id : String} {s t : Session σ}
    {out : TransformOutput} (h : p.transform code id s = (.ok (some out), t)) :
    ∃ output, p.compiled? code id = some output ∧ out.code = p.emittedCode id output ∧
      t.assets = p.emittedAssets id output s.assets := by
  obtain ⟨hnone, -⟩ | ⟨out', output, hout, houtput, hcode, hassets, -⟩ :=
    transform_cases p code id s
  · exact absurd (congrArg Prod.fst h) (hnone out)
  · rw [h] at hout hassets
    obtain rfl : out = out' := by simpa using hout
    exact ⟨output, houtput, hcode, hassets⟩

end Plugin

end InlineComponents
