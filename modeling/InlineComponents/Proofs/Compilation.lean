import InlineComponents.Proofs.ArtifactNames
import InlineComponents.Proofs.CompilerCalls
import InlineComponents.Proofs.Extractions
import InlineComponents.Proofs.Holding
import InlineComponents.Proofs.Writing

namespace InlineComponents

namespace Plugin

open Work

variable {σ : Type} [FileSystem σ]

theorem separate_eq_ok {p : Plugin} {path : Path} {source : String} {s u : Session σ}
    {e : Extraction} : (p.separate path source).run s = (.ok e, u) ↔
      (extract source path p.options.onDuplicate).2 = .ok e ∧
        ∃ t, (s.logAll (extract source path p.options.onDuplicate).1).publishAll e.components =
          (.ok (), t) ∧ (t.retain path e.components).2 = u := by
  simp only [separate, run_bind_eq_ok, run_perform_eq_ok, run_change_eq_ok, run_pure_eq_ok]
  constructor
  · rintro ⟨_, _, hextracted, _, t, ht, _, _, rfl, rfl, rfl⟩
    obtain ⟨he, rfl⟩ := Prod.mk.inj hextracted
    exact ⟨he, t, ht, rfl⟩
  · rintro ⟨he, t, ht, rfl⟩
    exact ⟨e, _, Prod.ext he rfl, (), t, ht, (), _, rfl, rfl, rfl⟩

/-- A source is assembled only if all components were written; then those that are no longer
declared are dropped, and the imports put into the residual. -/
theorem assemble_eq_ok {p : Plugin} {unit : SourceUnit} {id : String} {s u : Session σ}
    {assembled : Preprocessed} (h : (p.assemble unit id).run s = (.ok assembled, u)) :
    ∃ e t v, p.extracted? unit id = some e ∧ s.SameStore t ∧
      t.publishAll e.components = (.ok (), v) ∧ (v.retain unit.path e.components).2.SameStore u ∧
      injectImports e.residual unit.path e.imports = .ok assembled.code := by
  simp only [assemble, enter, run_bind_eq_ok, run_settle_eq_ok, separate_eq_ok, run_change_eq_ok,
    run_pure_eq_ok] at h
  obtain ⟨prepared, _, ⟨hprepared, rfl⟩, -, _, rfl, e, _, ⟨hextraction, v, hpublished, rfl⟩, -, _,
    rfl, code, _, ⟨hcode, rfl⟩, -, _, rfl, rfl, rfl⟩ := h
  refine ⟨_, _, v, ?_, ?_, hpublished, ?_, hcode⟩
  · rw [extracted?, hprepared]
    dsimp only
    rw [hextraction]
    rfl
  · exact (s.sameStore_log _).trans (Session.frame_sameStore.logAll _ _)
  · exact (Session.sameStore_log _ _).trans (Session.sameStore_log _ _)

end Plugin

namespace Session

variable {σ : Type} {s t : Session σ}

/-- The paths of all children are clean. -/
def CleanChildren (s : Session σ) : Prop :=
  ∀ parent, ∀ key ∈ s.childrenOf parent, key.clean = key

theorem CleanChildren.congr (h : s.CleanChildren)
    (hc : ∀ parent, t.childrenOf parent = s.childrenOf parent) : t.CleanChildren := by
  intro parent key hk
  rw [hc] at hk
  exact h parent key hk

variable [FileSystem σ]

/-- The sessions that there can be: the host calls the hooks of any plugin, the store is asked for
an artifact, and whatever is neither the known artifacts nor their parents changes by itself, the
files among it. -/
inductive Reached : Session σ → Prop
  | start (files : σ) : Reached (.start files)
  | step {s : Session σ} (p : Plugin) (step : BuildStep) : Reached s → Reached (p.step s step)
  | register {s : Session σ} (c : SubComponent) : Reached s → Reached (s.register c)
  | materialize {s : Session σ} (c : SubComponent) : Reached s → Reached (s.materialize c).2
  | publish {s : Session σ} (c : SubComponent) : Reached s → Reached (s.publish c).2
  | release {s : Session σ} (path : Path) : Reached s → Reached (s.release path).2
  | retain {s : Session σ} (parent : Path) (cs : List SubComponent) :
    Reached s → Reached (s.retain parent cs).2
  | other {s t : Session σ} : Reached s → t.artifacts = s.artifacts → t.children = s.children →
    Reached t

theorem CleanChildren.retain (h : s.CleanChildren) (parent : Path) (cs : List SubComponent) :
    (s.retain parent cs).2.CleanChildren := by
  intro other key hk
  rw [childrenOf_retain] at hk
  split at hk
  · obtain ⟨c, -, rfl⟩ := List.mem_map.mp hk
    exact c.path.clean_clean
  · exact h other key hk

theorem CleanChildren.transform (h : s.CleanChildren) (p : Plugin) (code id : String) :
    (p.transform code id s).2.CleanChildren := by
  have htakes := p.takes_transform code id s
  cases he : p.extraction? code id with
  | none =>
    rw [he] at htakes
    exact h.congr (SameStore.sameRegister htakes).children
  | some e =>
    rw [he] at htakes
    obtain ⟨u, hs, ht⟩ := htakes
    have hu : u.CleanChildren := h.congr hs.sameRegister.children
    have hpublished : (u.publishAll e.components).2.CleanChildren :=
      hu.congr (childrenOf_publishAll u e.components)
    refine CleanChildren.congr ?_ ht.sameRegister.children
    unfold takeUp
    split
    · next failure v hv => rwa [hv] at hpublished
    · next v hv =>
      rw [hv] at hpublished
      exact hpublished.retain ⟨id⟩ e.components

theorem Reached.cleanChildren (h : Reached s) : s.CleanChildren := by
  induction h with
  | start files =>
    intro parent key hk
    simp [childrenOf, Session.start, Table.find?] at hk
  | step p step h ih =>
    cases step with
    | transform code id => exact ih.transform p code id
    | moduleParsed id => exact ih.congr (p.sameRegister_moduleParsed id _).children
    | buildStart => exact ih.congr (sameRegister_materializeAll _).children
  | register c h ih => exact ih
  | materialize c h ih => exact ih.congr (sameRegister_materialize _ c).children
  | publish c h ih => exact ih.congr (childrenOf_publish _ c)
  | release path h ih => exact ih.congr (sameRegister_release _ path).children
  | retain parent cs h ih => exact ih.retain parent cs
  | other h ha hc ih =>
    refine ih.congr ?_
    intro parent
    rw [childrenOf, childrenOf, hc]

end Session

/-- What the compiler is given is complete: all components that were extracted are published and
their files written, and each of them is imported once, by its declared name and from the file
that is its own. -/
structure Complete {σ : Type} [FileSystem σ] [LawfulFileSystem σ] (id source : String)
    (e : Extraction) (u : Session σ) : Prop where
  held : ∀ c ∈ e.components, u.Holds c
  injected : injectImports e.residual ⟨id⟩ e.imports = .ok source
  imported : importBlock e.imports = String.join (e.components.map fun c =>
    "\nimport " ++ c.name ++ " from './" ++ c.toImport.fileName ++ "';")
  beside : ∃ dir, Path.parent ⟨id⟩ = some dir ∧ ∀ c ∈ e.components,
    dir.join c.toImport.fileName = c.path

/-- Imports bind the names that are declared, and lead to the files of the components. -/
theorem SubComponent.toImport_declared {file : Path} {c : SubComponent}
    (hp : c.path = artifactPath file c.name) (hn : isDeclaredName c.name = true) :
    c.toImport.binding = c.name ∧ file.place.join c.toImport.fileName = c.path := by
  have hfile : c.toImport.fileName = artifactFileName file c.name := by
    rw [SubComponent.toImport, hp, fileName_artifactPath hn, Option.getD_some]
  refine ⟨?_, ?_⟩
  · rw [Import.binding, hfile, declaredName?_artifactFileName hn, Option.getD_some]
  · rw [hfile, hp]
    rfl

namespace Plugin

open Work

variable {σ : Type} [FileSystem σ] [LawfulFileSystem σ]

theorem complete_assemble {p : Plugin} {code id : String} {s u : Session σ}
    {assembled : Preprocessed} (hs : s.CleanChildren) (hid : (Path.fileName ⟨id⟩).isSome = true)
    (hclaimed : p.options.shouldTransform id = true)
    (h : (p.assemble (.ofId id code) id).run s = (.ok assembled, u)) :
    ∃ e, p.extraction? code id = some e ∧ Complete id assembled.code e u := by
  obtain ⟨e, t, v, he, ht, hpublished, hretained, hcode⟩ := assemble_eq_ok h
  have hextraction : p.extraction? code id = some e := by rw [extraction?, if_pos hclaimed, he]
  have hpaths := (extractedFrom_of_extraction? hextraction).nodup_paths
  have hv : v.CleanChildren := by
    have hc := Session.childrenOf_publishAll t e.components
    rw [hpublished] at hc
    exact (hs.congr ht.sameRegister.children).congr hc
  obtain ⟨name, hname⟩ := Option.isSome_iff_exists.mp hid
  refine ⟨e, hextraction, ?_, hcode, ?_, ?_⟩
  · intro c hc
    exact ((Session.holds_publishAll hpaths hpublished c hc).retain (hv _) hc).sameStore hretained
  · have hstatements : e.imports.map Import.statement = e.components.map fun c =>
        "\nimport " ++ c.name ++ " from './" ++ c.toImport.fileName ++ "';" := by
      rw [Extraction.imports, List.map_map]
      apply List.map_congr_left
      intro c hc
      obtain ⟨hpath, hdeclared⟩ := path_of_mem_extraction? hextraction hc
      obtain ⟨hbinding, -⟩ := SubComponent.toImport_declared hpath hdeclared
      rw [Function.comp_apply, Import.statement, hbinding]
    rw [importBlock, hstatements]
  · refine ⟨_, Path.parent_of_fileName hname, ?_⟩
    intro c hc
    obtain ⟨hpath, hdeclared⟩ := path_of_mem_extraction? hextraction hc
    exact (SubComponent.toImport_declared hpath hdeclared).2

/-- Where files can be written, what is extracted is assembled if its imports can be put in. -/
theorem exists_assemble {p : Plugin} {code id source : String} {e : Extraction}
    {s : Session Memory} (hw : s.files.readOnly = false) (he : p.extraction? code id = some e)
    (hi : injectImports e.residual ⟨id⟩ e.imports = .ok source) :
    p.options.shouldTransform id = true ∧ ∃ dependencies u,
      (p.assemble (.ofId id code) id).run s = (.ok ⟨source, dependencies⟩, u) := by
  obtain ⟨hid, prepared, hprepared, hextracted⟩ := exists_of_extraction? he
  refine ⟨hid, ?_⟩
  simp only [assemble, enter, run_bind_eq_ok, run_settle_eq_ok, separate_eq_ok, run_change_eq_ok,
    run_pure_eq_ok]
  let t := (s.log (.stageEntered id .idle .extracting)).logAll
    (extract prepared.code ⟨id⟩ p.options.onDuplicate).1
  have ht : s.SameStore t := (s.sameStore_log _).trans (Session.frame_sameStore.logAll _ _)
  have hwritable : t.files.readOnly = false := by rw [ht.files, hw]
  obtain ⟨hpublished, -⟩ :=
    Session.wrote_publishAll hwritable (extractedFrom_of_extraction? he).nodup_paths
  rcases hv : t.publishAll e.components with ⟨result, v⟩
  rw [hv] at hpublished
  obtain rfl : result = .ok () := hpublished
  exact ⟨prepared.dependencies, _, prepared, s, ⟨hprepared, rfl⟩, (), _, rfl, e, _,
    ⟨hextracted, v, hv, rfl⟩, (), _, rfl, source, _, ⟨hi, rfl⟩, (), _, rfl, rfl, rfl⟩

/-- Where files can be written, what is extracted is transformed if its imports can be put in and
the compiler takes it. -/
theorem exists_transform {p : Plugin} {code id : String} {s : Session Memory}
    (hw : s.files.readOnly = false) {e : Extraction} (he : p.extraction? code id = some e)
    {source : String} (hi : injectImports e.residual ⟨id⟩ e.imports = .ok source)
    {compiled : CompileOutput} (hc : p.compiler source (p.compileOptions id) = .ok compiled) :
    ∃ output, (p.transform code id s).1 = .ok output := by
  obtain ⟨hid, dependencies, u, hassembled⟩ := exists_assemble hw he hi
  obtain ⟨output, t, hrun⟩ : ∃ output t, (p.run (.ofId id code) id).run s = (.ok output, t) := by
    have hcompiled (v : Session Memory) : (p.compile ⟨id⟩ id source).run v =
        (.ok compiled, v.tell (.compileAsked source (p.compileOptions id))) := by
      rw [run_compile, hc]
      rfl
    have hemitted (v : Session Memory) : ∃ js w, (p.emit id compiled).run v = (.ok js, w) := by
      unfold emit
      split
      · exact ⟨_, _, rfl⟩
      · exact ⟨_, _, rfl⟩
    obtain ⟨js, w, hjs⟩ := hemitted _
    simp only [run, report, enter, run_bind_eq_ok, run_change_eq_ok, run_pure_eq_ok]
    exact ⟨_, _, _, u, hassembled, compiled, _, hcompiled u, (), _, rfl, (), _, rfl, js, w, hjs, (),
      _, rfl, rfl, rfl⟩
  refine ⟨some output, ?_⟩
  rw [transform, if_pos hid, hrun]

/-- Whenever a transform asks the compiler, in whatever session, it has assembled the source of a
complete component by then. -/
theorem complete_of_compileAsked (p : Plugin) {code id : String} {s : Session σ} (hs : s.Reached)
    (hid : (Path.fileName ⟨id⟩).isSome = true) :
    ∃ news, (p.transform code id s).2.journal = news ++ s.journal ∧
      ∀ source options, Notice.compileAsked source options ∈ news →
        ∃ e dependencies u later, p.extraction? code id = some e ∧
          (p.assemble (.ofId id code) id).run s = (.ok ⟨source, dependencies⟩, u) ∧
          (p.transform code id s).2.journal = later ++ .compileAsked source options :: u.journal ∧
          Complete id source e u := by
  rcases p.unasked_transform code id s with ⟨news, hnews, hno⟩ |
    ⟨assembled, u, hclaimed, hassembled, ⟨before, hbefore, hno⟩, later, hlater, hnot⟩
  · exact ⟨news, hnews, fun source options hm => absurd hm (hno source options)⟩
  · let asked := Notice.compileAsked assembled.code (p.compileOptions id)
    have hjournal : (p.transform code id s).2.journal = later ++ asked :: u.journal := hlater
    refine ⟨later ++ asked :: before, ?_, ?_⟩
    · rw [hjournal, hbefore]
      simp
    · intro source options hm
      obtain ⟨rfl, rfl⟩ : source = assembled.code ∧ options = p.compileOptions id := by
        rcases List.mem_append.mp hm with hm | hm
        · exact absurd hm (hnot source options)
        · rcases List.mem_cons.mp hm with hm | hm
          · exact Notice.compileAsked.inj hm
          · exact absurd hm (hno source options)
      obtain ⟨e, he, hcomplete⟩ := complete_assemble hs.cleanChildren hid hclaimed hassembled
      exact ⟨e, assembled.dependencies, u, later, he, hassembled, hjournal, hcomplete⟩

/-- A file that lay in the component's place gives way to it before the compiler is asked. -/
theorem complete_of_compileAsked_other_file :
    let p : Plugin := ⟨.default, none, none, fun _ _ => .error ""⟩
    let code := "<template name=B>b</template><p>"
    let id := "/P.svelte"
    let s : Session Memory := .start (.insert .empty ⟨"/P__B.svelte"⟩ "x".toUTF8)
    let e : Extraction := ⟨"<p>", [⟨"B", ⟨"/P__B.svelte"⟩, "b"⟩]⟩
    let source := "<script>\nimport B from './P__B.svelte';\n</script>\n<p>"
    (s.Reached ∧ (Path.fileName ⟨id⟩).isSome = true) ∧
      ∃ (u : Session Memory) (later : List Notice), (p.transform code id s).2.journal =
        later ++ .compileAsked source (p.compileOptions id) :: u.journal ∧ Complete id source e u := by
  intro p code id s e source
  have hs : s.Reached := .start _
  have hid : (Path.fileName ⟨id⟩).isSome = true := by decide
  have he : p.extraction? code id = some e := by decide +kernel
  have hi : injectImports e.residual ⟨id⟩ e.imports = .ok source :=
    toOption_eq_some_iff.mp (by decide +kernel)
  obtain ⟨hclaimed, dependencies, t, ht⟩ := exists_assemble (s := s) rfl he hi
  obtain ⟨later, hlater, -⟩ := unasked_of_assemble hclaimed ht
  obtain ⟨news, hnews, hasked⟩ := @complete_of_compileAsked Memory _ _ p code id s hs hid
  have hmem : .compileAsked source (p.compileOptions id) ∈ news := by
    have hjournal : (p.transform code id s).2.journal = news := hnews.trans (List.append_nil news)
    rw [← hjournal, hlater]
    exact List.mem_append_right _ List.mem_cons_self
  obtain ⟨e', -, u, later, he', -, hjournal, hcomplete⟩ := hasked _ _ hmem
  obtain rfl : e = e' := Option.some.inj (he.symm.trans he')
  exact ⟨⟨hs, hid⟩, u, later, hjournal, hcomplete⟩

end Plugin

end InlineComponents
