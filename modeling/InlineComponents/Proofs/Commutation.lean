import InlineComponents.Proofs.CompilerCalls
import InlineComponents.Proofs.Leftovers
import InlineComponents.Proofs.Locality

namespace InlineComponents

open Session

/-- Works at spots of which they have none in common come to the same in either order. -/
theorem Local.comm {ρ τ : Type} {spots spots' : Set Spot}
    {act : Session Memory → ρ × Session Memory} {act' : Session Memory → τ × Session Memory}
    (h : Local spots act) (h' : Local spots' act') (hd : spots ⊆ spots'ᶜ)
    {s : Session Memory} (ho : Owned spots s) (ho' : Owned spots' s) :
    (act' (act s).2).1 = (act' s).1 ∧ (act (act' s).2).1 = (act s).1 ∧
      AgreeOn Set.univ (act' (act s).2).2 (act (act' s).2).2 := by
  have hd' : spots' ⊆ spotsᶜ := fun _ hm' hm => hd hm hm'
  have hkept : AgreeOn spots' s (act s).2 := (h.frame ho).mono hd'
  have hkept' : AgreeOn spots s (act' s).2 := (h'.frame ho').mono hd
  have howned : Owned spots' (act s).2 :=
    ho'.congr fun parent hp => Eq.symm (hkept.same (.parent parent) hp)
  have howned' : Owned spots (act' s).2 :=
    ho.congr fun parent hp => Eq.symm (hkept'.same (.parent parent) hp)
  have hlast : AgreeOn spots'ᶜ (act s).2 (act' (act s).2).2 := h'.frame howned
  have hlast' : AgreeOn spotsᶜ (act' s).2 (act (act' s).2).2 := h.frame howned'
  refine ⟨(h'.result ho' hkept).symm, (h.result ho hkept').symm, ?_, fun spot _ => ?_⟩
  · exact hlast.writable.symm.trans ((h.agree ho hkept').writable)
  · by_cases hm : spot ∈ spots
    · have hm' : spot ∈ spots'ᶜ := hd hm
      exact (hlast.same spot hm').symm.trans ((h.agree ho hkept').same spot hm)
    · by_cases hm' : spot ∈ spots'
      · exact ((h'.agree ho' hkept).same spot hm').symm.trans (hlast'.same spot hm)
      -- elsewhere nothing is changed in either order
      · have hfirst := ((h.frame ho).same spot hm).trans (hlast.same spot hm')
        exact hfirst.symm.trans (((h'.frame ho').same spot hm').trans (hlast'.same spot hm))

/-- The spots of a component: the places that its declared names lead to, its list of children, and
its stylesheet. -/
def Spot.of (id : String) : Set Spot :=
  {spot | match spot with
    | .place key => ∃ file name, Path.clean ⟨id⟩ = file.clean ∧ isDeclaredName name = true ∧
      key = (artifactPath file name).clean
    | .parent path => path = Path.clean ⟨id⟩
    | .stylesheet other => other = stylesheetId id}

theorem Spot.place_of_extract {source id : String} {policy : DuplicatePolicy} {e : Extraction}
    (h : (extract source ⟨id⟩ policy).2 = .ok e) :
    ∀ c ∈ e.components, .place c.path.clean ∈ Spot.of id := by
  obtain ⟨-, rfl⟩ := extract_eq_ok h
  intro c hc
  have hpath := (Outline.mem_components_iff.mp hc).1
  exact ⟨⟨id⟩, c.name, rfl, isDeclaredName_of_mem_components hc, by rw [hpath]⟩

/-- Components at different paths and with different stylesheets have no spot in common. -/
theorem Spot.of_subset_compl {a b : String} (hp : Path.clean ⟨a⟩ ≠ Path.clean ⟨b⟩)
    (hs : stylesheetId a ≠ stylesheetId b) : Spot.of a ⊆ (Spot.of b)ᶜ := by
  intro spot ha hb
  cases spot with
  | place key =>
    obtain ⟨file, name, hfile, hn, rfl⟩ := ha
    obtain ⟨file', name', hfile', hn', he⟩ := hb
    have hparent := (artifactPath_clean_inj hn hn' he).1
    exact hp (hfile.trans (hparent.trans hfile'.symm))
  | parent path => exact hp (Eq.trans (Eq.symm ha) hb)
  | stylesheet id => exact hs (Eq.trans (Eq.symm ha) hb)

namespace Work

variable {α β : Type} {spots : Set Spot}

/-- Work of a transform that is local to the spots. -/
def LocalTo (spots : Set Spot) (w : Work Memory α) : Prop :=
  Local spots fun s => w.run s

theorem localTo_pure (a : α) : LocalTo spots (pure a : Work Memory α) :=
  Local.pure (Except.ok a)

theorem LocalTo.bind {w : Work Memory α} {next : α → Work Memory β} (hw : LocalTo spots w)
    (hn : ∀ a, (∃ s, (w.run s).1 = .ok a) → LocalTo spots (next a)) :
    LocalTo spots (w >>= next) := by
  refine Local.congr (Local.thenOk hw (fun a t => (next a).run t) hn) fun s => ?_
  rw [run_bind]
  rcases w.run s with ⟨result, t⟩
  cases result <;> rfl

theorem localTo_settle (stage : Stage) (result : Except Failure α) :
    LocalTo spots (settle stage result : Work Memory α) :=
  Local.pure (result.mapError (Halt.mk stage))

theorem localTo_perform (stage : Stage) {act : Session Memory → Except Failure α × Session Memory}
    (h : Local spots act) : LocalTo spots (perform stage act) :=
  h.andThen (fun result t => (result.mapError (Halt.mk stage), t)) fun _ _ => Local.pure _

theorem localTo_change {act : Session Memory → Session Memory}
    (h : Local spots fun s => ((), act s)) : LocalTo spots (change act) :=
  h.andThen (fun _ t => (Except.ok (), t)) fun _ _ => Local.pure _

theorem localTo_enter (id : String) (before after : Stage) :
    LocalTo spots (enter id before after : Work Memory Unit) :=
  localTo_change (Local.ofSame fun s => agreeOn_log s _)

end Work

namespace Plugin

variable (p : Plugin) (id : String)

theorem localTo_separate (source : String) :
    Work.LocalTo (Spot.of id) (p.separate ⟨id⟩ source : Work Memory Extraction) := by
  refine Work.LocalTo.bind (Work.localTo_perform _ (Local.ofSame fun s =>
    frame_agreeOn.logAll s _)) fun e he => ?_
  obtain ⟨s, he⟩ := he
  have hextract := congrArg Prod.fst (Work.run_perform_eq_ok.mp (Prod.ext he rfl))
  have hplaced := Spot.place_of_extract hextract
  refine Work.LocalTo.bind (Work.localTo_perform _ ?_) fun _ _ => ?_
  · exact local_forEach fun c hc => local_publish (hplaced c hc)
  refine Work.LocalTo.bind (Work.localTo_change ?_) fun _ _ => Work.localTo_pure _
  exact local_retain rfl hplaced

theorem localTo_assemble (code : String) :
    Work.LocalTo (Spot.of id) (p.assemble (.ofId id code) id : Work Memory Preprocessed) := by
  refine (Work.localTo_settle _ _).bind fun prepared _ => ?_
  refine (Work.localTo_enter _ _ _).bind fun _ _ => ?_
  refine (p.localTo_separate id prepared.code).bind fun e _ => ?_
  refine (Work.localTo_enter _ _ _).bind fun _ _ => ?_
  refine (Work.localTo_settle _ _).bind fun _ _ => ?_
  exact (Work.localTo_enter _ _ _).bind fun _ _ => Work.localTo_pure _

theorem localTo_emit (output : CompileOutput) :
    Work.LocalTo (Spot.of id) (p.emit id output : Work Memory String) := by
  unfold emit
  split
  · exact Work.localTo_pure _
  · refine (Work.localTo_change ?_).bind fun _ _ => Work.localTo_pure _
    have hstyle : .stylesheet (stylesheetId id) ∈ Spot.of id := rfl
    exact local_addAsset hstyle _

theorem localTo_run (code : String) :
    Work.LocalTo (Spot.of id) (p.run (.ofId id code) id : Work Memory TransformOutput) := by
  refine (p.localTo_assemble id code).bind fun assembled _ => ?_
  have hasked : Work.LocalTo (Spot.of id)
      (p.compile ⟨id⟩ id assembled.code : Work Memory CompileOutput) :=
    (Work.localTo_change (Local.ofSame fun s => agreeOn_tell s _)).bind fun _ _ =>
      Work.localTo_settle _ _
  refine hasked.bind fun output _ => ?_
  have hreported : Work.LocalTo (Spot.of id) (p.report id output.warnings : Work Memory Unit) :=
    Work.localTo_change (Local.ofSame (frame_agreeOn.report p id output.warnings))
  refine hreported.bind fun _ _ => ?_
  refine (Work.localTo_enter _ _ _).bind fun _ _ => ?_
  refine (p.localTo_emit id output).bind fun _ _ => ?_
  exact (Work.localTo_enter _ _ _).bind fun _ _ => Work.localTo_pure _

/-- A transform is local to the spots of its component. -/
theorem local_transform (code : String) :
    Local (Spot.of id) fun s : Session Memory => p.transform code id s := by
  by_cases hid : p.options.shouldTransform id = true
  · let told (result : Except Halt TransformOutput) (t : Session Memory) :
        Except Failure (Option TransformOutput) × Session Memory :=
      match result with
      | .ok output => (.ok (some output), t)
      | .error halt => (.error halt.failure, t.log (.transformAborted id halt.stage))
    have hall := Local.andThen (p.localTo_run id code) told fun result _ => by
      cases result with
      | ok output => exact Local.pure _
      | error halt => exact Local.ofSame fun t => agreeOn_log t _
    refine hall.congr fun s => ?_
    rw [transform, if_pos hid]
    rcases (p.run (.ofId id code) id).run s with ⟨result, t⟩
    cases result <;> rfl
  · refine Local.congr (Local.pure (.ok none)) fun s => ?_
    rw [transform, if_neg hid]

/-- After a run, the children of a component are at its spots. -/
theorem owned_of_tracks {ups : List Uptake} {s : Session Memory} (h : Tracks ups s) :
    Owned (Spot.of id) s := by
  intro parent hp key hk
  obtain rfl : parent = Path.clean ⟨id⟩ := hp
  have hchildren : key ∈ s.childrenOf (Path.clean ⟨id⟩) := hk
  rw [h.children, List.mem_map] at hchildren
  obtain ⟨c, hc, rfl⟩ := hchildren
  have hfrom := extractedFrom_declaredLast h.extracted (Path.clean ⟨id⟩)
  obtain ⟨file, hfile, hpath⟩ := hfrom.placed c hc
  exact ⟨⟨file, c.name, hfile.symm, hfrom.declared c hc, by rw [hpath]⟩, Path.clean_clean _⟩

/-- Two components at different paths and with different stylesheets are transformed with the same
results in either order, and leave the same artifacts, children, files and stylesheets. -/
theorem transform_comm (files : Memory) (run : List (Happening Memory)) {a b : String}
    (hpath : Path.clean ⟨a⟩ ≠ Path.clean ⟨b⟩) (hstyle : stylesheetId a ≠ stylesheetId b)
    (code code' : String) :
    let s := run.foldl p.happen (.start files)
    let first := p.transform code a s
    let second := p.transform code' b s
    (p.transform code' b first.2).1 = second.1 ∧ (p.transform code a second.2).1 = first.1 ∧
      AgreeOn Set.univ (p.transform code' b first.2).2 (p.transform code a second.2).2 := by
  intro s first second
  have htracks := tracks_run p files run
  exact (p.local_transform a code).comm (p.local_transform b code')
    (Spot.of_subset_compl hpath hstyle) (owned_of_tracks a htracks) (owned_of_tracks b htracks)

/-- A component, and another that lies where the first one puts an artifact. -/
theorem transform_comm_artifact :
    let p : Plugin := ⟨.default, none, none, fun _ _ => .error ""⟩
    let run : List (Happening Memory) :=
      [.build (.transform "<template name=Y></template>" "/A.svelte"), .files (·.setReadOnly true)]
    let s := run.foldl p.happen (.start .empty)
    let first := p.transform "<template name=X></template>" "/A.svelte" s
    let second := p.transform "" "/A__X.svelte" s
    (Path.clean ⟨"/A.svelte"⟩ ≠ Path.clean ⟨"/A__X.svelte"⟩ ∧
      stylesheetId "/A.svelte" ≠ stylesheetId "/A__X.svelte") ∧
    (p.transform "" "/A__X.svelte" first.2).1 = second.1 ∧
      (p.transform "<template name=X></template>" "/A.svelte" second.2).1 = first.1 ∧
      AgreeOn Set.univ (p.transform "" "/A__X.svelte" first.2).2
        (p.transform "<template name=X></template>" "/A.svelte" second.2).2 := by
  intro p run s first second
  have hpath : Path.clean ⟨"/A.svelte"⟩ ≠ Path.clean ⟨"/A__X.svelte"⟩ := by
    rw [Ne, Path.clean_eq_clean_iff]
    decide +kernel
  have hstyle : stylesheetId "/A.svelte" ≠ stylesheetId "/A__X.svelte" := by decide +kernel
  exact ⟨⟨hpath, hstyle⟩, p.transform_comm .empty run hpath hstyle _ _⟩

end Plugin

end InlineComponents
