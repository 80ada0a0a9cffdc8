import InlineComponents.Proofs.Failing
import InlineComponents.Proofs.Milestones
import InlineComponents.Proofs.StoreOperations
import Mathlib.Data.List.Chain

namespace InlineComponents

/-- The stages of a transform that comes to its end, but for the end itself. -/
def Stage.course : List Stage :=
  [.idle, .extracting, .rewriting, .compiling, .emitting]

/-- What is told of a component that goes through these stages. -/
def Stage.moves (id : String) : List Stage → List Event
  | before :: after :: stages => .stageEntered id before after :: moves id (after :: stages)
  | _ => []

/-- The stages told of, when they are entered and when one is given up. -/
def Notice.stageEvent? : Notice → Option Event
  | .logged (.stageEntered id before after) => some (.stageEntered id before after)
  | .logged (.transformAborted id stage) => some (.transformAborted id stage)
  | _ => none

/-- A diagnostic handed to the user's handler, or shown, or its excerpt. -/
def Notice.isReport : Notice → Bool
  | .warningHandled _ => true
  | .logged (.diagnosticShown _) | .logged (.frameShown ..) => true
  | _ => false

/-- The tracker of a transform is never out of order: it starts idle, enters after each stage none but
the one that follows it, and is left where it is given up. -/
def Stage.InOrder (id : String) (news : List Notice) : Prop :=
  ∃ passed stage, (passed ++ [stage]).head? = some .idle ∧
    (passed ++ [stage]).IsChain (fun before after : Stage => before.next = some after) ∧
    (news.filterMap Notice.stageEvent? = moves id (passed ++ [stage]) ∨
      news.filterMap Notice.stageEvent? =
        moves id (passed ++ [stage]) ++ [.transformAborted id stage])

/-- A part of the course from its beginning is in order. -/
theorem Stage.isChain_of_prefix {stages : List Stage} (h : stages <+: course ++ [done]) :
    stages.IsChain fun before after : Stage => before.next = some after := by
  have hcourse : (course ++ [done]).IsChain fun before after : Stage => before.next = some after := by
    decide
  exact hcourse.prefix h

theorem Stage.head?_of_prefix {passed : List Stage} {stage : Stage}
    (h : passed ++ [stage] <+: course ++ [done]) : (passed ++ [stage]).head? = some .idle := by
  obtain ⟨rest, hrest⟩ := h
  have hhead := congrArg List.head? hrest
  rwa [List.head?_append_of_ne_nil _ (by simp)] at hhead

/-- All that tells of stages is among the milestones. -/
theorem Notice.filterMap_stageEvent?_filter (news : List Notice) :
    (news.filter isMilestone).filterMap stageEvent? = news.filterMap stageEvent? := by
  rw [List.filterMap_filter]
  congr 1
  funext notice
  cases notice with
  | logged event => cases event <;> rfl
  | compileAsked => rfl
  | warningHandled => rfl

theorem Notice.isMilestone_of_isReport {notice : Notice} (h : notice.isReport = true) :
    notice.isMilestone = true := by
  cases notice with
  | logged event => cases event <;> first | rfl | cases h
  | compileAsked => rfl
  | warningHandled => rfl

@[simp] theorem Stage.filterMap_stageEvent?_moves (id : String) (stages : List Stage) :
    ((moves id stages).map Notice.logged).filterMap Notice.stageEvent? = moves id stages := by
  fun_induction moves id stages with
  | case1 before after stages ih =>
    exact congrArg (List.cons _) ih
  | case2 => rfl

theorem Stage.isReport_of_mem_moves {id : String} {stages : List Stage} {notice : Notice}
    (h : notice ∈ (moves id stages).map Notice.logged) : notice.isReport = false := by
  fun_induction moves id stages with
  | case1 before after stages ih =>
    rcases List.mem_cons.mp h with rfl | h
    · rfl
    · exact ih h
  | case2 => cases h

theorem Report.stageEvent?_of_mem {report : Report} {notice : Notice}
    (h : notice ∈ report.notices) : notice.stageEvent? = none := by
  cases report with
  | handled d =>
    obtain rfl := List.mem_singleton.mp h
    rfl
  | shown d =>
    obtain ⟨event, he, rfl⟩ := List.mem_map.mp h
    rcases List.mem_cons.mp he with rfl | he
    · rfl
    · obtain ⟨frame, -, rfl⟩ := List.mem_map.mp he
      rfl

/-- What is told where a stage is given up: those passed before it are entered, the compiler is asked
if it is the one that compiles, and the end comes last. -/
structure Stage.Abandoned (id : String) (passed : List Stage) (stage : Stage)
    (asked news : List Notice) : Prop where
  milestones : news.filter Notice.isMilestone =
    (moves id (passed ++ [stage])).map .logged ++ asked ++ [.logged (.transformAborted id stage)]
  asks : (∃ source options, asked = [.compileAsked source options]) ∧ stage = .compiling ∨
    asked = [] ∧ stage ≠ .compiling

namespace Stage.Abandoned

variable {id : String} {passed : List Stage} {stage : Stage} {asked news : List Notice}
  (h : Abandoned id passed stage asked news)

include h

theorem filterMap_stageEvent? : news.filterMap Notice.stageEvent? =
    moves id (passed ++ [stage]) ++ [.transformAborted id stage] := by
  have hnone : asked.filterMap Notice.stageEvent? = [] := by
    rcases h.asks with ⟨⟨source, options, rfl⟩, -⟩ | ⟨rfl, -⟩ <;> rfl
  rw [← Notice.filterMap_stageEvent?_filter, h.milestones, List.filterMap_append,
    List.filterMap_append, filterMap_stageEvent?_moves, hnone, List.append_nil]
  rfl

/-- A milestone is a move, the call of the compiler or the end. -/
theorem mem_iff {notice : Notice} (hmilestone : notice.isMilestone = true) : notice ∈ news ↔
    notice ∈ (moves id (passed ++ [stage])).map Notice.logged ∨
      notice ∈ asked ∨ notice = .logged (.transformAborted id stage) := by
  have hfiltered : notice ∈ news ↔ notice ∈ news.filter Notice.isMilestone := by
    rw [List.mem_filter, and_iff_left hmilestone]
  rw [hfiltered, h.milestones]
  simp only [List.mem_append, List.mem_singleton, or_assoc]

theorem isReport_of_mem {notice : Notice} (hm : notice ∈ news) : notice.isReport = false := by
  by_contra hreport
  rw [Bool.not_eq_false] at hreport
  rcases (h.mem_iff (Notice.isMilestone_of_isReport hreport)).mp hm with hm | hm | rfl
  · rw [isReport_of_mem_moves hm] at hreport
    cases hreport
  · rcases h.asks with ⟨⟨source, options, rfl⟩, -⟩ | ⟨rfl, -⟩
    · obtain rfl := List.mem_singleton.mp hm
      cases hreport
    · cases hm
  · cases hreport

theorem compileAsked_iff :
    (∃ source options, .compileAsked source options ∈ news) ↔ stage = .compiling := by
  constructor
  · rintro ⟨source, options, hm⟩
    rcases (h.mem_iff rfl).mp hm with hm | hm | hm
    · obtain ⟨_, -, heq⟩ := List.mem_map.mp hm
      cases heq
    · rcases h.asks with ⟨-, hstage⟩ | ⟨rfl, -⟩
      · exact hstage
      · cases hm
    · cases hm
  · intro hstage
    rcases h.asks with ⟨⟨source, options, rfl⟩, -⟩ | ⟨-, hother⟩
    · exact ⟨source, options, (h.mem_iff rfl).mpr (.inr (.inl List.mem_cons_self))⟩
    · exact absurd hstage hother

end Stage.Abandoned

namespace Plugin

variable {σ : Type}

theorem tells_told (p : Plugin) (id : String) (prepared : Preprocessed) (s : Session σ) :
    s.Tells (p.told id prepared s) [.logged (.stageEntered id .idle .extracting)] :=
  (Session.tells_tell rfl s).trans (Session.tells_logAll_of_not (fun _ => isMilestone_of_mem_extract) _)

theorem sameStore_told (p : Plugin) (id : String) (prepared : Preprocessed) (s : Session σ) :
    s.SameStore (p.told id prepared s) :=
  (s.sameStore_log _).trans (Session.frame_sameStore.logAll _ _)

theorem tells_finish (p : Plugin) (id : String) (output : CompileOutput) (s : Session σ) :
    s.Tells (p.finish id output s)
      ((p.reporter.reportAll (output.warnings.map fun d => d.orIn id)).flatMap Report.notices ++
        (Stage.moves id [.compiling, .emitting, .done]).map .logged) := by
  have hreported := Session.tells_foldl Session.tells_tellReport
    (p.reporter.reportAll (output.warnings.map fun d => d.orIn id)) s
  exact hreported.trans ((Session.tells_tell rfl _).trans (Session.tells_tell rfl _))

variable [FileSystem σ]

theorem tells_takenUp {p : Plugin} {id : String} {prepared : Preprocessed} {s t : Session σ}
    {cs : List SubComponent} (h : (p.told id prepared s).publishAll cs = (.ok (), t)) :
    s.Tells (t.retain ⟨id⟩ cs).2 [.logged (.stageEntered id .idle .extracting)] := by
  have hpublished := Session.tells_forEach Session.tells_publish (p.told id prepared s) cs
  rw [← Session.publishAll, h] at hpublished
  exact (tells_told p id prepared s).trans (hpublished.trans (t.tells_retain ⟨id⟩ cs))

/-- Up to where it fails, a transform tells of its stages, and of the compiler if that is what
fails. -/
theorem Stops.tells {p : Plugin} {code id : String} {s t : Session σ} {halt : Halt}
    (h : p.Stops code id s halt t) :
    ∃ passed asked, passed ++ [halt.stage] <+: Stage.course ∧
      s.Tells t ((Stage.moves id (passed ++ [halt.stage])).map .logged ++ asked) ∧
      ((∃ source options, asked = [.compileAsked source options]) ∧ halt.stage = .compiling ∨
        asked = [] ∧ halt.stage ≠ .compiling) := by
  cases h with
  | preparing hprepared => exact ⟨[], [], ⟨_, rfl⟩, .refl s, .inr ⟨rfl, by simp⟩⟩
  | extracting hprepared he =>
    exact ⟨[.idle], [], ⟨_, rfl⟩, tells_told p id _ s, .inr ⟨rfl, by simp⟩⟩
  | @writing prepared e failure t hprepared he hpublished =>
    have htold := Session.tells_forEach Session.tells_publish (p.told id prepared s) e.components
    rw [← Session.publishAll, hpublished] at htold
    exact ⟨[.idle], [], ⟨_, rfl⟩, (tells_told p id _ s).trans htold, .inr ⟨rfl, by simp⟩⟩
  | rewriting hprepared he hpublished hcode =>
    exact ⟨[.idle, .extracting], [], ⟨_, rfl⟩, (tells_takenUp hpublished).trans
      (Session.tells_tell rfl _), .inr ⟨rfl, by simp⟩⟩
  | compiling hprepared he hpublished hcode hcompiled =>
    exact ⟨[.idle, .extracting, .rewriting], _, ⟨_, rfl⟩, (((tells_takenUp hpublished).trans
      (Session.tells_tell rfl _)).trans (Session.tells_tell rfl _)).trans (Session.tells_tell rfl _),
      .inl ⟨⟨_, _, rfl⟩, rfl⟩⟩

/-- What a transform that fails so has made of the store: nothing as long as nothing is published,
then what could be published until a write failed, and else all of it, with those dropped that are
no longer declared. -/
def Commits (p : Plugin) (code id : String) (s t : Session σ) : Failure → Prop
  | .notPreprocessed .. | .invalidName .. | .duplicateName .. | .unclosedBlock ..
  | .sourceTooLarge .. => s.SameStore t
  | .artifactNotWritten path cause => ∃ e u, p.extraction? code id = some e ∧
    s.publishAll e.components = (.error (.artifactNotWritten path cause), u) ∧ u.SameStore t
  | .malformedScript _ | .notCompiled .. => ∃ e u, p.extraction? code id = some e ∧
    s.publishAll e.components = (.ok (), u) ∧ (u.retain ⟨id⟩ e.components).2.SameStore t
  | .package .. | .invalidOptions _ => False

theorem Commits.sameStore {p : Plugin} {code id : String} {s t u : Session σ} {failure : Failure}
    (h : p.Commits code id s t failure) (hsame : t.SameStore u) : p.Commits code id s u failure := by
  cases failure with
  | notPreprocessed | invalidName | duplicateName | unclosedBlock | sourceTooLarge =>
    exact Session.SameStore.trans h hsame
  | artifactNotWritten | malformedScript | notCompiled =>
    obtain ⟨e, v, he, hv, ht⟩ := h
    exact ⟨e, v, he, hv, ht.trans hsame⟩
  | package | invalidOptions => exact h

/-- What is published is the same, whatever is told before. -/
theorem publishAll_of_told {p : Plugin} {id : String} {prepared : Preprocessed} {s t : Session σ}
    {cs : List SubComponent} {result : Except Failure Unit}
    (h : (p.told id prepared s).publishAll cs = (result, t)) :
    ∃ u, s.publishAll cs = (result, u) ∧ u.SameStore t := by
  obtain ⟨hresult, hstore⟩ := (sameStore_told p id prepared s).publishAll cs
  rw [h] at hresult hstore
  exact ⟨(s.publishAll cs).2, Prod.ext hresult.symm rfl, hstore⟩

theorem extraction?_of_extract {p : Plugin} {code id : String} {prepared : Preprocessed}
    {e : Extraction} (hid : p.options.shouldTransform id = true)
    (hprepared : p.prepare (.ofId id code) id = .ok prepared)
    (he : (extract prepared.code ⟨id⟩ p.options.onDuplicate).2 = .ok e) :
    p.extraction? code id = some e := by
  rw [extraction?, if_pos hid, extracted?, hprepared]
  show (extract prepared.code ⟨id⟩ p.options.onDuplicate).2.toOption = some e
  rw [he]
  rfl

theorem Stops.stage {p : Plugin} {code id : String} {s t : Session σ} {halt : Halt}
    (h : p.Stops code id s halt t) : halt.failure.stage? = some halt.stage := by
  cases h with
  | preparing hprepared =>
    obtain ⟨reason, rfl⟩ := prepare_eq_error hprepared
    rfl
  | extracting hprepared he =>
    obtain ⟨name, rfl⟩ | ⟨name, rfl⟩ | ⟨name, offset, rfl⟩ | ⟨size, limit, rfl⟩ :=
      extract_eq_error he
    all_goals rfl
  | writing hprepared he hpublished =>
    obtain ⟨path, cause, rfl⟩ := Session.publishAll_eq_error hpublished
    rfl
  | rewriting hprepared he hpublished hcode =>
    obtain rfl := injectImports_eq_error hcode
    rfl
  | compiling hprepared he hpublished hcode hcompiled => rfl

theorem Stops.commits {p : Plugin} {code id : String} {s t : Session σ} {halt : Halt}
    (hid : p.options.shouldTransform id = true) (h : p.Stops code id s halt t) :
    p.Commits code id s t halt.failure := by
  cases h with
  | preparing hprepared =>
    obtain ⟨reason, rfl⟩ := prepare_eq_error hprepared
    exact .refl s
  | extracting hprepared he =>
    obtain ⟨name, rfl⟩ | ⟨name, rfl⟩ | ⟨name, offset, rfl⟩ | ⟨size, limit, rfl⟩ :=
      extract_eq_error he
    all_goals exact sameStore_told p id _ s
  | writing hprepared he hpublished =>
    obtain ⟨path, cause, rfl⟩ := Session.publishAll_eq_error hpublished
    obtain ⟨u, hu, hsame⟩ := publishAll_of_told hpublished
    exact ⟨_, u, extraction?_of_extract hid hprepared he, hu, hsame⟩
  | rewriting hprepared he hpublished hcode =>
    obtain rfl := injectImports_eq_error hcode
    obtain ⟨u, hu, hsame⟩ := publishAll_of_told hpublished
    exact ⟨_, u, extraction?_of_extract hid hprepared he, hu,
      (hsame.retain ⟨id⟩ _).2.trans (Session.sameStore_log _ _)⟩
  | compiling hprepared he hpublished hcode hcompiled =>
    obtain ⟨u, hu, hsame⟩ := publishAll_of_told hpublished
    exact ⟨_, u, extraction?_of_extract hid hprepared he, hu,
      (hsame.retain ⟨id⟩ _).2.trans ⟨rfl, rfl, rfl⟩⟩

/-- Nothing but the compiler fails while it compiles. -/
theorem Stops.stage_eq_compiling_iff {p : Plugin} {code id : String} {s t : Session σ} {halt : Halt}
    (h : p.Stops code id s halt t) :
    halt.stage = .compiling ↔ ∃ file reason, halt.failure = .notCompiled file reason := by
  have hstage := h.stage
  constructor
  · intro hcompiling
    rw [hcompiling] at hstage
    cases hfailure : halt.failure with
    | notCompiled file reason => exact ⟨file, reason, rfl⟩
    | _ =>
      rw [hfailure] at hstage
      cases hstage
  · rintro ⟨file, reason, hfailure⟩
    rw [hfailure] at hstage
    exact (Option.some.inj hstage).symm

/-- A transform that is given up says so after all else that it tells. -/
theorem Stops.abandoned {p : Plugin} {code id : String} {s t : Session σ} {halt : Halt}
    (h : p.Stops code id s halt t) :
    ∃ passed asked news, passed ++ [halt.stage] <+: Stage.course ∧
      (t.log (.transformAborted id halt.stage)).journal = news.reverse ++ s.journal ∧
      Stage.Abandoned id passed halt.stage asked news := by
  obtain ⟨passed, asked, hpassed, htells, hasks⟩ := h.tells
  have hended : t.Tells (t.log (.transformAborted id halt.stage))
      [.logged (.transformAborted id halt.stage)] :=
    Session.tells_tell rfl t
  obtain ⟨news, hnews, hmilestones⟩ := htells.trans hended
  exact ⟨passed, asked, news, hpassed, hnews, ⟨hmilestones, hasks⟩⟩

/-- What a failed transform leaves behind: the stylesheets and the hidden packages as they were, no
diagnostic reported, the compiler asked if it is the compiler that failed, and the store with what
was done to it before the stage that was given up. -/
structure LeavesBehind (p : Plugin) (code id : String) (s t : Session σ) (news : List Notice)
    (failure : Failure) : Prop where
  beside : s.SameBeside t
  store : p.Commits code id s t failure
  unreported : ∀ notice ∈ news, notice.isReport = false
  asked : (∃ source options, .compileAsked source options ∈ news) ↔
    ∃ file reason, failure = .notCompiled file reason
  stages : ∃ passed stage, failure.stage? = some stage ∧ passed ++ [stage] <+: Stage.course ∧
    news.filterMap Notice.stageEvent? =
      Stage.moves id (passed ++ [stage]) ++ [.transformAborted id stage]

theorem beside_of_error {p : Plugin} {code id : String} {s : Session σ} {failure : Failure}
    (h : (p.transform code id s).1 = .error failure) :
    s.SameBeside (p.transform code id s).2 := by
  obtain ⟨-, hsame⟩ | ⟨out, _, hout, -⟩ := transform_cases p code id s
  · exact hsame
  · rw [h] at hout
    cases hout

/-- A source is assembled in the stages that come before the compiler. -/
theorem tells_of_assemble {p : Plugin} {code id : String} {s u : Session σ}
    {assembled : Preprocessed} (h : (p.assemble (.ofId id code) id).run s = (.ok assembled, u)) :
    s.Tells u ((Stage.moves id [.idle, .extracting, .rewriting, .compiling]).map .logged) := by
  obtain ⟨prepared, e, t, -, -, hpublished, -, rfl⟩ := steps_of_assemble h
  exact ((tells_takenUp hpublished).trans (Session.tells_tell rfl _)).trans
    (Session.tells_tell rfl _)

/-- A transform that comes to its end has told of all stages. -/
theorem tells_of_run {p : Plugin} {code id : String} {s t : Session σ} {output : TransformOutput}
    (h : (p.run (.ofId id code) id).run s = (.ok output, t)) :
    ∃ told, s.Tells t told ∧
      told.filterMap Notice.stageEvent? = Stage.moves id (Stage.course ++ [.done]) := by
  obtain ⟨assembled, u, hassembled, -⟩ := Work.run_bind_eq_ok.mp h
  rw [run_of_assembled hassembled] at h
  split at h
  · cases h
  · next compiled _ =>
    cases h
    refine ⟨_, (tells_of_assemble hassembled).trans
      ((Session.tells_tell rfl u).trans (tells_finish p id compiled _)), ?_⟩
    have hreports : ((p.reporter.reportAll (compiled.warnings.map fun d => d.orIn id)).flatMap
        Report.notices).filterMap Notice.stageEvent? = [] := by
      apply List.filterMap_eq_nil_iff.mpr
      intro notice hm
      obtain ⟨report, -, hm⟩ := List.mem_flatMap.mp hm
      exact Report.stageEvent?_of_mem hm
    simp only [List.filterMap_append, hreports, Stage.filterMap_stageEvent?_moves]
    rfl

/-- A transform that is given up has gone through its stages in order until then, and leaves behind
what they have done. -/
theorem Stops.leavesBehind {p : Plugin} {code id : String} {s t : Session σ} {halt : Halt}
    (hid : p.options.shouldTransform id = true) (h : p.Stops code id s halt t)
    (hbeside : s.SameBeside (t.log (.transformAborted id halt.stage))) :
    ∃ news : List Notice,
      (t.log (.transformAborted id halt.stage)).journal = news.reverse ++ s.journal ∧
      Stage.InOrder id news ∧
      p.LeavesBehind code id s (t.log (.transformAborted id halt.stage)) news halt.failure := by
  obtain ⟨passed, asked, news, hpassed, hnews, habandoned⟩ := h.abandoned
  have hcourse : passed ++ [halt.stage] <+: Stage.course ++ [.done] :=
    hpassed.trans (List.prefix_append _ _)
  refine ⟨news, hnews, ⟨passed, halt.stage, Stage.head?_of_prefix hcourse,
    Stage.isChain_of_prefix hcourse, .inr habandoned.filterMap_stageEvent?⟩, ?_⟩
  exact {
    beside := hbeside
    store := (h.commits hid).sameStore (t.sameStore_log _)
    unreported := fun _ => habandoned.isReport_of_mem
    asked := habandoned.compileAsked_iff.trans h.stage_eq_compiling_iff
    stages := ⟨passed, halt.stage, h.stage, hpassed, habandoned.filterMap_stageEvent?⟩ }

/-- Whatever comes of it, a transform goes through its stages in order, and one that fails leaves
behind what was done before the stage that it fails in. -/
theorem leavesBehind_of_transform (p : Plugin) (code id : String) (s : Session σ) :
    ∃ news : List Notice, (p.transform code id s).2.journal = news.reverse ++ s.journal ∧
      Stage.InOrder id news ∧
      ∀ failure, (p.transform code id s).1 = .error failure →
        p.LeavesBehind code id s (p.transform code id s).2 news failure := by
  by_cases hid : p.options.shouldTransform id = true
  · rcases hrun : (p.run (.ofId id code) id).run s with ⟨result, t⟩
    cases result with
    | ok output =>
      have htransform : p.transform code id s = (.ok (some output), t) := by
        rw [transform, if_pos hid, hrun]
      obtain ⟨told, ⟨news, hnews, rfl⟩, hstages⟩ := tells_of_run hrun
      rw [Notice.filterMap_stageEvent?_filter] at hstages
      rw [htransform]
      refine ⟨news, hnews, ⟨Stage.course, .done, rfl, ?_, .inl hstages⟩, ?_⟩
      · exact Stage.isChain_of_prefix List.prefix_rfl
      · intro failure h
        cases h
    | error halt =>
      have htransform : p.transform code id s =
          (.error halt.failure, t.log (.transformAborted id halt.stage)) := by
        rw [transform, if_pos hid, hrun]
      have hbeside := beside_of_error (congrArg Prod.fst htransform)
      rw [htransform] at hbeside ⊢
      obtain ⟨news, hnews, horder, hleaves⟩ := (stops_of_run hrun).leavesBehind hid hbeside
      refine ⟨news, hnews, horder, ?_⟩
      intro failure h
      cases h
      exact hleaves
  · rw [transform, if_neg hid]
    refine ⟨[], rfl, ⟨[], .idle, rfl, List.isChain_singleton _, .inl rfl⟩, ?_⟩
    intro failure h
    cases h

/-- Where the compiler refuses a component, what was declared in it is published all the same. -/
theorem leavesBehind_of_transform_refused :
    let p : Plugin := ⟨.default, none, none, fun _ _ => .error "refused"⟩
    let code := "<template name=B>b</template><p>"
    let id := "/P.svelte"
    let s : Session Memory := .start .empty
    let failure : Failure := .notCompiled ⟨id⟩ "refused"
    (p.transform code id s).1 = .error failure ∧
      ∃ news : List Notice, (p.transform code id s).2.journal = news.reverse ++ s.journal ∧
        Stage.InOrder id news ∧
        p.LeavesBehind code id s (p.transform code id s).2 news failure := by
  intro p code id s failure
  have he : p.extraction? code id = some ⟨"<p>", [⟨"B", ⟨"/P__B.svelte"⟩, "b"⟩]⟩ := by
    decide +kernel
  have hi : injectImports "<p>" ⟨id⟩ (Extraction.imports ⟨"<p>", [⟨"B", ⟨"/P__B.svelte"⟩, "b"⟩]⟩) =
      .ok "<script>\nimport B from './P__B.svelte';\n</script>\n<p>" :=
    toOption_eq_some_iff.mp (by decide +kernel)
  obtain ⟨hid, dependencies, u, hassembled⟩ := exists_assemble (s := s) rfl he hi
  have hresult : (p.transform code id s).1 = .error failure := by
    rw [transform, if_pos hid, run_of_assembled hassembled]
    rfl
  obtain ⟨news, hnews, horder, hleaves⟩ := p.leavesBehind_of_transform code id s
  exact ⟨hresult, news, hnews, horder, hleaves failure hresult⟩

end Plugin

end InlineComponents
