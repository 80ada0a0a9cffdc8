import InlineComponents.Plugin.Hooks
import InlineComponents.Proofs.Artifacts

namespace InlineComponents

namespace Work

variable {σ α β : Type}

theorem run_bind (w : Work σ α) (next : α → Work σ β) (s : Session σ) :
    (w >>= next).run s =
      match w.run s with
      | (.ok a, t) => (next a).run t
      | (.error halt, t) => (.error halt, t) := by
  show (StateT.bind w.run (ExceptT.bindCont next)) s = _
  unfold StateT.bind
  rcases w.run s with ⟨result, t⟩
  cases result <;> rfl

theorem run_perform (stage : Stage) (act : Session σ → Except Failure α × Session σ)
    (s : Session σ) :
    (perform stage act).run s = ((act s).1.mapError (Halt.mk stage), (act s).2) :=
  rfl

theorem run_settle (stage : Stage) (result : Except Failure α) (s : Session σ) :
    (settle stage result).run s = (result.mapError (Halt.mk stage), s) :=
  rfl

theorem run_enter (id : String) (before after : Stage) (s : Session σ) :
    (enter id before after).run s = (.ok (), s.log (.stageEntered id before after)) :=
  rfl

/-- Work that leads from any session to a related one. -/
def Keeps (R : Session σ → Session σ → Prop) (w : Work σ α) : Prop :=
  ∀ s, R s (w.run s).2

/-- What the parts of some work keep of a session, the whole keeps. -/
theorem Keeps.bind {R : Session σ → Session σ → Prop} (hR : Session.Frame R) {w : Work σ α}
    {next : α → Work σ β} (hw : Keeps R w) (hn : ∀ a, Keeps R (next a)) :
    Keeps R (w >>= next) := by
  intro s
  have h := hw s
  rw [run_bind]
  split
  · next a t ht =>
    rw [ht] at h
    exact hR.trans h (hn a t)
  · next halt t ht => rwa [ht] at h

/-- Work that leaves the store as it is. -/
def Quiet (w : Work σ α) : Prop :=
  ∀ s : Session σ, s.SameStore (w.run s).2

theorem quiet_pure (a : α) : Quiet (pure a : Work σ α) :=
  fun s => .refl s

theorem Quiet.bind {w : Work σ α} {next : α → Work σ β} (hw : Quiet w)
    (hn : ∀ a, Quiet (next a)) : Quiet (w >>= next) :=
  Keeps.bind Session.frame_sameStore hw hn

theorem quiet_settle (stage : Stage) (result : Except Failure α) :
    Quiet (settle stage result : Work σ α) :=
  fun s => .refl s

theorem quiet_change {act : Session σ → Session σ} (h : ∀ s : Session σ, s.SameStore (act s)) :
    Quiet (change act) :=
  h

theorem quiet_enter (id : String) (before after : Stage) :
    Quiet (enter id before after : Work σ Unit) :=
  fun s => s.sameStore_log _

end Work

namespace Session

variable {σ : Type}

namespace Frame

variable {R : Session σ → Session σ → Prop} (h : Frame R)

include h

theorem logAll (s : Session σ) (events : List Event) : R s (s.logAll events) :=
  h.foldl h.log events s

theorem tellReport (s : Session σ) (report : Report) : R s (s.tellReport report) := by
  cases report with
  | handled d => exact h.handled s d
  | shown d => exact h.logAll s _

/-- The diagnostics of a compilation are told. -/
theorem report (p : Plugin) (id : String) (warnings : List Diagnostic) :
    Work.Keeps R (p.report id warnings) :=
  fun s => h.foldl h.tellReport _ s

variable [FileSystem σ] (hpublish : ∀ s c, R s (s.publish c).2)
  (hchildren : ∀ s parent paths, R s (s.setChildren parent paths))
  (hdrop : ∀ s key, R s (s.drop key))

include hpublish hchildren hdrop

theorem separate (p : Plugin) (path : Path) (source : String) :
    Work.Keeps R (p.separate path source) := by
  have hretain (cs : List SubComponent) (s : Session σ) : R s (s.retain path cs).2 :=
    h.trans (h.trans (hchildren s _ _) (h.foldl hdrop _ _)) (h.retain s path cs)
  refine Work.Keeps.bind h (fun s => h.logAll s _) fun e => ?_
  refine Work.Keeps.bind h (fun s => h.forEach hpublish s e.components) fun _ => ?_
  exact Work.Keeps.bind h (hretain e.components) fun _ => h.refl

/-- What holds of publications and of drops holds of an assembly as a whole. -/
theorem assemble (p : Plugin) (unit : SourceUnit) (id : String) :
    Work.Keeps R (p.assemble unit id) := by
  refine Work.Keeps.bind h h.refl fun prepared => ?_
  refine Work.Keeps.bind h (fun s => h.log s _) fun _ => ?_
  refine Work.Keeps.bind h (h.separate hpublish hchildren hdrop p _ _) fun e => ?_
  refine Work.Keeps.bind h (fun s => h.log s _) fun _ => ?_
  refine Work.Keeps.bind h h.refl fun _ => ?_
  exact Work.Keeps.bind h (fun s => h.log s _) fun _ => h.refl

end Frame

variable [FileSystem σ]

/-- The components of an extraction published, and those dropped that are no longer declared. -/
def takeUp (s : Session σ) (parent : Path) (cs : List SubComponent) : Session σ :=
  match s.publishAll cs with
  | (.error _, s) => s
  | (.ok (), s) => (s.retain parent cs).2

/-- The store is changed by what was extracted, and not at all if nothing was. -/
def Takes (parent : Path) (extracted : Option Extraction) (s t : Session σ) : Prop :=
  match extracted with
  | none => SameStore s t
  | some e => ∃ u, SameStore s u ∧ SameStore (u.takeUp parent e.components) t

theorem Takes.trans {parent : Path} {extracted : Option Extraction} {s t u : Session σ}
    (h : Takes parent extracted s t) (ht : SameStore t u) : Takes parent extracted s u := by
  cases extracted with
  | none => exact SameStore.trans h ht
  | some e =>
    obtain ⟨v, hs, hv⟩ := h
    exact ⟨v, hs, hv.trans ht⟩

theorem SameStore.takes {parent : Path} {extracted : Option Extraction} {s t u : Session σ}
    (hs : SameStore s t) (h : Takes parent extracted t u) : Takes parent extracted s u := by
  cases extracted with
  | none => exact hs.trans h
  | some e =>
    obtain ⟨v, ht, hv⟩ := h
    exact ⟨v, hs.trans ht, hv⟩

end Session

theorem Work.takes_bind {σ α β : Type} [FileSystem σ] {w : Work σ α} {next : α → Work σ β}
    {parent : Path} {extracted : Option Extraction} {s : Session σ}
    (hw : s.Takes parent extracted (w.run s).2) (hn : ∀ a, Work.Quiet (next a)) :
    s.Takes parent extracted ((w >>= next).run s).2 := by
  rw [run_bind]
  split
  · next a t ht =>
    rw [ht] at hw
    exact hw.trans (hn a t)
  · next halt t ht => rwa [ht] at hw

namespace Plugin

variable {σ : Type}

theorem quiet_compile (p : Plugin) (path : Path) (id source : String) :
    Work.Quiet (p.compile path id source : Work σ CompileOutput) := by
  apply Work.Quiet.bind
  · exact Work.quiet_change fun s => ⟨rfl, rfl, rfl⟩
  · intro _
    exact Work.quiet_settle _ _

theorem quiet_report (p : Plugin) (id : String) (warnings : List Diagnostic) :
    Work.Quiet (p.report id warnings : Work σ Unit) :=
  Session.frame_sameStore.report p id warnings

theorem quiet_emit (p : Plugin) (id : String) (output : CompileOutput) :
    Work.Quiet (p.emit id output : Work σ String) := by
  unfold emit
  split
  · exact Work.quiet_pure _
  · apply Work.Quiet.bind
    · exact Work.quiet_change fun s => ⟨rfl, rfl, rfl⟩
    · intro _
      exact Work.quiet_pure _

variable [FileSystem σ]

theorem takes_separate (p : Plugin) (path : Path) (source : String) (s : Session σ) :
    s.Takes path (extract source path p.options.onDuplicate).2.toOption
      ((p.separate path source).run s).2 := by
  have hlog := Session.frame_sameStore.logAll s (extract source path p.options.onDuplicate).1
  rw [separate, Work.run_bind, Work.run_perform]
  dsimp only
  cases (extract source path p.options.onDuplicate).2 with
  | error failure => exact hlog
  | ok e =>
    refine ⟨_, hlog, ?_⟩
    dsimp only [Except.mapError]
    rw [Work.run_bind, Work.run_perform, Session.takeUp]
    rcases Session.publishAll _ e.components with ⟨result, t⟩
    cases result with
    | error failure => exact .refl t
    | ok u => exact .refl _

/-- What is extracted from a component, if its preprocessor gives a source. -/
def extracted? (p : Plugin) (unit : SourceUnit) (id : String) : Option Extraction :=
  match p.prepare unit id with
  | .error _ => none
  | .ok prepared => (extract prepared.code unit.path p.options.onDuplicate).2.toOption

theorem takes_assemble (p : Plugin) (unit : SourceUnit) (id : String) (s : Session σ) :
    s.Takes unit.path (p.extracted? unit id) ((p.assemble unit id).run s).2 := by
  rw [assemble, Work.run_bind, Work.run_settle, extracted?]
  cases p.prepare unit id with
  | error failure => exact .refl s
  | ok prepared =>
    dsimp only [Except.mapError]
    rw [Work.run_bind, Work.run_enter]
    refine (s.sameStore_log (.stageEntered id .idle .extracting)).takes ?_
    refine Work.takes_bind (takes_separate p unit.path prepared.code _) ?_
    intro e
    refine (Work.quiet_enter _ _ _).bind fun _ => ?_
    refine (Work.quiet_settle _ _).bind fun _ => ?_
    refine (Work.quiet_enter _ _ _).bind fun _ => ?_
    exact Work.quiet_pure _

theorem takes_run (p : Plugin) (unit : SourceUnit) (id : String) (s : Session σ) :
    s.Takes unit.path (p.extracted? unit id) ((p.run unit id).run s).2 := by
  refine Work.takes_bind (takes_assemble p unit id s) ?_
  intro assembled
  refine (quiet_compile _ _ _ _).bind fun _ => ?_
  refine (quiet_report _ _ _).bind fun _ => ?_
  refine (Work.quiet_enter _ _ _).bind fun _ => ?_
  refine (quiet_emit _ _ _).bind fun _ => ?_
  refine (Work.quiet_enter _ _ _).bind fun _ => ?_
  exact Work.quiet_pure _

/-- What is extracted when a component is transformed, if it comes to that. -/
def extraction? (p : Plugin) (code id : String) : Option Extraction :=
  if p.options.shouldTransform id then p.extracted? (.ofId id code) id else none

/-- A transform changes the store by what is extracted, whatever comes of it afterwards. -/
theorem takes_transform (p : Plugin) (code id : String) (s : Session σ) :
    s.Takes ⟨id⟩ (p.extraction? code id) (p.transform code id s).2 := by
  rw [transform, extraction?]
  split
  · have hrun := takes_run p (.ofId id code) id s
    split
    · next output t ht => rwa [ht] at hrun
    · next halt t ht =>
      rw [ht] at hrun
      exact hrun.trans (t.sameStore_log _)
  · exact .refl s

end Plugin

end InlineComponents
