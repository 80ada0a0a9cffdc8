import InlineComponents.Proofs.Leftovers

namespace InlineComponents

/-- A map between file systems under which the changes of the one answer as those of the other and
lead to the corresponding files. -/
structure Carries {σ τ : Type} [FileSystem σ] [FileSystem τ] (f : σ → τ) : Prop where
  write : ∀ files path body, FileSystem.write (f files) path body =
    ((FileSystem.write files path body).1, f (FileSystem.write files path body).2)
  remove : ∀ files path, FileSystem.remove (f files) path =
    ((FileSystem.remove files path).1, f (FileSystem.remove files path).2)

namespace Session

variable {σ τ : Type}

/-- The session with its files replaced. -/
def onFiles (f : σ → τ) (s : Session σ) : Session τ :=
  ⟨f s.files, s.artifacts, s.children, s.assets, s.hidden, s.journal⟩

/-- A result and the session it leaves, with its files replaced. -/
def pairOn {α : Type} (f : σ → τ) (r : α × Session σ) : α × Session τ :=
  (r.1, r.2.onFiles f)

variable (f : σ → τ)

theorem onFiles_foldl {α : Type} {act : Session σ → α → Session σ}
    {act' : Session τ → α → Session τ} (h : ∀ s a, act' (s.onFiles f) a = (act s a).onFiles f)
    (as : List α) (s : Session σ) : as.foldl act' (s.onFiles f) = (as.foldl act s).onFiles f := by
  induction as generalizing s with
  | nil => rfl
  | cons a as ih =>
    rw [List.foldl_cons, h]
    exact ih (act s a)

theorem onFiles_logAll (s : Session σ) (events : List Event) :
    (s.onFiles f).logAll events = (s.logAll events).onFiles f :=
  onFiles_foldl f (fun _ _ => rfl) events s

theorem onFiles_tellReport (s : Session σ) (report : Report) :
    (s.onFiles f).tellReport report = (s.tellReport report).onFiles f := by
  cases report with
  | handled d => rfl
  | shown d => exact onFiles_logAll f s _

theorem onFiles_setPublished (s : Session σ) (key : Path) (published : Bool) :
    (s.onFiles f).setPublished key published = (s.setPublished key published).onFiles f := by
  unfold setPublished
  rw [show (s.onFiles f).artifacts = s.artifacts from rfl]
  split <;> rfl

theorem onFiles_setChildren (s : Session σ) (parent : Path) (paths : List Path) :
    (s.onFiles f).setChildren parent paths = (s.setChildren parent paths).onFiles f :=
  rfl

theorem onFiles_forEach {act : Session σ → SubComponent → Except Failure Unit × Session σ}
    {act' : Session τ → SubComponent → Except Failure Unit × Session τ}
    (h : ∀ s c, act' (s.onFiles f) c = pairOn f (act s c)) (cs : List SubComponent)
    (s : Session σ) : (s.onFiles f).forEach act' cs = pairOn f (s.forEach act cs) := by
  induction cs generalizing s with
  | nil => rfl
  | cons c cs ih =>
    rw [forEach, forEach, h]
    rcases act s c with ⟨result, t⟩
    cases result with
    | error failure => rfl
    | ok u => exact ih t

variable [FileSystem σ] [FileSystem τ] {f}

theorem onFiles_materialize (hf : Carries f) (s : Session σ) (c : SubComponent) :
    (s.onFiles f).materialize c = pairOn f (s.materialize c) := by
  unfold materialize
  rw [show (s.onFiles f).files = f s.files from rfl, hf.write]
  rcases FileSystem.write s.files c.path c.body.toUTF8 with ⟨result, files⟩
  cases result with
  | error cause => rfl
  | ok u =>
    have hset := onFiles_setPublished f { s with files } c.path.clean true
    exact congrArg (Prod.mk (Except.ok ())) hset

theorem onFiles_publish (hf : Carries f) (s : Session σ) (c : SubComponent) :
    (s.onFiles f).publish c = pairOn f (s.publish c) := by
  have hm := onFiles_materialize hf (s.register c) c
  unfold publish
  rw [show (s.onFiles f).register c = (s.register c).onFiles f from rfl, hm]
  rcases (s.register c).materialize c with ⟨result, t⟩
  cases result <;> rfl

theorem onFiles_publishAll (hf : Carries f) (s : Session σ) (cs : List SubComponent) :
    (s.onFiles f).publishAll cs = pairOn f (s.publishAll cs) :=
  onFiles_forEach f (onFiles_publish hf) cs s

theorem onFiles_materializeAll (hf : Carries f) (s : Session σ) :
    (s.onFiles f).materializeAll = pairOn f s.materializeAll := by
  unfold materializeAll
  dsimp only
  rw [show (s.onFiles f).artifacts = s.artifacts from rfl,
    onFiles_forEach f (onFiles_materialize hf)]
  generalize s.forEach materialize _ = r
  obtain ⟨result, t⟩ := r
  cases result with
  | error failure => rfl
  | ok u =>
    dsimp only [pairOn]
    split <;> rfl

theorem onFiles_removeFile (hf : Carries f) (s : Session σ) (path : Path) :
    (s.onFiles f).removeFile path = (s.removeFile path).onFiles f := by
  unfold removeFile
  rw [show (s.onFiles f).files = f s.files from rfl, hf.remove]
  rcases FileSystem.remove s.files path with ⟨result, files⟩
  cases result with
  | error cause =>
    dsimp only
    split <;> rfl
  | ok u => rfl

theorem onFiles_release (hf : Carries f) (s : Session σ) (path : Path) :
    (s.onFiles f).release path = pairOn f (s.release path) := by
  unfold release
  rw [show (s.onFiles f).isPublished path = s.isPublished path from rfl]
  split
  · rw [onFiles_setPublished, onFiles_removeFile hf]
    rfl
  · rfl

theorem onFiles_drop (hf : Carries f) (s : Session σ) (key : Path) :
    (s.onFiles f).drop key = (s.drop key).onFiles f :=
  onFiles_removeFile hf { s with artifacts := s.artifacts.erase key } key

theorem onFiles_retain (hf : Carries f) (s : Session σ) (parent : Path) (cs : List SubComponent) :
    (s.onFiles f).retain parent cs = pairOn f (s.retain parent cs) := by
  unfold retain
  dsimp only
  rw [onFiles_setChildren, onFiles_foldl f (onFiles_drop hf),
    show (s.onFiles f).children = s.children from rfl]
  split <;> rfl

end Session

namespace Work

open Session

variable {σ τ α β : Type} {f : σ → τ}

/-- Work that does with some files what other work does with the files that correspond to them. -/
def Follows (f : σ → τ) (w : Work σ α) (w' : Work τ α) : Prop :=
  ∀ s : Session σ, w'.run (s.onFiles f) = pairOn f (w.run s)

theorem follows_pure (a : α) : Follows f (pure a) (pure a) :=
  fun _ => rfl

theorem Follows.bind {w : Work σ α} {w' : Work τ α} {next : α → Work σ β} {next' : α → Work τ β}
    (hw : Follows f w w') (hn : ∀ a, Follows f (next a) (next' a)) :
    Follows f (w >>= next) (w' >>= next') := by
  intro s
  rw [run_bind, run_bind, hw s]
  rcases w.run s with ⟨result, t⟩
  cases result with
  | error halt => rfl
  | ok a => exact hn a t

theorem follows_settle (stage : Stage) (result : Except Failure α) :
    Follows f (settle stage result) (settle stage result) :=
  fun _ => rfl

theorem follows_perform (stage : Stage) {act : Session σ → Except Failure α × Session σ}
    {act' : Session τ → Except Failure α × Session τ}
    (h : ∀ s, act' (s.onFiles f) = pairOn f (act s)) :
    Follows f (perform stage act) (perform stage act') := by
  intro s
  rw [run_perform, run_perform, h s]
  rfl

theorem follows_change {act : Session σ → Session σ} {act' : Session τ → Session τ}
    (h : ∀ s, act' (s.onFiles f) = (act s).onFiles f) : Follows f (change act) (change act') := by
  intro s
  exact congrArg (Prod.mk (Except.ok ())) (h s)

theorem follows_enter (id : String) (before after : Stage) :
    Follows f (enter id before after) (enter id before after) :=
  follows_change fun _ => rfl

end Work

namespace Plugin

open Session Work

variable {σ τ : Type} {f : σ → τ}

theorem follows_compile (p : Plugin) (path : Path) (id source : String) :
    Follows f (p.compile path id source) (p.compile path id source) :=
  Follows.bind (follows_change fun _ => rfl) fun _ => follows_settle _ _

theorem follows_report (p : Plugin) (id : String) (warnings : List Diagnostic) :
    Follows f (p.report id warnings) (p.report id warnings) :=
  follows_change fun s => onFiles_foldl f (onFiles_tellReport f) _ s

theorem follows_emit (p : Plugin) (id : String) (output : CompileOutput) :
    Follows f (p.emit id output) (p.emit id output) := by
  unfold emit
  split
  · exact follows_pure _
  · exact Follows.bind (follows_change fun _ => rfl) fun _ => follows_pure _

variable [FileSystem σ] [FileSystem τ]

theorem follows_separate (hf : Carries f) (p : Plugin) (path : Path) (source : String) :
    Follows f (p.separate path source) (p.separate path source) := by
  refine Follows.bind (follows_perform _ fun s => ?_) fun e => ?_
  · exact congrArg (Prod.mk _) (onFiles_logAll f s _)
  refine Follows.bind (follows_perform _ fun s => onFiles_publishAll hf s e.components) fun _ => ?_
  refine Follows.bind (follows_change fun s => ?_) fun _ => follows_pure e
  exact congrArg Prod.snd (onFiles_retain hf s path e.components)

theorem follows_assemble (hf : Carries f) (p : Plugin) (unit : SourceUnit) (id : String) :
    Follows f (p.assemble unit id) (p.assemble unit id) := by
  refine Follows.bind (follows_settle _ _) fun prepared => ?_
  refine Follows.bind (follows_enter _ _ _) fun _ => ?_
  refine Follows.bind (follows_separate hf p unit.path prepared.code) fun e => ?_
  refine Follows.bind (follows_enter _ _ _) fun _ => ?_
  refine Follows.bind (follows_settle _ _) fun code => ?_
  exact Follows.bind (follows_enter _ _ _) fun _ => follows_pure _

theorem follows_run (hf : Carries f) (p : Plugin) (unit : SourceUnit) (id : String) :
    Follows f (p.run unit id) (p.run unit id) := by
  refine Follows.bind (follows_assemble hf p unit id) fun assembled => ?_
  refine Follows.bind (follows_compile p _ id _) fun output => ?_
  refine Follows.bind (follows_report p id _) fun _ => ?_
  refine Follows.bind (follows_enter _ _ _) fun _ => ?_
  refine Follows.bind (follows_emit p id output) fun code => ?_
  exact Follows.bind (follows_enter _ _ _) fun _ => follows_pure _

/-- A transform has the same result on corresponding files, and leaves corresponding files. -/
theorem onFiles_transform (hf : Carries f) (p : Plugin) (code id : String) (s : Session σ) :
    p.transform code id (s.onFiles f) = pairOn f (p.transform code id s) := by
  unfold transform
  split
  · rw [follows_run hf p (.ofId id code) id s]
    rcases (p.run (.ofId id code) id).run s with ⟨result, t⟩
    cases result <;> rfl
  · rfl

theorem onFiles_moduleParsed (hf : Carries f) (p : Plugin) (id : String) (s : Session σ) :
    p.moduleParsed id (s.onFiles f) = pairOn f (p.moduleParsed id s) := by
  unfold moduleParsed
  split
  · exact onFiles_release hf s _
  · rfl

theorem onFiles_step (hf : Carries f) (p : Plugin) (s : Session σ) (step : BuildStep) :
    p.step (s.onFiles f) step = (p.step s step).onFiles f := by
  cases step with
  | transform code id => exact congrArg Prod.snd (onFiles_transform hf p code id s)
  | moduleParsed id => exact congrArg Prod.snd (onFiles_moduleParsed hf p id s)
  | buildStart => exact congrArg Prod.snd (onFiles_materializeAll hf s)

end Plugin

end InlineComponents
