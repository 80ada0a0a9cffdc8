import InlineComponents.Proofs.Emission

namespace InlineComponents

/-- The stage in which a transform fails so, if a transform can. -/
def Failure.stage? : Failure → Option Stage
  | .notPreprocessed .. => some .idle
  | .invalidName .. | .duplicateName .. | .unclosedBlock .. | .sourceTooLarge ..
  | .artifactNotWritten .. => some .extracting
  | .malformedScript _ => some .rewriting
  | .notCompiled .. => some .compiling
  | .package .. | .invalidOptions _ => none

theorem extract_eq_error {source : String} {file : Path} {policy : DuplicatePolicy}
    {failure : Failure} (h : (extract source file policy).2 = .error failure) :
    (∃ name, failure = .invalidName file name) ∨ (∃ name, failure = .duplicateName file name) ∨
      (∃ name offset, failure = .unclosedBlock file name offset) ∨
      ∃ size limit, failure = .sourceTooLarge file size limit := by
  unfold extract at h
  split at h
  · cases h
    exact .inr (.inr (.inr ⟨_, _, rfl⟩))
  · unfold Outline.extract at h
    split at h
    · cases h
      exact .inr (.inl ⟨_, rfl⟩)
    · dsimp only at h
      split at h
      · next found hfound =>
        cases h
        obtain ⟨stop, -, rfl⟩ := Option.map_eq_some_iff.mp hfound
        cases stop with
        | invalidName name => exact .inl ⟨name, rfl⟩
        | unclosed name => exact .inr (.inr (.inl ⟨name, _, rfl⟩))
      · cases h

theorem injectImports_eq_error {residual : String} {file : Path} {imports : List Import}
    {failure : Failure} (h : injectImports residual file imports = .error failure) :
    failure = .malformedScript file := by
  unfold injectImports at h
  split at h
  · cases h
  · dsimp only at h
    split at h
    · exact (Except.error.inj h).symm
    · split at h
      · cases h
      · cases h

namespace Session

variable {σ : Type} [FileSystem σ]

theorem publish_eq_error {s t : Session σ} {c : SubComponent} {failure : Failure}
    (h : s.publish c = (.error failure, t)) :
    ∃ cause, failure = .artifactNotWritten c.path cause := by
  obtain ⟨result, files, -, ⟨cause, -, hm⟩ | ⟨-, hm⟩⟩ := (s.register c).materialize_cases c
  · rw [publish, hm] at h
    cases h
    exact ⟨cause, rfl⟩
  · rw [publish, hm] at h
    cases h

theorem publishAll_eq_error {s t : Session σ} {cs : List SubComponent} {failure : Failure}
    (h : s.publishAll cs = (.error failure, t)) :
    ∃ path cause, failure = .artifactNotWritten path cause := by
  induction cs generalizing s with
  | nil => cases h
  | cons c cs ih =>
    rw [publishAll, forEach] at h
    split at h
    · next hfailed =>
      cases h
      obtain ⟨cause, rfl⟩ := publish_eq_error hfailed
      exact ⟨c.path, cause, rfl⟩
    · exact ih h

end Session

namespace Work

variable {σ α β : Type}

/-- Work fails in its first part, or in the rest after it. -/
theorem run_bind_eq_error {w : Work σ α} {next : α → Work σ β} {s u : Session σ} {halt : Halt} :
    (w >>= next).run s = (.error halt, u) ↔
      w.run s = (.error halt, u) ∨
        ∃ a t, w.run s = (.ok a, t) ∧ (next a).run t = (.error halt, u) := by
  rw [run_bind]
  rcases w.run s with ⟨result, t⟩
  constructor
  · intro h
    cases result with
    | error halt' =>
      cases h
      exact .inl rfl
    | ok a => exact .inr ⟨a, t, rfl, h⟩
  · rintro (h | ⟨a, u, hw, hn⟩)
    · cases h
      rfl
    · cases hw
      exact hn

theorem run_pure_ne_error {s u : Session σ} {a : α} {halt : Halt} :
    (pure a : Work σ α).run s ≠ (.error halt, u) := by
  intro h
  cases h

theorem run_change_ne_error {act : Session σ → Session σ} {s u : Session σ} {halt : Halt} :
    (change act).run s ≠ (.error halt, u) := by
  intro h
  cases h

theorem run_settle_eq_error {stage : Stage} {result : Except Failure α} {s u : Session σ}
    {halt : Halt} : (settle stage result : Work σ α).run s = (.error halt, u) ↔
      result = .error halt.failure ∧ halt.stage = stage ∧ s = u := by
  rw [run_settle]
  cases result with
  | error failure =>
    constructor
    · intro h
      cases h
      exact ⟨rfl, rfl, rfl⟩
    · rintro ⟨h, rfl, rfl⟩
      obtain rfl := Except.error.inj h
      rfl
  | ok a =>
    constructor
    · intro h
      cases h
    · rintro ⟨h, -⟩
      cases h

theorem run_perform_eq_error {stage : Stage} {act : Session σ → Except Failure α × Session σ}
    {s u : Session σ} {halt : Halt} : (perform stage act).run s = (.error halt, u) ↔
      act s = (.error halt.failure, u) ∧ halt.stage = stage := by
  rw [run_perform]
  rcases act s with ⟨result, t⟩
  cases result with
  | error failure =>
    constructor
    · intro h
      cases h
      exact ⟨rfl, rfl⟩
    · rintro ⟨h, rfl⟩
      cases h
      rfl
  | ok a =>
    constructor
    · intro h
      cases h
    · rintro ⟨h, -⟩
      cases h

end Work

namespace Plugin

open Work

theorem prepare_eq_error {p : Plugin} {unit : SourceUnit} {id : String} {failure : Failure}
    (h : p.prepare unit id = .error failure) :
    ∃ reason, failure = .notPreprocessed unit.path reason := by
  unfold prepare at h
  split at h
  · cases h
  · next preprocess _ =>
    cases hreason : preprocess unit.text id with
    | error reason =>
      rw [hreason] at h
      exact ⟨reason, (Except.error.inj h).symm⟩
    | ok prepared =>
      rw [hreason] at h
      cases h

variable {σ : Type} [FileSystem σ]

/-- The session in which a source is told apart, before its components are published. -/
def told (p : Plugin) (id : String) (prepared : Preprocessed) (s : Session σ) : Session σ :=
  (s.log (.stageEntered id .idle .extracting)).logAll
    (extract prepared.code ⟨id⟩ p.options.onDuplicate).1

/-- The points at which a transform can fail, each with the session that it leaves. -/
inductive Stops (p : Plugin) (code id : String) (s : Session σ) : Halt → Session σ → Prop
  | preparing {failure} : p.prepare (.ofId id code) id = .error failure →
    Stops p code id s ⟨.idle, failure⟩ s
  | extracting {prepared failure} : p.prepare (.ofId id code) id = .ok prepared →
    (extract prepared.code ⟨id⟩ p.options.onDuplicate).2 = .error failure →
    Stops p code id s ⟨.extracting, failure⟩ (p.told id prepared s)
  | writing {prepared e failure t} : p.prepare (.ofId id code) id = .ok prepared →
    (extract prepared.code ⟨id⟩ p.options.onDuplicate).2 = .ok e →
    (p.told id prepared s).publishAll e.components = (.error failure, t) →
    Stops p code id s ⟨.extracting, failure⟩ t
  | rewriting {prepared e t failure} : p.prepare (.ofId id code) id = .ok prepared →
    (extract prepared.code ⟨id⟩ p.options.onDuplicate).2 = .ok e →
    (p.told id prepared s).publishAll e.components = (.ok (), t) →
    injectImports e.residual ⟨id⟩ e.imports = .error failure →
    Stops p code id s ⟨.rewriting, failure⟩
      ((t.retain ⟨id⟩ e.components).2.log (.stageEntered id .extracting .rewriting))
  | compiling {prepared e t source reason} : p.prepare (.ofId id code) id = .ok prepared →
    (extract prepared.code ⟨id⟩ p.options.onDuplicate).2 = .ok e →
    (p.told id prepared s).publishAll e.components = (.ok (), t) →
    injectImports e.residual ⟨id⟩ e.imports = .ok source →
    p.compiler source (p.compileOptions id) = .error reason →
    Stops p code id s ⟨.compiling, .notCompiled ⟨id⟩ reason⟩
      ((((t.retain ⟨id⟩ e.components).2.log (.stageEntered id .extracting .rewriting)).log
        (.stageEntered id .rewriting .compiling)).tell
          (.compileAsked source (p.compileOptions id)))

theorem separate_eq_error {p : Plugin} {path : Path} {source : String} {s u : Session σ}
    {halt : Halt} : (p.separate path source).run s = (.error halt, u) ↔
      halt.stage = .extracting ∧
        (((extract source path p.options.onDuplicate).2 = .error halt.failure ∧
          s.logAll (extract source path p.options.onDuplicate).1 = u) ∨
        ∃ e, (extract source path p.options.onDuplicate).2 = .ok e ∧
          (s.logAll (extract source path p.options.onDuplicate).1).publishAll e.components =
            (.error halt.failure, u)) := by
  simp only [separate, run_bind_eq_error, run_perform_eq_error, run_perform_eq_ok,
    run_change_ne_error, run_pure_ne_error, run_change_eq_ok, Prod.mk.injEq]
  constructor
  · rintro (⟨he, hstage⟩ | ⟨e, _, ⟨he, rfl⟩, ⟨hp, hstage⟩ | h⟩)
    · exact ⟨hstage, .inl he⟩
    · exact ⟨hstage, .inr ⟨e, he, hp⟩⟩
    · simp at h
  · rintro ⟨hstage, he | ⟨e, he, hp⟩⟩
    · exact .inl ⟨he, hstage⟩
    · exact .inr ⟨e, _, ⟨he, rfl⟩, .inl ⟨hp, hstage⟩⟩

theorem stops_of_assemble {p : Plugin} {code id : String} {s t : Session σ} {halt : Halt}
    (h : (p.assemble (.ofId id code) id).run s = (.error halt, t)) : p.Stops code id s halt t := by
  obtain ⟨stage, failure⟩ := halt
  simp only [assemble, enter, run_bind_eq_error, run_settle_eq_error, separate_eq_error,
    run_change_ne_error, run_pure_ne_error, run_settle_eq_ok, separate_eq_ok, run_change_eq_ok,
    false_or] at h
  obtain ⟨hprepared, rfl, rfl⟩ | ⟨prepared, _, ⟨hprepared, rfl⟩, _, _, rfl,
    ⟨rfl, ⟨he, rfl⟩ | ⟨e, he, hpublished⟩⟩ | ⟨e, _, ⟨he, u, hpublished, rfl⟩, _, _, rfl,
      ⟨hcode, rfl, rfl⟩ | ⟨_, _, -, _, _, _, h⟩⟩⟩ := h
  · exact .preparing hprepared
  · exact .extracting hprepared he
  · exact .writing hprepared he hpublished
  · exact .rewriting hprepared he hpublished hcode
  · exact h.elim

/-- A source that is assembled has gone through all that can fail before the compiler. -/
theorem steps_of_assemble {p : Plugin} {code id : String} {s u : Session σ}
    {assembled : Preprocessed} (h : (p.assemble (.ofId id code) id).run s = (.ok assembled, u)) :
    ∃ prepared e t, p.prepare (.ofId id code) id = .ok prepared ∧
      (extract prepared.code ⟨id⟩ p.options.onDuplicate).2 = .ok e ∧
      (p.told id prepared s).publishAll e.components = (.ok (), t) ∧
      injectImports e.residual ⟨id⟩ e.imports = .ok assembled.code ∧
      u = ((t.retain ⟨id⟩ e.components).2.log (.stageEntered id .extracting .rewriting)).log
        (.stageEntered id .rewriting .compiling) := by
  simp only [assemble, enter, run_bind_eq_ok, run_settle_eq_ok, separate_eq_ok, run_change_eq_ok,
    run_pure_eq_ok] at h
  obtain ⟨prepared, _, ⟨hprepared, rfl⟩, _, _, rfl, e, _, ⟨he, t, hpublished, rfl⟩, _, _, rfl,
    source, _, ⟨hcode, rfl⟩, _, _, rfl, rfl, rfl⟩ := h
  exact ⟨prepared, e, t, hprepared, he, hpublished, hcode, rfl⟩

theorem stops_of_run {p : Plugin} {code id : String} {s t : Session σ} {halt : Halt}
    (h : (p.run (.ofId id code) id).run s = (.error halt, t)) : p.Stops code id s halt t := by
  rcases hassembled : (p.assemble (.ofId id code) id).run s with ⟨result, u⟩
  cases result with
  | error halt' =>
    rw [run, run_bind, hassembled] at h
    cases h
    exact stops_of_assemble hassembled
  | ok assembled =>
    rw [run_of_assembled hassembled] at h
    cases hcompiled : p.compiler assembled.code (p.compileOptions id) with
    | error reason =>
      rw [hcompiled] at h
      cases h
      obtain ⟨prepared, e, v, hprepared, he, hpublished, hcode, rfl⟩ :=
        steps_of_assemble hassembled
      exact .compiling hprepared he hpublished hcode hcompiled
    | ok output =>
      rw [hcompiled] at h
      cases h

end Plugin

end InlineComponents
