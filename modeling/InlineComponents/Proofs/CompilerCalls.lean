import InlineComponents.Proofs.Registration

namespace InlineComponents

namespace Session

variable {σ : Type}

/-- Notices are given, and none of them asks the compiler. -/
def Unasked (s t : Session σ) : Prop :=
  ∃ news, t.journal = news ++ s.journal ∧
    ∀ source options, Notice.compileAsked source options ∉ news

variable {s t u : Session σ}

theorem unasked_of_journal_eq (h : t.journal = s.journal) : Unasked s t :=
  ⟨[], h, fun _ _ => List.not_mem_nil⟩

theorem Unasked.refl (s : Session σ) : Unasked s s :=
  unasked_of_journal_eq rfl

theorem Unasked.trans (h : Unasked s t) (h' : Unasked t u) : Unasked s u := by
  obtain ⟨news, ht, hno⟩ := h
  obtain ⟨news', hu, hno'⟩ := h'
  refine ⟨news' ++ news, ?_, ?_⟩
  · rw [hu, ht, List.append_assoc]
  · intro source options hm
    rcases List.mem_append.mp hm with hm | hm
    · exact hno' source options hm
    · exact hno source options hm

theorem unasked_log (s : Session σ) (event : Event) : Unasked s (s.log event) :=
  ⟨[.logged event], rfl, by simp⟩

theorem frame_unasked : Frame (@Unasked σ) where
  refl := Unasked.refl
  trans := Unasked.trans
  log := unasked_log
  handled _ d := ⟨[.warningHandled d], rfl, by simp⟩

variable [FileSystem σ]

theorem unasked_publish (s : Session σ) (c : SubComponent) : Unasked s (s.publish c).2 := by
  have hregistered : Unasked s ((s.register c).materialize c).2 := by
    rw [materialize_snd]
    exact unasked_of_journal_eq rfl
  exact hregistered.trans (frame_unasked.publish s c)

theorem unasked_drop (s : Session σ) (key : Path) : Unasked s (s.drop key) := by
  have herased : Unasked s { s with
      artifacts := s.artifacts.erase key
      files := (FileSystem.remove s.files key).2 } :=
    unasked_of_journal_eq rfl
  exact herased.trans (frame_unasked.removeFile { s with artifacts := s.artifacts.erase key } key)

end Session

namespace Work

variable {σ α β : Type}

/-- Work that does not ask the compiler. -/
def Unasking (w : Work σ α) : Prop :=
  ∀ s : Session σ, s.Unasked (w.run s).2

theorem unasking_pure (a : α) : Unasking (pure a : Work σ α) :=
  fun s => .refl s

theorem Unasking.bind {w : Work σ α} {next : α → Work σ β} (hw : Unasking w)
    (hn : ∀ a, Unasking (next a)) : Unasking (w >>= next) :=
  Keeps.bind Session.frame_unasked hw hn

theorem unasking_enter (id : String) (before after : Stage) :
    Unasking (enter id before after : Work σ Unit) :=
  fun s => s.unasked_log _

theorem ok_prod_eq_iff {s u : Session σ} {a b : α} :
    ((.ok a, s) : Except Halt α × Session σ) = (.ok b, u) ↔ a = b ∧ s = u := by
  simp

/-- Work comes to its end if its first part does, and then the rest after it. -/
theorem run_bind_eq_ok {w : Work σ α} {next : α → Work σ β} {s u : Session σ} {b : β} :
    (w >>= next).run s = (.ok b, u) ↔
      ∃ a t, w.run s = (.ok a, t) ∧ (next a).run t = (.ok b, u) := by
  rw [run_bind]
  rcases w.run s with ⟨result, t⟩
  constructor
  · intro h
    cases result with
    | error halt => cases h
    | ok a => exact ⟨a, t, rfl, h⟩
  · rintro ⟨a, t, hw, hn⟩
    obtain ⟨rfl, rfl⟩ := Prod.mk.inj hw
    exact hn

theorem run_pure_eq_ok {s u : Session σ} {a b : α} :
    (pure a : Work σ α).run s = (.ok b, u) ↔ a = b ∧ s = u :=
  ok_prod_eq_iff

theorem run_settle_eq_ok {stage : Stage} {result : Except Failure α} {s u : Session σ} {a : α} :
    (settle stage result : Work σ α).run s = (.ok a, u) ↔ result = .ok a ∧ s = u := by
  rw [run_settle]
  cases result with
  | error failure =>
    constructor
    · intro h
      cases h
    · rintro ⟨h, -⟩
      cases h
  | ok b => exact ok_prod_eq_iff.trans (by rw [Except.ok.injEq])

theorem run_perform_eq_ok {stage : Stage} {act : Session σ → Except Failure α × Session σ}
    {s u : Session σ} {a : α} : (perform stage act).run s = (.ok a, u) ↔ act s = (.ok a, u) := by
  rw [run_perform]
  rcases act s with ⟨result, t⟩
  cases result with
  | error failure =>
    constructor
    · intro h
      cases h
    · intro h
      cases h
  | ok b => exact ok_prod_eq_iff.trans (by rw [Prod.mk.injEq, Except.ok.injEq])

theorem run_change_eq_ok {act : Session σ → Session σ} {s u : Session σ} {a : Unit} :
    (change act).run s = (.ok a, u) ↔ act s = u := by
  constructor
  · intro h
    exact (Prod.mk.inj h).2
  · rintro rfl
    rfl

end Work

namespace Plugin

open Work

variable {σ : Type}

theorem unasking_report (p : Plugin) (id : String) (warnings : List Diagnostic) :
    Unasking (p.report id warnings : Work σ Unit) :=
  Session.frame_unasked.report p id warnings

theorem unasking_emit (p : Plugin) (id : String) (output : CompileOutput) :
    Unasking (p.emit id output : Work σ String) := by
  unfold emit
  split
  · exact unasking_pure _
  · apply Unasking.bind
    · exact fun s => Session.unasked_of_journal_eq rfl
    · intro _
      exact unasking_pure _

/-- What the compiler is asked for besides a source. -/
def compileOptions (p : Plugin) (id : String) : CompileOptions :=
  .ofUser id p.options.compilerOptions p.options.emitCss

theorem run_compile (p : Plugin) (path : Path) (id source : String) (s : Session σ) :
    (p.compile path id source).run s =
      (((p.compiler source (p.compileOptions id)).mapError (.notCompiled path)).mapError
        (Halt.mk .compiling), s.tell (.compileAsked source (p.compileOptions id))) :=
  rfl

variable [FileSystem σ]

theorem unasking_assemble (p : Plugin) (unit : SourceUnit) (id : String) :
    Unasking (p.assemble unit id : Work σ Preprocessed) :=
  Session.frame_unasked.assemble Session.unasked_publish
    (fun _ _ _ => Session.unasked_of_journal_eq rfl) Session.unasked_drop p unit id

/-- Where the source is assembled, the compiler is asked next, and not again. -/
theorem unasked_of_assemble {p : Plugin} {code id : String} {s u : Session σ}
    {assembled : Preprocessed} (hid : p.options.shouldTransform id = true)
    (h : (p.assemble (.ofId id code) id).run s = (.ok assembled, u)) :
    (u.tell (.compileAsked assembled.code (p.compileOptions id))).Unasked
      (p.transform code id s).2 := by
  let asked := u.tell (.compileAsked assembled.code (p.compileOptions id))
  have hcompiled : asked.Unasked ((p.run (.ofId id code) id).run s).2 := by
    rw [run, run_bind, h]
    dsimp only
    rw [run_bind, run_compile]
    split
    · next output t ht =>
      obtain ⟨-, rfl⟩ := Prod.mk.inj ht
      refine Unasking.bind (unasking_report p id output.warnings) (fun _ => ?_) asked
      refine (unasking_enter _ _ _).bind fun _ => ?_
      refine (unasking_emit p id output).bind fun _ => ?_
      refine (unasking_enter _ _ _).bind fun _ => ?_
      exact unasking_pure _
    · next halt t ht =>
      obtain ⟨-, rfl⟩ := Prod.mk.inj ht
      exact .refl asked
  rw [transform, if_pos hid]
  split
  · next output t ht => rwa [ht] at hcompiled
  · next halt t ht =>
    rw [ht] at hcompiled
    exact hcompiled.trans (t.unasked_log _)

/-- A transform asks the compiler once, with the source that it has assembled by then, or not at
all. -/
theorem unasked_transform (p : Plugin) (code id : String) (s : Session σ) :
    s.Unasked (p.transform code id s).2 ∨
    ∃ assembled u, p.options.shouldTransform id = true ∧
      (p.assemble (.ofId id code) id).run s = (.ok assembled, u) ∧ s.Unasked u ∧
      (u.tell (.compileAsked assembled.code (p.compileOptions id))).Unasked
        (p.transform code id s).2 := by
  by_cases hid : p.options.shouldTransform id = true
  · have hassemble := unasking_assemble p (.ofId id code) id s
    rcases hrun : (p.assemble (.ofId id code) id).run s with ⟨result, u⟩
    rw [hrun] at hassemble
    cases result with
    | error halt =>
      have htransform : (p.transform code id s).2 = u.log (.transformAborted id halt.stage) := by
        rw [transform, if_pos hid, run, run_bind, hrun]
      rw [htransform]
      exact .inl (hassemble.trans (u.unasked_log _))
    | ok assembled =>
      exact .inr ⟨assembled, u, hid, rfl, hassemble, unasked_of_assemble hid hrun⟩
  · rw [transform, if_neg hid]
    exact .inl (.refl s)

end Plugin

end InlineComponents
