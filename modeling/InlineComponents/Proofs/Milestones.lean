import InlineComponents.Proofs.CompilerCalls
import Mathlib.Data.List.Basic

namespace InlineComponents

/-- Events of a transform itself; the others are about artifacts, imports and options. -/
def Event.isMilestone : Event → Bool
  | .stageEntered .. | .transformAborted .. | .diagnosticShown _ | .frameShown .. => true
  | _ => false

/-- What tells how a transform gets on: its stages, that it asks the compiler, and the diagnostics
it reports. -/
def Notice.isMilestone : Notice → Bool
  | .logged event => event.isMilestone
  | .compileAsked .. | .warningHandled _ => true

/-- The notices by which a diagnostic is reported. -/
def Report.notices : Report → List Notice
  | .handled d => [.warningHandled d]
  | .shown d => (Event.ofDiagnostic d).map .logged

/-- A name that is given again is all that an extraction tells. -/
theorem isMilestone_of_mem_extract {source : String} {file : Path} {policy : DuplicatePolicy}
    {event : Event} (h : event ∈ (extract source file policy).1) : event.isMilestone = false := by
  unfold extract at h
  split at h
  · cases h
  · unfold Outline.extract at h
    split at h
    · cases h
    · obtain ⟨name, -, rfl⟩ := List.mem_map.mp h
      rfl

namespace Session

variable {σ : Type} {s t u : Session σ} {told told' : List Notice}

/-- Notices are given from one session to the other, and these are the milestones among them, in
order. -/
def Tells (s t : Session σ) (told : List Notice) : Prop :=
  ∃ news : List Notice, t.journal = news.reverse ++ s.journal ∧
    news.filter Notice.isMilestone = told

theorem tells_of_journal_eq (h : t.journal = s.journal) : Tells s t [] :=
  ⟨[], h, rfl⟩

theorem Tells.refl (s : Session σ) : Tells s s [] :=
  tells_of_journal_eq rfl

theorem Tells.trans (h : Tells s t told) (h' : Tells t u told') : Tells s u (told ++ told') := by
  obtain ⟨news, ht, rfl⟩ := h
  obtain ⟨news', hu, rfl⟩ := h'
  refine ⟨news ++ news', ?_, List.filter_append news news'⟩
  rw [hu, ht, List.reverse_append, List.append_assoc]

theorem tells_tell {notice : Notice} (h : notice.isMilestone = true) (s : Session σ) :
    Tells s (s.tell notice) [notice] :=
  ⟨[notice], rfl, List.filter_cons_of_pos h⟩

theorem tells_log_of_not {event : Event} (h : event.isMilestone = false) (s : Session σ) :
    Tells s (s.log event) [] :=
  ⟨[.logged event], rfl, List.filter_cons_of_neg (by simp [Notice.isMilestone, h])⟩

theorem tells_foldl {α : Type} {act : Session σ → α → Session σ} {told : α → List Notice}
    (hact : ∀ s a, Tells s (act s a) (told a)) (as : List α) (s : Session σ) :
    Tells s (as.foldl act s) (as.flatMap told) := by
  induction as generalizing s with
  | nil => exact .refl s
  | cons a as ih => exact (hact s a).trans (ih (act s a))

theorem tells_logAll_of_not {events : List Event}
    (h : ∀ event ∈ events, event.isMilestone = false) (s : Session σ) :
    Tells s (s.logAll events) [] := by
  induction events generalizing s with
  | nil => exact .refl s
  | cons event events ih =>
    have hrest := ih (fun e he => h e (List.mem_cons_of_mem event he)) (s.log event)
    exact (tells_log_of_not (h event List.mem_cons_self) s).trans hrest

theorem tells_tellReport (s : Session σ) (report : Report) :
    Tells s (s.tellReport report) report.notices := by
  cases report with
  | handled d => exact tells_tell rfl s
  | shown d =>
    have hshown : Tells s (s.log (.diagnosticShown d)) [.logged (.diagnosticShown d)] :=
      tells_tell rfl s
    cases hframe : d.frame with
    | none =>
      rw [tellReport, Report.notices, Event.ofDiagnostic, hframe]
      exact hshown
    | some frame =>
      rw [tellReport, Report.notices, Event.ofDiagnostic, hframe]
      exact hshown.trans (tells_tell rfl _)

theorem tells_forEach {act : Session σ → SubComponent → Except Failure Unit × Session σ}
    (hact : ∀ s c, Tells s (act s c).2 []) (s : Session σ) (cs : List SubComponent) :
    Tells s (s.forEach act cs).2 [] :=
  forEach_induction (P := fun t => Tells s t []) (fun t ht c _ => ht.trans (hact t c)) (.refl s)

variable [FileSystem σ]

/-- What is done to the store is no milestone. -/
theorem tells_publish (s : Session σ) (c : SubComponent) : Tells s (s.publish c).2 [] := by
  have hm : Tells s ((s.register c).materialize c).2 [] := by
    rw [materialize_snd]
    exact tells_of_journal_eq rfl
  unfold publish
  split
  · next failure t ht => rwa [ht] at hm
  · next t ht =>
    rw [ht] at hm
    exact hm.trans (tells_log_of_not rfl t)

theorem tells_removeFile (s : Session σ) (path : Path) : Tells s (s.removeFile path) [] := by
  unfold removeFile
  split
  · exact tells_log_of_not rfl { s with files := _ }
  · split
    · exact tells_of_journal_eq rfl
    · exact tells_log_of_not rfl { s with files := _ }

theorem tells_drop (s : Session σ) (key : Path) : Tells s (s.drop key) [] :=
  tells_removeFile { s with artifacts := s.artifacts.erase key } key

theorem tells_retain (s : Session σ) (parent : Path) (cs : List SubComponent) :
    Tells s (s.retain parent cs).2 [] := by
  have hdropped (keys : List Path) (t : Session σ) : Tells t (keys.foldl drop t) [] :=
    List.foldlRecOn (motive := fun u => Tells t u []) keys drop (.refl t)
      fun u hu key _ => hu.trans (tells_drop u key)
  have hset : Tells s (s.setChildren parent.clean (cs.map fun c => c.path.clean)) [] :=
    tells_of_journal_eq rfl
  unfold retain
  dsimp only
  split
  · exact hset.trans (hdropped _ _)
  · exact (hset.trans (hdropped _ _)).trans (tells_log_of_not rfl _)

end Session

end InlineComponents
