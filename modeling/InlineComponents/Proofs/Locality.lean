import InlineComponents.Proofs.Dropping
import Mathlib.Data.Set.Basic

namespace InlineComponents

/-- Where the work of a transform can leave a trace: at the cleaned path of an artifact and its
file, in the list of a parent's children, or at the id of a stylesheet. -/
inductive Spot where
  | place (key : Path)
  | parent (path : Path)
  | stylesheet (id : String)

namespace Session

/-- Two sessions have the same at a spot. -/
def SameAt (s t : Session Memory) : Spot → Prop
  | .place key => s.artifacts.find? key = t.artifacts.find? key ∧ s.content key = t.content key
  | .parent path => s.children.find? path = t.children.find? path
  | .stylesheet id => s.asset? id = t.asset? id

/-- Two sessions have the same at all these spots, and both allow writing or neither does. -/
structure AgreeOn (spots : Set Spot) (s t : Session Memory) : Prop where
  writable : s.files.readOnly = t.files.readOnly
  same : ∀ spot ∈ spots, SameAt s t spot

/-- The children of the parents among the spots are at spots too, under clean paths. -/
def Owned (spots : Set Spot) (s : Session Memory) : Prop :=
  ∀ parent, .parent parent ∈ spots →
    ∀ key ∈ (s.children.find? parent).getD [], .place key ∈ spots ∧ key.clean = key

variable {spots : Set Spot} {s t u : Session Memory}

theorem SameAt.refl (s : Session Memory) (spot : Spot) : SameAt s s spot := by
  cases spot with
  | place key => exact ⟨rfl, rfl⟩
  | parent path => exact rfl
  | stylesheet id => exact rfl

theorem SameAt.symm {spot : Spot} (h : SameAt s t spot) : SameAt t s spot := by
  cases spot with
  | place key => exact ⟨h.1.symm, h.2.symm⟩
  | parent path => exact Eq.symm h
  | stylesheet id => exact Eq.symm h

theorem SameAt.trans {spot : Spot} (h : SameAt s t spot) (h' : SameAt t u spot) :
    SameAt s u spot := by
  cases spot with
  | place key => exact ⟨h.1.trans h'.1, h.2.trans h'.2⟩
  | parent path => exact Eq.trans h h'
  | stylesheet id => exact Eq.trans h h'

theorem AgreeOn.refl (spots : Set Spot) (s : Session Memory) : AgreeOn spots s s :=
  ⟨rfl, fun spot _ => .refl s spot⟩

theorem AgreeOn.symm (h : AgreeOn spots s t) : AgreeOn spots t s :=
  ⟨h.writable.symm, fun spot hs => (h.same spot hs).symm⟩

theorem AgreeOn.trans (h : AgreeOn spots s t) (h' : AgreeOn spots t u) : AgreeOn spots s u :=
  ⟨h.writable.trans h'.writable, fun spot hs => (h.same spot hs).trans (h'.same spot hs)⟩

theorem AgreeOn.mono {spots' : Set Spot} (h : AgreeOn spots s t) (hs : spots' ⊆ spots) :
    AgreeOn spots' s t :=
  ⟨h.writable, fun spot hm => h.same spot (hs hm)⟩

/-- Owned children are those of another session with the same children. -/
theorem Owned.congr (h : Owned spots s)
    (hc : ∀ parent, .parent parent ∈ spots → t.children.find? parent = s.children.find? parent) :
    Owned spots t := by
  intro parent hp key hk
  rw [hc parent hp] at hk
  exact h parent hp key hk

end Session

open Session

/-- Work that changes nothing but at the spots, and to which nothing matters but what is there. -/
structure Local {ρ : Type} (spots : Set Spot) (act : Session Memory → ρ × Session Memory) :
    Prop where
  result : ∀ {s t}, Owned spots s → AgreeOn spots s t → (act s).1 = (act t).1
  agree : ∀ {s t}, Owned spots s → AgreeOn spots s t → AgreeOn spots (act s).2 (act t).2
  owned : ∀ {s}, Owned spots s → Owned spots (act s).2
  frame : ∀ {s}, Owned spots s → AgreeOn spotsᶜ s (act s).2

namespace Local

variable {ρ τ : Type} {spots : Set Spot}

theorem congr {act act' : Session Memory → ρ × Session Memory} (h : Local spots act')
    (he : ∀ s, act s = act' s) : Local spots act :=
  funext he ▸ h

theorem andThen {act : Session Memory → ρ × Session Memory} (h : Local spots act)
    (next : ρ → Session Memory → τ × Session Memory)
    (hn : ∀ x, (∃ s, (act s).1 = x) → Local spots (next x)) :
    Local spots fun s => next (act s).1 (act s).2 where
  result {s t} ho ha := by
    rw [← h.result ho ha]
    exact (hn _ ⟨s, rfl⟩).result (h.owned ho) (h.agree ho ha)
  agree {s t} ho ha := by
    rw [← h.result ho ha]
    exact (hn _ ⟨s, rfl⟩).agree (h.owned ho) (h.agree ho ha)
  owned {s} ho := (hn _ ⟨s, rfl⟩).owned (h.owned ho)
  frame {s} ho := (h.frame ho).trans ((hn _ ⟨s, rfl⟩).frame (h.owned ho))

/-- A change that leaves everything at all spots as it is. -/
theorem ofSame {x : ρ} {f : Session Memory → Session Memory}
    (hf : ∀ s, AgreeOn Set.univ s (f s)) : Local spots fun s => (x, f s) where
  result _ _ := rfl
  agree {s t} _ ha := by
    have hs := (hf s).mono (Set.subset_univ spots)
    have ht := (hf t).mono (Set.subset_univ spots)
    exact hs.symm.trans (ha.trans ht)
  owned {s} ho := ho.congr fun parent _ => Eq.symm ((hf s).same (.parent parent) trivial)
  frame {s} _ := (hf s).mono (Set.subset_univ _)

theorem pure (x : ρ) : Local spots fun s => (x, s) :=
  ofSame fun s => .refl _ s

/-- Work that goes on where the work before it has not failed. -/
theorem thenOk {ε α β : Type} {act : Session Memory → Except ε α × Session Memory}
    (h : Local spots act) (next : α → Session Memory → Except ε β × Session Memory)
    (hn : ∀ a, (∃ s, (act s).1 = .ok a) → Local spots (next a)) :
    Local spots fun s =>
      match act s with
      | (.ok a, t) => next a t
      | (.error e, t) => (.error e, t) := by
  let both (result : Except ε α) (t : Session Memory) : Except ε β × Session Memory :=
    match result with
    | .ok a => next a t
    | .error e => (.error e, t)
  have hboth := h.andThen both fun x hx => by
    cases x with
    | ok a => exact hn a hx
    | error e => exact pure _
  refine hboth.congr fun s => ?_
  rcases act s with ⟨result, t⟩
  cases result <;> rfl

/-- Which of two works is done may hang on whether writing is allowed. -/
theorem ofReadOnly {act act' : Session Memory → ρ × Session Memory} (h : Local spots act)
    (h' : Local spots act') :
    Local spots fun s => if s.files.readOnly = true then act s else act' s where
  result {s t} ho ha := by
    rw [← ha.writable]
    split
    · exact h.result ho ha
    · exact h'.result ho ha
  agree {s t} ho ha := by
    rw [← ha.writable]
    split
    · exact h.agree ho ha
    · exact h'.agree ho ha
  owned {s} ho := by
    split
    · exact h.owned ho
    · exact h'.owned ho
  frame {s} ho := by
    split
    · exact h.frame ho
    · exact h'.frame ho

/-- Work may look at the children of a parent among the spots. -/
theorem ofChildren {parent : Path} (hp : .parent parent ∈ spots)
    {act : List Path → Session Memory → ρ × Session Memory}
    (h : ∀ paths, (∀ key ∈ paths, .place key ∈ spots ∧ key.clean = key) →
      Local spots (act paths)) :
    Local spots fun s => act ((s.children.find? parent).getD []) s where
  result {s t} ho ha := by
    have hc : s.children.find? parent = t.children.find? parent := ha.same _ hp
    rw [← hc]
    exact (h _ (ho parent hp)).result ho ha
  agree {s t} ho ha := by
    have hc : s.children.find? parent = t.children.find? parent := ha.same _ hp
    rw [← hc]
    exact (h _ (ho parent hp)).agree ho ha
  owned {s} ho := (h _ (ho parent hp)).owned ho
  frame {s} ho := (h _ (ho parent hp)).frame ho

/-- A change at one spot, by what was there. -/
theorem atSpot {spot : Spot} (hspot : spot ∈ spots) (x : ρ) (f : Session Memory → Session Memory)
    (hthere : ∀ {s t}, SameAt s t spot → SameAt (f s) (f t) spot)
    (helsewhere : ∀ s other, other ≠ spot → SameAt s (f s) other)
    (hwritable : ∀ s, (f s).files.readOnly = s.files.readOnly)
    (howned : ∀ {s}, Owned spots s → Owned spots (f s)) : Local spots fun s => (x, f s) where
  result _ _ := rfl
  agree {s t} _ h := by
    refine ⟨by rw [hwritable, hwritable, h.writable], fun other hother => ?_⟩
    by_cases he : other = spot
    · rw [he]
      exact hthere (h.same spot hspot)
    · have hs := helsewhere s other he
      have ht := helsewhere t other he
      exact hs.symm.trans ((h.same other hother).trans ht)
  owned := howned
  frame {s} _ := by
    refine ⟨(hwritable s).symm, fun other hother => helsewhere s other ?_⟩
    rintro rfl
    exact hother hspot

/-- Only the artifact and the file at one place are changed, each by what was there. -/
theorem atPlace {key : Path} (hk : .place key ∈ spots) (x : ρ)
    (f : Session Memory → Session Memory) (artifact : Option Artifact → Option Artifact)
    (body : Option ByteArray → Option ByteArray)
    (ha : ∀ s other, (f s).artifacts.find? other =
      if other = key then artifact (s.artifacts.find? key) else s.artifacts.find? other)
    (hb : ∀ s other, (f s).content other =
      if other = key then body (s.content key) else s.content other)
    (hc : ∀ s, (f s).children = s.children) (hs : ∀ s, (f s).assets = s.assets)
    (hw : ∀ s, (f s).files.readOnly = s.files.readOnly) : Local spots fun s => (x, f s) := by
  refine atSpot hk x f (fun {s t} hsame => ?_) (fun s other hne => ?_) hw
    fun ho => ho.congr fun parent _ => by rw [hc]
  · refine ⟨?_, ?_⟩
    · rw [ha, ha, if_pos rfl, if_pos rfl, hsame.1]
    · rw [hb, hb, if_pos rfl, if_pos rfl, hsame.2]
  · cases other with
    | place other =>
      have hother : other ≠ key := fun he => hne (congrArg Spot.place he)
      refine ⟨?_, ?_⟩
      · rw [ha, if_neg hother]
      · rw [hb, if_neg hother]
    | parent path => rw [SameAt, hc]
    | stylesheet id => rw [SameAt, asset?, asset?, hs]

end Local

namespace Session

variable {spots : Set Spot}

/-- What is told changes nothing at any spot. -/
theorem agreeOn_tell (s : Session Memory) (notice : Notice) : AgreeOn Set.univ s (s.tell notice) :=
  ⟨rfl, fun spot _ => SameAt.refl s spot⟩

theorem agreeOn_log (s : Session Memory) (event : Event) : AgreeOn Set.univ s (s.log event) :=
  agreeOn_tell s _

theorem frame_agreeOn : Frame (AgreeOn Set.univ) where
  refl := .refl _
  trans := .trans
  log := agreeOn_log
  handled s d := agreeOn_tell s (.warningHandled d)

section Place

variable {c : SubComponent} (hc : .place c.path.clean ∈ spots)

include hc

theorem local_register : Local spots fun s => ((), s.register c) := by
  refine Local.atPlace hc () (register · c) (fun _ => some ⟨c, false⟩) id
    (fun s other => find?_register s c other) (fun s other => ?_)
    (fun _ => rfl) (fun _ => rfl) (fun _ => rfl)
  split
  · next h => rw [h]; rfl
  · rfl

theorem local_setPublished {ρ : Type} (x : ρ) (published : Bool) :
    Local spots fun s => (x, s.setPublished c.path.clean published) := by
  refine Local.atPlace hc x (setPublished · c.path.clean published) _ id
    (fun s other => find?_setPublished s c.path.clean other published) (fun s other => ?_)
    (fun s => ?_) (fun s => ?_) (fun s => ?_)
  · rw [setPublished_eq]
    split
    · next h => rw [h]; rfl
    · rfl
  all_goals rw [setPublished_eq]

theorem local_insert (body : ByteArray) :
    Local spots fun s => ((), { s with files := s.files.insert c.path body }) := by
  refine Local.atPlace hc () (fun s => { s with files := s.files.insert c.path body }) id
    (fun _ => some body) (fun s other => ?_) (fun s other => ?_)
    (fun _ => rfl) (fun _ => rfl) (fun _ => rfl)
  · split
    · next h => rw [h]; rfl
    · rfl
  · exact Table.find?_put s.files.files c.path.clean other body

/-- Where writing is not allowed nothing is written, and elsewhere the component's file is. -/
theorem local_materialize : Local spots fun s => s.materialize c := by
  let cause : FileError := .io ("Failed to write " ++ c.path.text ++ ": read-only filesystem")
  let refused : Except Failure Unit := .error (.artifactNotWritten c.path cause)
  let done : Except Failure Unit := .ok ()
  have hrefused : Local spots fun s => (refused, s) := Local.pure refused
  have hwritten := (local_insert hc c.body.toUTF8).andThen _ fun _ _ =>
    local_setPublished hc done true
  refine (hrefused.ofReadOnly hwritten).congr fun s => ?_
  have hwrite : FileSystem.write s.files c.path c.body.toUTF8 =
      s.files.write c.path c.body.toUTF8 := rfl
  rw [materialize, hwrite, Memory.write]
  by_cases hw : s.files.readOnly = true
  · rw [if_pos hw, if_pos hw]
  · rw [if_neg hw, if_neg hw]

theorem local_publish : Local spots fun s => s.publish c := by
  have hwritten := (local_register hc).andThen _ fun _ _ => local_materialize hc
  have hlogged := hwritten.thenOk (fun _ t => (.ok (), t.log (.artifactPublished c.path)))
    fun _ _ => Local.ofSame fun t => agreeOn_log t _
  refine hlogged.congr fun s => ?_
  rw [publish]
  rcases (s.register c).materialize c with ⟨result, t⟩
  cases result <;> rfl

end Place

theorem local_forEach {act : Session Memory → SubComponent → Except Failure Unit × Session Memory}
    {cs : List SubComponent} (h : ∀ c ∈ cs, Local spots fun s => act s c) :
    Local spots fun s => s.forEach act cs := by
  induction cs with
  | nil => exact Local.pure _
  | cons c cs ih =>
    have hrest := ih fun d hd => h d (List.mem_cons_of_mem c hd)
    refine ((h c List.mem_cons_self).thenOk _ fun _ _ => hrest).congr fun s => ?_
    rw [forEach]
    rcases act s c with ⟨result, t⟩
    cases result <;> rfl

theorem assets_removeFile (s : Session Memory) (path : Path) :
    (s.removeFile path).assets = s.assets := by
  unfold removeFile
  split
  · rfl
  · split <;> rfl

theorem local_drop {key : Path} (h : .place key ∈ spots) (hk : key.clean = key) :
    Local spots fun s => ((), s.drop key) := by
  have hstore (s : Session Memory) :=
    frame_sameStore.removeFile { s with artifacts := s.artifacts.erase key } key
  have hartifacts (s : Session Memory) : (s.drop key).artifacts = s.artifacts.erase key :=
    (hstore s).artifacts
  refine Local.atPlace h () (drop · key) (fun _ => none) (fun _ => none) (fun s other => ?_)
    (fun s other => content_removeFile hk other) (fun s => (hstore s).children)
    (fun s => assets_removeFile _ key) (fun s => writable_removeFile _ key)
  rw [hartifacts]
  exact Table.find?_erase s.artifacts key other

theorem local_foldl_drop {keys : List Path}
    (h : ∀ key ∈ keys, .place key ∈ spots ∧ key.clean = key) :
    Local spots fun s => ((), keys.foldl drop s) := by
  induction keys with
  | nil => exact Local.pure ()
  | cons key keys ih =>
    have hrest := ih fun other ho => h other (List.mem_cons_of_mem key ho)
    obtain ⟨hplace, hclean⟩ := h key List.mem_cons_self
    exact (local_drop hplace hclean).andThen _ fun _ _ => hrest

theorem find?_setChildren_eq (s : Session Memory) (parent other : Path) (paths : List Path) :
    (s.setChildren parent paths).children.find? other =
      if other = parent then (if paths.isEmpty then none else some paths)
      else s.children.find? other := by
  unfold setChildren
  dsimp only
  split
  · exact Table.find?_erase ..
  · exact Table.find?_put ..

theorem local_setChildren {parent : Path} {paths : List Path} (hp : .parent parent ∈ spots)
    (h : ∀ key ∈ paths, .place key ∈ spots ∧ key.clean = key) :
    Local spots fun s => ((), s.setChildren parent paths) := by
  refine Local.atSpot hp () (setChildren · parent paths) (fun {s t} _ => ?_)
    (fun s other hne => ?_) (fun _ => rfl) fun {s} ho => ?_
  · rw [SameAt, find?_setChildren_eq, find?_setChildren_eq, if_pos rfl, if_pos rfl]
  · cases other with
    | place key => exact ⟨rfl, rfl⟩
    | parent path =>
      have hpath : path ≠ parent := fun he => hne (congrArg Spot.parent he)
      rw [SameAt, find?_setChildren_eq, if_neg hpath]
    | stylesheet id => exact rfl
  · intro other hother key hk
    rw [find?_setChildren] at hk
    split at hk
    · exact h key hk
    · exact ho other hother key hk

theorem local_addAsset {id : String} (h : .stylesheet id ∈ spots) (css : String) :
    Local spots fun s => ((), s.addAsset id css) := by
  have hasset (s : Session Memory) (other : String) :
      (s.addAsset id css).asset? other = if other = id then some css else s.asset? other :=
    Table.find?_put s.assets id other css
  refine Local.atSpot h () (addAsset · id css) (fun {s t} _ => ?_) (fun s other hne => ?_)
    (fun _ => rfl) fun ho => ho
  · rw [SameAt, hasset, hasset, if_pos rfl, if_pos rfl]
  · cases other with
    | place key => exact ⟨rfl, rfl⟩
    | parent path => exact rfl
    | stylesheet other =>
      have hother : other ≠ id := fun he => hne (congrArg Spot.stylesheet he)
      rw [SameAt, hasset, if_neg hother]

/-- What is dropped when an extraction is taken up lies at the spots of the parent. -/
theorem local_retain {parent : Path} {cs : List SubComponent} (hp : .parent parent.clean ∈ spots)
    (h : ∀ c ∈ cs, .place c.path.clean ∈ spots) :
    Local spots fun s => ((), (s.retain parent cs).2) := by
  let keep := cs.map fun c => c.path.clean
  have hkeep : ∀ key ∈ keep, .place key ∈ spots ∧ key.clean = key := by
    intro key hk
    obtain ⟨c, hc, rfl⟩ := List.mem_map.mp hk
    exact ⟨h c hc, Path.clean_clean _⟩
  have hdropped (stale : List Path) (hs : ∀ key ∈ stale, .place key ∈ spots ∧ key.clean = key) :
      Local spots fun s =>
        let dropped := stale.foldl drop (s.setChildren parent.clean keep)
        ((), if stale.isEmpty then dropped
          else dropped.log (.staleArtifactsDropped parent.clean stale.length)) := by
    have hall := (local_setChildren hp hkeep).andThen _ fun _ _ => local_foldl_drop hs
    refine hall.andThen (fun _ t => ((), if stale.isEmpty then t else
      t.log (.staleArtifactsDropped parent.clean stale.length))) fun _ _ => Local.ofSame fun t => ?_
    split
    · exact .refl _ t
    · exact agreeOn_log t _
  exact Local.ofChildren hp fun previous hprevious =>
    hdropped (previous.filter (· ∉ keep)) fun key hk => hprevious key (List.mem_filter.mp hk).1

end Session

end InlineComponents
