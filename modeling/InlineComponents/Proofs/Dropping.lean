import InlineComponents.Proofs.Writing
import InlineComponents.Proofs.Transforms

namespace InlineComponents

namespace Session

theorem content_removeFile {s : Session Memory} {key : Path} (hk : key.clean = key) (other : Path) :
    (s.removeFile key).content other = if other = key then none else s.content other := by
  have h := (frame_sameStore.removeFile s key).content other
  have hr := Memory.find?_remove s.files key other
  rw [hk] at hr
  exact h.trans hr

theorem writable_removeFile (s : Session Memory) (path : Path) :
    (s.removeFile path).files.readOnly = s.files.readOnly := by
  rw [(frame_sameStore.removeFile s path).files]
  show (s.files.remove path).2.readOnly = s.files.readOnly
  unfold Memory.remove
  split <;> rfl

/-- The artifacts are forgotten and their files deleted, and nothing else is changed in the
store. -/
structure Dropped (keys : List Path) (s t : Session Memory) : Prop where
  gone : ∀ key ∈ keys, t.artifacts.find? key = none ∧ t.content key = none
  other : ∀ key, key ∉ keys →
    t.artifacts.find? key = s.artifacts.find? key ∧ t.content key = s.content key
  children : t.children = s.children
  writable : t.files.readOnly = s.files.readOnly
  nodup : s.artifacts.keys.Nodup → t.artifacts.keys.Nodup

theorem Dropped.nil (s : Session Memory) : Dropped [] s s :=
  ⟨by simp, fun _ _ => ⟨rfl, rfl⟩, rfl, rfl, id⟩

theorem dropped_drop {s : Session Memory} {key : Path} (hk : key.clean = key) :
    Dropped [key] s (s.drop key) := by
  have hstore := frame_sameStore.removeFile { s with artifacts := s.artifacts.erase key } key
  have hcontent (other : Path) :
      (s.drop key).content other = if other = key then none else s.content other :=
    content_removeFile hk other
  have hartifacts : (s.drop key).artifacts = s.artifacts.erase key := hstore.artifacts
  refine ⟨?_, ?_, hstore.children, writable_removeFile _ key, ?_⟩
  · intro other ho
    rw [hartifacts, hcontent, List.mem_singleton.mp ho]
    exact ⟨Table.find?_erase_self _ _, if_pos rfl⟩
  · intro other ho
    have hne : other ≠ key := fun he => ho (List.mem_singleton.mpr he)
    rw [hartifacts, hcontent]
    exact ⟨Table.find?_erase_of_ne _ hne, if_neg hne⟩
  · intro hn
    rw [hartifacts]
    exact Table.nodup_keys_erase hn key

theorem dropped_foldl {keys : List Path} (hk : ∀ key ∈ keys, key.clean = key)
    (s : Session Memory) : Dropped keys s (keys.foldl drop s) := by
  induction keys generalizing s with
  | nil => exact .nil s
  | cons key keys ih =>
    have hfirst : Dropped [key] s (s.drop key) := dropped_drop (hk key List.mem_cons_self)
    have hrest := ih (fun other ho => hk other (List.mem_cons_of_mem key ho)) (s.drop key)
    refine ⟨?_, ?_, hrest.children.trans hfirst.children, hrest.writable.trans hfirst.writable,
      fun hn => hrest.nodup (hfirst.nodup hn)⟩
    · intro other ho
      by_cases hm : other ∈ keys
      · exact hrest.gone other hm
      · obtain ⟨ha, hf⟩ := hrest.other other hm
        rw [List.foldl_cons, ha, hf]
        obtain rfl := (List.mem_cons.mp ho).resolve_right hm
        exact hfirst.gone other List.mem_cons_self
    · intro other ho
      obtain ⟨hne, hm⟩ := not_or.mp (fun h => ho (List.mem_cons.mpr h))
      obtain ⟨ha, hf⟩ := hrest.other other hm
      rw [List.foldl_cons, ha, hf]
      exact hfirst.other other fun h => hne (List.mem_singleton.mp h)

/-- What the store is after the components of an extraction have been taken up: those are there and
written, those that the parent had before are gone, and the others are as they were. -/
structure TookUp (parent : Path) (cs : List SubComponent) (s t : Session Memory) : Prop where
  written : ∀ c ∈ cs, t.artifacts.find? c.path.clean = some ⟨c, true⟩ ∧
    t.content c.path.clean = some c.body.toUTF8
  gone : ∀ key ∈ (s.children.find? parent).getD [], (∀ c ∈ cs, c.path.clean ≠ key) →
    t.artifacts.find? key = none ∧ t.content key = none
  other : ∀ key, key ∉ (s.children.find? parent).getD [] → (∀ c ∈ cs, c.path.clean ≠ key) →
    t.artifacts.find? key = s.artifacts.find? key ∧ t.content key = s.content key
  children : ∀ other, (t.children.find? other).getD [] =
    if other = parent then cs.map fun c => c.path.clean else (s.children.find? other).getD []
  writable : t.files.readOnly = false
  nodup : s.artifacts.keys.Nodup → t.artifacts.keys.Nodup

/-- Where a path stands after an extraction has been taken up. -/
theorem TookUp.at_path {parent : Path} {cs : List SubComponent} {s t : Session Memory}
    (h : TookUp parent cs s t) (key : Path) :
    (∃ c ∈ cs, c.path.clean = key ∧ t.artifacts.find? key = some ⟨c, true⟩ ∧
      t.content key = some c.body.toUTF8) ∨
    (∀ c ∈ cs, c.path.clean ≠ key) ∧
      (key ∈ (s.children.find? parent).getD [] ∧ t.artifacts.find? key = none ∧
        t.content key = none ∨
      key ∉ (s.children.find? parent).getD [] ∧
        t.artifacts.find? key = s.artifacts.find? key ∧ t.content key = s.content key) := by
  by_cases hc : ∃ c ∈ cs, c.path.clean = key
  · obtain ⟨c, hc, rfl⟩ := hc
    exact .inl ⟨c, hc, rfl, h.written c hc⟩
  · have hne : ∀ c ∈ cs, c.path.clean ≠ key := fun c hm he => hc ⟨c, hm, he⟩
    by_cases hp : key ∈ (s.children.find? parent).getD []
    · exact .inr ⟨hne, .inl ⟨hp, h.gone key hp hne⟩⟩
    · exact .inr ⟨hne, .inr ⟨hp, h.other key hp hne⟩⟩

theorem TookUp.sameStore {parent : Path} {cs : List SubComponent} {s t s' t' : Session Memory}
    (h : TookUp parent cs s t) (hs : SameStore s' s) (ht : SameStore t t') :
    TookUp parent cs s' t' := by
  have hcontent (key : Path) : t'.content key = t.content key := ht.content key
  have hbefore (key : Path) : s.content key = s'.content key := hs.content key
  refine ⟨?_, ?_, ?_, ?_, ?_, ?_⟩
  · intro c hc
    rw [ht.artifacts, hcontent]
    exact h.written c hc
  · intro key hm hne
    rw [ht.artifacts, hcontent]
    rw [← hs.children] at hm
    exact h.gone key hm hne
  · intro key hm hne
    rw [ht.artifacts, hcontent, ← hs.artifacts, ← hbefore]
    rw [← hs.children] at hm
    exact h.other key hm hne
  · intro other
    rw [ht.children, ← hs.children]
    exact h.children other
  · rw [ht.files]
    exact h.writable
  · intro hn
    rw [ht.artifacts]
    rw [← hs.artifacts] at hn
    exact h.nodup hn

theorem dropped_retain {s : Session Memory} {parent : Path} {cs : List SubComponent}
    (hk : ∀ key ∈ (s.children.find? parent.clean).getD [], key.clean = key) :
    let keep := cs.map fun c => c.path.clean
    let stale := ((s.children.find? parent.clean).getD []).filter (· ∉ keep)
    ∃ t, Dropped stale (s.setChildren parent.clean keep) t ∧ SameStore t (s.retain parent cs).2 := by
  intro keep stale
  refine ⟨_, ?_, frame_sameStore.retain s parent cs⟩
  apply dropped_foldl
  intro key hs
  exact hk key (List.mem_filter.mp hs).1

theorem tookUp_takeUp {s : Session Memory} {parent : Path} {cs : List SubComponent}
    (hw : s.files.readOnly = false) (hn : (cs.map fun c => c.path.clean).Nodup)
    (hk : ∀ key ∈ (s.children.find? parent.clean).getD [], key.clean = key) :
    TookUp parent.clean cs s (s.takeUp parent cs) := by
  obtain ⟨hok, hwrote⟩ := wrote_publishAll hw hn
  unfold takeUp
  rcases hp : s.publishAll cs with ⟨result, t⟩
  rw [hp] at hok hwrote
  cases result with
  | error failure => cases hok
  | ok u =>
    rw [← hwrote.children] at hk
    obtain ⟨u, hdropped, hsame⟩ := @dropped_retain t parent cs hk
    rw [hwrote.children] at hdropped
    -- a path is stale if the parent had it before and no component has it now
    have hstale (key : Path) : key ∈ ((s.children.find? parent.clean).getD []).filter
        (· ∉ cs.map fun c => c.path.clean) ↔
          key ∈ (s.children.find? parent.clean).getD [] ∧ ∀ c ∈ cs, c.path.clean ≠ key := by
      simp
    refine ⟨?_, ?_, ?_, ?_, ?_, ?_⟩
    · intro c hc
      obtain ⟨ha, hf⟩ := hdropped.other c.path.clean fun h => ((hstale _).mp h).2 c hc rfl
      rw [hsame.artifacts, hsame.content, ha, hf]
      exact hwrote.written c hc
    · intro key hm hne
      rw [hsame.artifacts, hsame.content]
      exact hdropped.gone key ((hstale key).mpr ⟨hm, hne⟩)
    · intro key hm hne
      obtain ⟨ha, hf⟩ := hdropped.other key fun h => hm ((hstale key).mp h).1
      rw [hsame.artifacts, hsame.content, ha, hf]
      exact hwrote.other key hne
    · intro other
      rw [hsame.children, hdropped.children, find?_setChildren, hwrote.children]
    · rw [hsame.files, hdropped.writable]
      exact hwrote.writable.trans hw
    · intro hs
      rw [hsame.artifacts]
      exact hdropped.nodup (hwrote.nodup hs)

/-- A release takes the file of a published artifact away, and the artifact stays known. -/
structure Released (key : Path) (s t : Session Memory) : Prop where
  artifacts : ∀ other, t.artifacts.find? other =
    if other = key then (s.artifacts.find? key).map fun a => { a with published := false }
    else s.artifacts.find? other
  content : ∀ other, t.content other =
    if other = key ∧ (s.artifacts.find? key).any Artifact.published = true then none
    else s.content other
  children : t.children = s.children
  writable : t.files.readOnly = s.files.readOnly
  nodup : s.artifacts.keys.Nodup → t.artifacts.keys.Nodup

theorem released_release (s : Session Memory) (path : Path) :
    Released path.clean s (s.release path).2 := by
  unfold release
  by_cases hp : s.isPublished path = true
  · rw [if_pos hp]
    have hpub : (s.artifacts.find? path.clean).any Artifact.published = true := hp
    have hsame := frame_sameStore.removeFile (s.setPublished path.clean false) path.clean
    have hartifacts : ((s.setPublished path.clean false).removeFile path.clean).artifacts =
        (s.setPublished path.clean false).artifacts := hsame.artifacts
    refine ⟨?_, ?_, ?_, ?_, ?_⟩
    · intro other
      rw [hartifacts]
      exact find?_setPublished ..
    · intro other
      rw [content_removeFile (Path.clean_clean path), hpub, setPublished_eq]
      simp only [and_true]
      rfl
    · rw [hsame.children, setPublished_eq]
    · rw [writable_removeFile, setPublished_eq]
    · intro hn
      rw [hartifacts]
      exact nodup_setPublished hn _ _
  · rw [if_neg hp]
    have hpub : ¬ (s.artifacts.find? path.clean).any Artifact.published = true := hp
    refine ⟨?_, ?_, rfl, rfl, id⟩
    · intro other
      split
      · next ho =>
        rw [ho]
        cases ha : s.artifacts.find? path.clean with
        | none => rfl
        | some a =>
          rw [ha] at hpub
          cases a
          simp_all
      · rfl
    · intro other
      rw [if_neg fun h => hpub h.2]

end Session

end InlineComponents
