import InlineComponents.Proofs.Artifacts

namespace InlineComponents

namespace Session

/-- The components are published and written, and nothing else is changed in the store. -/
structure Wrote (cs : List SubComponent) (s t : Session Memory) : Prop where
  written : ∀ c ∈ cs, t.artifacts.find? c.path.clean = some ⟨c, true⟩ ∧
    t.content c.path.clean = some c.body.toUTF8
  other : ∀ key, (∀ c ∈ cs, c.path.clean ≠ key) →
    t.artifacts.find? key = s.artifacts.find? key ∧ t.content key = s.content key
  children : t.children = s.children
  writable : t.files.readOnly = s.files.readOnly
  nodup : s.artifacts.keys.Nodup → t.artifacts.keys.Nodup

theorem Wrote.nil (s : Session Memory) : Wrote [] s s :=
  ⟨by simp, fun _ _ => ⟨rfl, rfl⟩, rfl, rfl, id⟩

theorem Wrote.cons {c : SubComponent} {cs : List SubComponent} {s t u : Session Memory}
    (h : Wrote [c] s t) (h' : Wrote cs t u) (hc : ∀ d ∈ cs, d.path.clean ≠ c.path.clean) :
    Wrote (c :: cs) s u where
  written := by
    intro d hd
    rcases List.mem_cons.mp hd with rfl | hd
    · obtain ⟨ha, hf⟩ := h'.other d.path.clean hc
      rw [ha, hf]
      exact h.written d List.mem_cons_self
    · exact h'.written d hd
  other := by
    intro key hk
    obtain ⟨ha, hf⟩ := h'.other key fun d hd => hk d (List.mem_cons_of_mem c hd)
    rw [ha, hf]
    exact h.other key fun d hd => hk d (by simp [List.mem_singleton.mp hd])
  children := h'.children.trans h.children
  writable := h'.writable.trans h.writable
  nodup hn := h'.nodup (h.nodup hn)

theorem Wrote.sameStore {cs : List SubComponent} {s t u : Session Memory} (h : Wrote cs s t)
    (ht : SameStore t u) : Wrote cs s u where
  written c hc := by
    rw [ht.artifacts, ht.content]
    exact h.written c hc
  other key hk := by
    rw [ht.artifacts, ht.content]
    exact h.other key hk
  children := ht.children.trans h.children
  writable := by rw [ht.files, h.writable]
  nodup hn := by
    rw [ht.artifacts]
    exact h.nodup hn

/-- Where writing is allowed, a component that is registered is written. -/
theorem wrote_materialize {s : Session Memory} {c : SubComponent}
    (hw : s.files.readOnly = false)
    (hc : (s.artifacts.find? c.path.clean).map Artifact.component = some c) :
    (s.materialize c).1 = .ok () ∧ Wrote [c] s (s.materialize c).2 := by
  obtain ⟨a, ha, rfl⟩ := Option.map_eq_some_iff.mp hc
  let c := a.component
  let written : Session Memory := { s with files := s.files.insert c.path c.body.toUTF8 }
  have hm : s.materialize c = (.ok (), written.setPublished c.path.clean true) := by
    have hwrite : FileSystem.write s.files c.path c.body.toUTF8 =
        (.ok (), s.files.insert c.path c.body.toUTF8) := by
      show s.files.write c.path c.body.toUTF8 = _
      rw [Memory.write, hw]
      rfl
    rw [materialize, hwrite]
  have hcontent (key : Path) : (written.setPublished c.path.clean true).content key =
      if key = c.path.clean then some c.body.toUTF8 else s.content key := by
    rw [setPublished_eq]
    exact Table.find?_put ..
  rw [hm]
  refine ⟨rfl, ⟨?_, ?_, ?_, ?_, ?_⟩⟩
  · intro d hd
    obtain rfl := List.mem_singleton.mp hd
    refine ⟨?_, (hcontent _).trans (if_pos rfl)⟩
    rw [find?_setPublished, if_pos rfl]
    exact congrArg (Option.map _) ha
  · intro key hk
    have hne : key ≠ c.path.clean := Ne.symm (hk c List.mem_cons_self)
    rw [find?_setPublished, if_neg hne]
    exact ⟨rfl, (hcontent key).trans (if_neg hne)⟩
  · rw [setPublished_eq]
  · rw [setPublished_eq]
    rfl
  · intro hn
    have hkept : written.artifacts.keys.Nodup := hn
    exact nodup_setPublished hkept _ _

theorem Wrote.of_register {c : SubComponent} {s t : Session Memory}
    (h : Wrote [c] (s.register c) t) : Wrote [c] s t where
  written := h.written
  other key hk := by
    obtain ⟨ha, hf⟩ := h.other key hk
    rw [find?_register, if_neg (Ne.symm (hk c List.mem_cons_self))] at ha
    exact ⟨ha, hf⟩
  children := h.children
  writable := h.writable
  nodup hn := h.nodup (Table.nodup_keys_put hn _ _)

theorem wrote_publish {s : Session Memory} (c : SubComponent) (hw : s.files.readOnly = false) :
    (s.publish c).1 = .ok () ∧ Wrote [c] s (s.publish c).2 := by
  have hwritable : (s.register c).files.readOnly = false := hw
  have hr : ((s.register c).artifacts.find? c.path.clean).map Artifact.component = some c := by
    rw [find?_register, if_pos rfl]
    rfl
  obtain ⟨hok, hm⟩ := wrote_materialize hwritable hr
  unfold publish
  split
  · next failure t ht =>
    rw [ht] at hok
    cases hok
  · next t ht =>
    rw [ht] at hm
    exact ⟨rfl, hm.of_register.sameStore (sameStore_log t _)⟩

/-- Components whose paths differ are written one after the other, if each can be written where it
is ready and the writing of one leaves the others ready. -/
theorem wrote_forEach {act : Session Memory → SubComponent → Except Failure Unit × Session Memory}
    {Ready : Session Memory → SubComponent → Prop}
    (hact : ∀ s c, s.files.readOnly = false → Ready s c →
      (act s c).1 = .ok () ∧ Wrote [c] s (act s c).2)
    (hready : ∀ s t c d, Wrote [c] s t → d.path.clean ≠ c.path.clean → Ready s d → Ready t d)
    {cs : List SubComponent} (hn : (cs.map fun c => c.path.clean).Nodup) {s : Session Memory}
    (hw : s.files.readOnly = false) (hcs : ∀ c ∈ cs, Ready s c) :
    (s.forEach act cs).1 = .ok () ∧ Wrote cs s (s.forEach act cs).2 := by
  induction cs generalizing s with
  | nil => exact ⟨rfl, .nil s⟩
  | cons c cs ih =>
    obtain ⟨hc, hn⟩ := List.nodup_cons.mp hn
    have hother : ∀ d ∈ cs, d.path.clean ≠ c.path.clean := fun d hd he =>
      hc (List.mem_map.mpr ⟨d, hd, he⟩)
    obtain ⟨hok, hfirst⟩ := hact s c hw (hcs c List.mem_cons_self)
    rw [forEach]
    split
    · next failure t ht =>
      rw [ht] at hok
      cases hok
    · next t ht =>
      rw [ht] at hfirst
      have hrest := ih hn (hfirst.writable.trans hw) fun d hd =>
        hready s t c d hfirst (hother d hd) (hcs d (List.mem_cons_of_mem c hd))
      exact ⟨hrest.1, hfirst.cons hrest.2 hother⟩

theorem wrote_publishAll {s : Session Memory} {cs : List SubComponent}
    (hw : s.files.readOnly = false) (hn : (cs.map fun c => c.path.clean).Nodup) :
    (s.publishAll cs).1 = .ok () ∧ Wrote cs s (s.publishAll cs).2 :=
  wrote_forEach (fun _ c hw _ => wrote_publish c hw) (fun _ _ _ _ _ _ _ => trivial) hn hw
    (fun _ _ => trivial)

/-- Every known component is written again. -/
theorem wrote_materializeAll {s : Session Memory} (hw : s.files.readOnly = false)
    (hn : s.artifacts.keys.Nodup)
    (hkeys : ∀ key a, s.artifacts.find? key = some a → a.component.path.clean = key) :
    Wrote (s.artifacts.map fun entry => entry.2.component) s s.materializeAll.2 := by
  have hpaths := paths_components hn hkeys
  obtain ⟨hok, hall⟩ := wrote_forEach (fun _ _ => wrote_materialize)
    (fun s t c d h hne hd => by
      have ha := (h.other d.path.clean fun e he => by
        rw [List.mem_singleton.mp he]
        exact Ne.symm hne).1
      rw [ha]
      exact hd)
    (hpaths ▸ hn) hw fun c hc => registers_of_mem_components hn hkeys hc
  exact hall.sameStore (frame_sameStore.materializeAll s)

end Session

end InlineComponents
