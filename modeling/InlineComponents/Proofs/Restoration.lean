import InlineComponents.Proofs.Emission
import Mathlib.Data.Set.Card

namespace InlineComponents

/-- Files on which a write that succeeds does so again, whatever else is written in between. -/
class SteadyFileSystem (σ : Type) [FileSystem σ] : Prop where
  write_again : ∀ (files : σ) (path other : Path) (body otherBody : ByteArray),
    (FileSystem.write files path body).1 = .ok () →
    (FileSystem.write (FileSystem.write files other otherBody).2 path body).1 = .ok ()

/-- Files in memory can be written as long as writing is allowed, which no write changes. -/
instance : SteadyFileSystem Memory where
  write_again m path other body otherBody h := by
    change (m.write path body).1 = .ok () at h
    change ((m.write other otherBody).2.write path body).1 = .ok ()
    have hw : m.readOnly = false := by
      by_contra hr
      rw [Bool.not_eq_false] at hr
      rw [Memory.write, if_pos hr] at h
      cases h
    have hother : (m.write other otherBody).2.readOnly = false := by
      rw [Memory.write, if_neg (by simp [hw])]
      exact hw
    rw [Memory.write, if_neg (by simp [hother])]

instance {σ : Type} [FileSystem σ] [SteadyFileSystem σ] : SteadyFileSystem (Faulty σ) where
  write_again f path other body otherBody h := by
    change (f.write path body).1 = .ok () at h
    change ((f.write other otherBody).2.write path body).1 = .ok ()
    cases hfault : f.fault? .write path with
    | some error =>
      rw [Faulty.write, hfault] at h
      cases h
    | none =>
      rw [Faulty.write, hfault] at h
      have hsame : (f.write other otherBody).2.fault? .write path = none := by
        rw [← hfault, Faulty.fault?, Faulty.fault?, Faulty.write]
        split <;> rfl
      rw [Faulty.write, hsame]
      show (FileSystem.write (f.write other otherBody).2.files path body).1 = .ok ()
      rw [Faulty.write]
      split
      · exact h
      · exact SteadyFileSystem.write_again f.files path other body otherBody h

namespace Session

variable {σ : Type} {s t u : Session σ} {c : SubComponent} {cs ds order : List SubComponent}

theorem Indexed.registers_iff (h : s.Indexed) :
    s.Registers c ↔ c ∈ s.components := by
  constructor
  · intro hc
    obtain ⟨a, ha, rfl⟩ := Option.map_eq_some_iff.mp hc
    exact List.mem_map.mpr ⟨_, Table.mem_of_find? ha, rfl⟩
  · exact registers_of_mem_components h.nodup h.placed

theorem Indexed.ncard_knows (h : s.Indexed) : {key | s.Knows key}.ncard = s.components.length := by
  have hkeys : {key | s.Knows key} = (s.artifacts.keys.toFinset : Set Path) := by
    ext key
    rw [Set.mem_ofPred_eq, List.coe_toFinset, Set.mem_ofPred_eq]
    constructor
    · intro hk
      obtain ⟨a, ha⟩ := Option.isSome_iff_exists.mp hk
      exact List.mem_map.mpr ⟨_, Table.mem_of_find? ha, rfl⟩
    · intro hk
      obtain ⟨entry, he, rfl⟩ := List.mem_map.mp hk
      exact Option.isSome_iff_exists.mpr ⟨entry.2, Table.find?_of_mem h.nodup he⟩
  rw [hkeys, Set.ncard_coe_finset, List.toFinset_card_of_nodup h.nodup, Table.keys, components,
    List.length_map, List.length_map]

variable [FileSystem σ]

theorem Indexed.takes (h : s.Indexed) {parent : Path} {extracted : Option Extraction}
    (ht : s.Takes parent extracted t) : t.Indexed := by
  cases extracted with
  | none => exact (SameStore.sameRegister ht).indexed h
  | some e =>
    obtain ⟨u, hu, ht⟩ := ht
    exact ht.sameRegister.indexed ((hu.sameRegister.indexed h).takeUp parent e.components)

theorem Reached.indexed (h : Reached s) : s.Indexed := by
  induction h with
  | start files => exact ⟨List.nodup_nil, fun key a ha => by cases ha⟩
  | step p step h ih =>
    cases step with
    | transform code id => exact ih.takes (p.takes_transform code id _)
    | moduleParsed id => exact (p.sameRegister_moduleParsed id _).indexed ih
    | buildStart => exact (sameRegister_materializeAll _).indexed ih
  | register c h ih => exact ih.register c
  | materialize c h ih => exact (sameRegister_materialize _ c).indexed ih
  | publish c h ih => exact ih.publish c
  | release path h ih => exact (sameRegister_release _ path).indexed ih
  | retain parent cs h ih => exact ih.retain parent cs
  | other h ha hc ih =>
    refine ⟨?_, ?_⟩
    · rw [ha]
      exact ih.nodup
    · rw [ha]
      exact ih.placed

/-- Components written again in some order, until a write fails, and how many they are. -/
def restore (s : Session σ) (order : List SubComponent) : Except Failure Nat × Session σ :=
  match s.forEach materialize order with
  | (.error failure, t) => (.error failure, t)
  | (.ok (), t) =>
    (.ok order.length,
      if order.isEmpty then t else t.log (.artifactsMaterialized order.length))

theorem materializeAll_eq_restore (s : Session σ) : s.materializeAll = s.restore s.components :=
  rfl

theorem sameRegister_restore (s : Session σ) (order : List SubComponent) :
    SameRegister s (s.restore order).2 := by
  have hloop : SameRegister s (s.forEach materialize order).2 :=
    forEach_induction (fun t ht c _ => ht.trans (sameRegister_materialize t c)) (.refl s)
  unfold restore
  split
  · next failure t ht => rwa [ht] at hloop
  · next t ht =>
    rw [ht] at hloop
    split
    · exact hloop
    · exact hloop.trans (t.sameStore_log _).sameRegister

/-- The write of a component's body succeeds. -/
def Writable (s : Session σ) (c : SubComponent) : Prop :=
  (FileSystem.write s.files c.path c.body.toUTF8).1 = .ok ()

theorem materialize_eq_ok_iff : (s.materialize c).1 = .ok () ↔ s.Writable c := by
  unfold materialize Writable
  split
  · next cause files hwrite =>
    rw [hwrite]
    constructor <;> (intro h; cases h)
  · next files hwrite =>
    rw [hwrite]
    exact iff_of_true rfl rfl

section Steady

variable [SteadyFileSystem σ]

theorem Writable.materialize {d : SubComponent} (h : s.Writable c) :
    (s.materialize d).2.Writable c := by
  obtain ⟨result, files, hwrite, hcases⟩ := s.materialize_cases d
  have hfiles : (s.materialize d).2.files = files := by
    rcases hcases with ⟨cause, -, hm⟩ | ⟨-, hm⟩
    · rw [hm]
    · rw [hm, setPublished_eq]
  have hagain := SteadyFileSystem.write_again s.files c.path d.path c.body.toUTF8 d.body.toUTF8 h
  rw [hwrite] at hagain
  rw [Writable, hfiles]
  exact hagain

/-- Components that could be written can be written again. -/
theorem writable_of_forEach (h : s.forEach materialize cs = (.ok (), t)) :
    ∀ c ∈ cs, t.Writable c := by
  induction cs generalizing s with
  | nil => simp
  | cons c cs ih =>
    rw [forEach] at h
    split at h
    · cases h
    · next u hu =>
      have hwritten : s.Writable c := materialize_eq_ok_iff.mp (congrArg Prod.fst hu)
      have hfirst : (u.forEach Session.materialize cs).2.Writable c := by
        refine forEach_induction (P := fun v => v.Writable c) (fun v hv d _ => hv.materialize) ?_
        have hu' := hwritten.materialize (d := c)
        rwa [hu] at hu'
      rw [h] at hfirst
      intro d hd
      rcases List.mem_cons.mp hd with rfl | hd
      · exact hfirst
      · exact ih h d hd

theorem forEach_of_writable (h : ∀ c ∈ cs, s.Writable c) :
    (s.forEach materialize cs).1 = .ok () := by
  induction cs generalizing s with
  | nil => rfl
  | cons c cs ih =>
    have hc := materialize_eq_ok_iff.mpr (h c List.mem_cons_self)
    rcases hm : s.materialize c with ⟨result, u⟩
    rw [hm] at hc
    obtain rfl : result = .ok () := hc
    rw [forEach, hm]
    refine ih fun d hd => ?_
    have hd' := (h d (List.mem_cons_of_mem c hd)).materialize (d := c)
    rwa [hm] at hd'

theorem writable_of_restore {count : Nat} (h : s.restore order = (.ok count, t)) :
    ∀ c ∈ order, t.Writable c := by
  unfold restore at h
  split at h
  · cases h
  · next u hu =>
    have hwritable := writable_of_forEach hu
    obtain ⟨-, rfl⟩ := Prod.mk.inj h
    split
    · exact hwritable
    · exact hwritable

theorem restore_of_writable (h : ∀ c ∈ order, s.Writable c) :
    (s.restore order).1 = .ok order.length := by
  have hok := forEach_of_writable h
  unfold restore
  split
  · next failure t ht =>
    rw [ht] at hok
    cases hok
  · rfl

end Steady

variable [LawfulFileSystem σ]

/-- The artifacts of some components are written again and published, and all else is as it was. -/
structure Rewrites (s t : Session σ) (cs : List SubComponent) : Prop where
  artifacts : ∀ key, t.artifacts.find? key = (s.artifacts.find? key).map fun a =>
    if a.component ∈ cs then { a with published := true } else a
  content : ∀ key, t.content key = match s.artifacts.find? key with
    | some a => if a.component ∈ cs then some a.component.body.toUTF8 else s.content key
    | none => s.content key
  children : t.children = s.children
  beside : s.SameBeside t

theorem rewrites_nil (ha : ∀ key, t.artifacts.find? key = s.artifacts.find? key)
    (hf : ∀ key, t.content key = s.content key) (hc : t.children = s.children)
    (hb : s.SameBeside t) : Rewrites s t [] := by
  refine ⟨?_, ?_, hc, hb⟩
  · intro key
    simpa using ha key
  · intro key
    rw [hf key]
    split <;> simp

theorem Rewrites.trans (h : Rewrites s t cs) (h' : Rewrites t u ds) : Rewrites s u (cs ++ ds) := by
  refine ⟨?_, ?_, h'.children.trans h.children, h.beside.trans h'.beside⟩
  · intro key
    rw [h'.artifacts, h.artifacts]
    cases s.artifacts.find? key with
    | none => rfl
    | some a => by_cases hc : a.component ∈ cs <;> by_cases hd : a.component ∈ ds <;> simp [hc, hd]
  · intro key
    rw [h'.content, h.artifacts, h.content]
    cases s.artifacts.find? key with
    | none => rfl
    | some a => by_cases hc : a.component ∈ cs <;> by_cases hd : a.component ∈ ds <;> simp [hc, hd]

theorem Rewrites.log (h : Rewrites s t cs) (event : Event) : Rewrites s (t.log event) cs :=
  ⟨h.artifacts, h.content, h.children, h.beside.assets, h.beside.hidden⟩

/-- A write that fails changes nothing. -/
theorem rewrites_of_not_written {failure : Failure} (h : s.materialize c = (.error failure, t)) :
    (∃ cause, failure = .artifactNotWritten c.path cause) ∧ s.Rewrites t [] := by
  obtain ⟨result, files, hwrite, ⟨cause, rfl, hm⟩ | ⟨-, hm⟩⟩ := s.materialize_cases c
  · rw [hm] at h
    obtain ⟨hfailure, rfl⟩ := Prod.mk.inj h
    refine ⟨⟨cause, (Except.error.inj hfailure).symm⟩, rewrites_nil (fun _ => rfl) ?_ rfl ⟨rfl, rfl⟩⟩
    intro key
    have hlaw := LawfulFileSystem.content_write s.files c.path c.body.toUTF8 key
    rw [hwrite] at hlaw
    exact hlaw
  · rw [hm] at h
    cases h

/-- A registered component whose write succeeds is written again. -/
theorem rewrites_of_written (hs : s.Indexed) (hc : s.Registers c)
    (h : s.materialize c = (.ok (), t)) : s.Rewrites t [c] := by
  have hbeside := sameBeside_materialize s c
  have hchildren := congrArg children (s.materialize_snd c)
  have hheld := holds_materialize hc h
  obtain ⟨a, ha, rfl⟩ := Option.map_eq_some_iff.mp hc
  have hother {key : Path} (hne : key ≠ a.component.path.clean) := @materialize_other _ _ _ s _ _ hne
  rw [h] at hbeside hchildren hother
  have hapart {key : Path} (hne : key ≠ a.component.path.clean) {b : Artifact}
      (hb : s.artifacts.find? key = some b) : b.component ∉ [a.component] := by
    intro hm
    rw [← hs.placed key b hb, List.mem_singleton.mp hm] at hne
    exact hne rfl
  refine ⟨?_, ?_, hchildren, hbeside⟩
  · intro key
    by_cases hkey : key = a.component.path.clean
    · rw [hkey, ha]
      simpa [artifact?] using hheld.published
    · rw [(hother hkey).1]
      cases hb : s.artifacts.find? key with
      | none => rfl
      | some b => exact (congrArg some (if_neg (hapart hkey hb))).symm
  · intro key
    by_cases hkey : key = a.component.path.clean
    · rw [hkey, ha]
      simpa using hheld.written
    · rw [(hother hkey).2]
      cases hb : s.artifacts.find? key with
      | none => rfl
      | some b => exact (if_neg (hapart hkey hb)).symm

/-- Registered components are written again up to the first whose write fails. -/
theorem rewrites_forEach (hs : s.Indexed) (hcs : ∀ c ∈ cs, s.Registers c)
    {result : Except Failure Unit} (h : s.forEach materialize cs = (result, t)) :
    (result = .ok () ∧ s.Rewrites t cs) ∨
      ∃ done c rest cause, cs = done ++ c :: rest ∧
        result = .error (.artifactNotWritten c.path cause) ∧ s.Rewrites t done := by
  induction cs generalizing s with
  | nil =>
    cases h
    exact .inl ⟨rfl, rewrites_nil (fun _ => rfl) (fun _ => rfl) rfl (.refl _)⟩
  | cons c cs ih =>
    rw [forEach] at h
    split at h
    · next failure u hu =>
      cases h
      obtain ⟨⟨cause, rfl⟩, hsame⟩ := rewrites_of_not_written hu
      exact .inr ⟨[], c, cs, cause, rfl, rfl, hsame⟩
    · next u hu =>
      have hfirst := rewrites_of_written hs (hcs c List.mem_cons_self) hu
      have hregister := sameRegister_materialize s c
      rw [hu] at hregister
      have hrest : ∀ d ∈ cs, u.Registers d := fun d hd =>
        (hregister.component d.path.clean).trans (hcs d (List.mem_cons_of_mem c hd))
      rcases ih (hregister.indexed hs) hrest h with
        ⟨hok, hall⟩ | ⟨done, d, rest, cause, rfl, hfailed, hsome⟩
      · exact .inl ⟨hok, hfirst.trans hall⟩
      · exact .inr ⟨c :: done, d, rest, cause, rfl, hfailed, hfirst.trans hsome⟩

theorem rewrites_restore (hs : s.Indexed) (horder : order.Perm s.components)
    {result : Except Failure Nat} (h : s.restore order = (result, t)) :
    (result = .ok order.length ∧ s.Rewrites t order) ∨
      ∃ done c rest cause, order = done ++ c :: rest ∧
        result = .error (.artifactNotWritten c.path cause) ∧ s.Rewrites t done := by
  have hcs : ∀ c ∈ order, s.Registers c := fun c hc =>
    hs.registers_iff.mpr (horder.mem_iff.mp hc)
  unfold restore at h
  split at h
  · next failure u hu =>
    obtain ⟨rfl, rfl⟩ := Prod.mk.inj h
    rcases rewrites_forEach hs hcs hu with ⟨hok, -⟩ | ⟨done, c, rest, cause, hsplit, hfailed, hsome⟩
    · cases hok
    · exact .inr ⟨done, c, rest, cause, hsplit, congrArg _ (Except.error.inj hfailed), hsome⟩
  · next u hu =>
    obtain ⟨rfl, rfl⟩ := Prod.mk.inj h
    rcases rewrites_forEach hs hcs hu with ⟨-, hall⟩ | ⟨_, _, _, _, _, hfailed, _⟩
    · refine .inl ⟨rfl, ?_⟩
      split
      · exact hall
      · exact hall.log _
    · cases hfailed

/-- All that is known is published and its file holds its body, and all else is as it was. -/
structure Restored (s t : Session σ) (count : Nat) : Prop where
  count : {key | s.Knows key}.ncard = count
  known : ∀ key a, s.artifacts.find? key = some a →
    t.artifacts.find? key = some ⟨a.component, true⟩ ∧
      t.content key = some a.component.body.toUTF8
  unknown : ∀ key, ¬ s.Knows key → ¬ t.Knows key ∧ t.content key = s.content key
  children : t.children = s.children
  beside : s.SameBeside t

/-- Nothing is changed but what is told. -/
structure Unchanged (s t : Session σ) : Prop where
  artifacts : ∀ key, t.artifacts.find? key = s.artifacts.find? key
  content : ∀ key, t.content key = s.content key
  children : t.children = s.children
  beside : s.SameBeside t

/-- Nothing is lost by a write that fails: the same components are known, what was published is so
still, and a file that is changed holds the body of its artifact. The artifacts that come first
in the order are written, up to the one that fails. -/
structure PartlyRestored (s t : Session σ) (order : List SubComponent) (failure : Failure) :
    Prop where
  component : ∀ key, (t.artifacts.find? key).map Artifact.component =
    (s.artifacts.find? key).map Artifact.component
  published : ∀ key a, s.artifacts.find? key = some a → a.published = true →
    t.artifacts.find? key = some a
  content : ∀ key, t.content key = s.content key ∨
    ∃ a, s.artifacts.find? key = some a ∧ t.content key = some a.component.body.toUTF8
  children : t.children = s.children
  beside : s.SameBeside t
  upTo : ∃ done c rest cause, order = done ++ c :: rest ∧
    failure = .artifactNotWritten c.path cause ∧ s.Rewrites t done

theorem Rewrites.restored (hs : s.Indexed) (horder : order.Perm s.components)
    (h : s.Rewrites t order) : s.Restored t order.length := by
  have hknown (key : Path) (a : Artifact) (ha : s.artifacts.find? key = some a) :
      a.component ∈ order := by
    rw [horder.mem_iff, ← hs.registers_iff, Registers, hs.placed key a ha, ha]
    rfl
  refine ⟨hs.ncard_knows.trans horder.length_eq.symm, ?_, ?_, h.children, h.beside⟩
  · intro key a ha
    rw [h.artifacts, h.content, ha]
    dsimp only [Option.map_some]
    rw [if_pos (hknown key a ha), if_pos (hknown key a ha)]
    exact ⟨rfl, rfl⟩
  · intro key hk
    have hnone : s.artifacts.find? key = none := by simpa [Knows] using hk
    rw [Knows, h.artifacts, h.content, hnone]
    simp

theorem Rewrites.partlyRestored {failure : Failure} {done rest : List SubComponent}
    {cause : FileError} (h : s.Rewrites t done)
    (hsplit : order = done ++ c :: rest) (hfailure : failure = .artifactNotWritten c.path cause) :
    s.PartlyRestored t order failure := by
  refine ⟨?_, ?_, ?_, h.children, h.beside, done, c, rest, cause, hsplit, hfailure, h⟩
  · intro key
    rw [h.artifacts, Option.map_map]
    congr 1
    funext a
    rw [Function.comp_apply]
    split <;> rfl
  · intro key a ha hpublished
    rw [h.artifacts, ha, Option.map_some]
    congr 1
    split
    · cases a
      rw [← hpublished]
    · rfl
  · intro key
    rw [h.content]
    cases ha : s.artifacts.find? key with
    | none => exact .inl rfl
    | some a =>
      dsimp only
      split
      · exact .inr ⟨a, rfl, rfl⟩
      · exact .inl rfl

/-- All that is known after a restoration is published and there. -/
theorem Restored.written {count : Nat} {key : Path} {b : Artifact} (h : s.Restored t count)
    (hb : t.artifacts.find? key = some b) :
    b.published = true ∧ t.content key = some b.component.body.toUTF8 := by
  have hknows : s.Knows key := by
    by_contra hunknown
    refine (h.unknown key hunknown).1 ?_
    rw [Knows, hb]
    rfl
  obtain ⟨a, ha⟩ := Option.isSome_iff_exists.mp hknows
  obtain ⟨hknown, hcontent⟩ := h.known key a ha
  obtain rfl := Option.some.inj (hb.symm.trans hknown)
  exact ⟨rfl, hcontent⟩

/-- What is restored already is not changed by being written once more. -/
theorem Restored.unchanged {count : Nat} (h : s.Restored t count) (hu : t.Rewrites u order) :
    t.Unchanged u := by
  refine ⟨?_, ?_, hu.children, hu.beside⟩
  · intro key
    rw [hu.artifacts]
    cases hb : t.artifacts.find? key with
    | none => rfl
    | some b =>
      rw [Option.map_some]
      split
      · rw [← (h.written hb).1]
      · rfl
  · intro key
    rw [hu.content]
    cases hb : t.artifacts.find? key with
    | none => rfl
    | some b =>
      dsimp only
      rw [(h.written hb).2]
      split <;> rfl

/-- What is restored can be written once more, and nothing is changed by it. -/
theorem Restored.again [SteadyFileSystem σ] {count : Nat} {again : List SubComponent}
    (hs : s.Indexed) (horder : order.Perm s.components)
    (h : s.restore order = (.ok count, t)) (hrestored : s.Restored t count)
    (hagain : again.Perm t.components) :
    (t.restore again).1 = .ok count ∧ t.Unchanged (t.restore again).2 := by
  have hregister := sameRegister_restore s order
  rw [h] at hregister
  have ht : t.Indexed := hregister.indexed hs
  have hwritable : ∀ c ∈ again, t.Writable c := by
    intro c hc
    have hregistered := ht.registers_iff.mpr (hagain.mem_iff.mp hc)
    rw [Registers, hregister.component] at hregistered
    exact writable_of_restore h c (horder.mem_iff.mpr (hs.registers_iff.mp hregistered))
  have hcount : again.length = count := by
    rw [hagain.length_eq, ← ht.ncard_knows, ← hrestored.count]
    congr 1
    ext key
    exact hregister.known key
  have hok := restore_of_writable hwritable
  rw [hcount] at hok
  refine ⟨hok, ?_⟩
  rcases rewrites_restore ht hagain (Prod.ext hok rfl) with
    ⟨-, hall⟩ | ⟨_, _, _, _, _, hfailed, _⟩
  · exact hrestored.unchanged hall
  · cases hfailed

/-- Whatever has become of the files, all that is known is written again when a build starts, in
whatever order it happens to be kept. -/
theorem restored_of_reached [SteadyFileSystem σ] (hs : s.Reached) :
    s.materializeAll = s.restore s.components ∧
      ∀ order : List SubComponent, order.Perm s.components →
        (∀ count t, s.restore order = (.ok count, t) → s.Restored t count ∧
          ∀ again : List SubComponent, again.Perm t.components →
            (t.restore again).1 = .ok count ∧ t.Unchanged (t.restore again).2) ∧
        ∀ failure t, s.restore order = (.error failure, t) →
          s.PartlyRestored t order failure := by
  refine ⟨s.materializeAll_eq_restore, fun order horder => ⟨?_, ?_⟩⟩
  · intro count t h
    rcases rewrites_restore hs.indexed horder h with ⟨hcount, hall⟩ | ⟨_, _, _, _, _, hfailed, _⟩
    · obtain rfl := Except.ok.inj hcount
      have hrestored := hall.restored hs.indexed horder
      exact ⟨hrestored, fun again => hrestored.again hs.indexed horder h⟩
    · cases hfailed
  · intro failure t h
    rcases rewrites_restore hs.indexed horder h with ⟨hcount, -⟩ |
      ⟨done, c, rest, cause, hsplit, hfailed, hsome⟩
    · cases hcount
    · exact hsome.partlyRestored hsplit (Except.error.inj hfailed)

/-- Of two artifacts one was deleted and one altered by someone else. Both are restored; where the
second cannot be written, the first is. -/
theorem restored_of_reached_altered :
    let a : SubComponent := ⟨"A", ⟨"/P__A.svelte"⟩, "a"⟩
    let b : SubComponent := ⟨"B", ⟨"/P__B.svelte"⟩, "b"⟩
    let files : Memory := .insert .empty b.path "x".toUTF8
    let s : Session (Faulty Memory) :=
      ⟨⟨files, []⟩, [(b.path, ⟨b, true⟩), (a.path, ⟨a, true⟩)], [], [], [], []⟩
    let broken : Session (Faulty Memory) :=
      { s with files := ⟨files, [⟨.write, a.path, .io, "disk full"⟩]⟩ }
    let failure : Failure := .artifactNotWritten a.path (.io "disk full")
    (s.Reached ∧ [b, a].Perm s.components ∧
      ∃ t, s.restore [b, a] = (.ok 2, t) ∧ s.Restored t 2 ∧
        (t.restore t.components).1 = .ok 2 ∧ t.Unchanged (t.restore t.components).2) ∧
    broken.Reached ∧ [b, a].Perm broken.components ∧
      ∃ t, broken.restore [b, a] = (.error failure, t) ∧
        broken.PartlyRestored t [b, a] failure := by
  intro a b files s broken failure
  have ha : a.path.clean = a.path := (Path.clean_eq _).trans (by decide +kernel)
  have hb : b.path.clean = b.path := (Path.clean_eq _).trans (by decide +kernel)
  have hs : s.Reached := by
    have hpublished := ((Reached.start (⟨.empty, []⟩ : Faulty Memory)).publish a).publish b
    rw [publish_of_written (s := .start (⟨.empty, []⟩ : Faulty Memory)) (c := a) rfl,
      publish_of_written (c := b) rfl] at hpublished
    refine hpublished.other ?_ rfl
    show _ = Table.put (Table.put [] a.path.clean _) b.path.clean _
    rw [ha, hb]
    decide +kernel
  have hbroken : broken.Reached := hs.other rfl rfl
  have hok : (s.restore [b, a]).1 = .ok 2 :=
    restore_of_writable (List.forall_mem_cons.mpr ⟨rfl, List.forall_mem_singleton.mpr rfl⟩)
  have hwritten : FileSystem.write broken.files b.path b.body.toUTF8 =
      (.ok (), { broken.files with files := files.insert b.path b.body.toUTF8 }) := by
    have hfault : broken.files.fault? .write b.path = none := by
      simp [Faulty.fault?, broken, ha, hb, a, b]
    show Faulty.write _ _ _ = _
    rw [Faulty.write, hfault]
    rfl
  have hrefused (m : Memory) : FileSystem.write { broken.files with files := m } a.path
      a.body.toUTF8 = (.error (.io "disk full"), { broken.files with files := m }) := by
    have hfault : Faulty.fault? { broken.files with files := m } .write a.path =
        some (.io "disk full") := by
      simp [Faulty.fault?, broken, Fault.error]
    show Faulty.write _ _ _ = _
    rw [Faulty.write, hfault]
  have hfailed : (broken.restore [b, a]).1 = .error failure := by
    rw [restore, forEach, materialize, hwritten]
    dsimp only
    rw [forEach, materialize, setPublished_eq, hrefused]
  obtain ⟨hrestored, hagain⟩ :=
    ((restored_of_reached hs).2 [b, a] (.refl _)).1 2 _ (Prod.ext hok rfl)
  have hpart := ((restored_of_reached hbroken).2 [b, a] (.refl _)).2 failure _ (Prod.ext hfailed rfl)
  exact ⟨⟨hs, .refl _, _, Prod.ext hok rfl, hrestored, hagain _ (.refl _)⟩,
    hbroken, .refl _, _, Prod.ext hfailed rfl, hpart⟩

end Session

end InlineComponents
