import InlineComponents.Proofs.Registration

namespace InlineComponents

/-- The components that are registered where they are published one after the other, which is
until the first that cannot be written; and whether there is none such. -/
def writeEach {σ : Type} [FileSystem σ] (files : σ) : List SubComponent → List SubComponent × Bool
  | [] => ([], true)
  | c :: cs =>
    match FileSystem.write files c.path c.body.toUTF8 with
    | (.error _, _) => ([c], false)
    | (.ok (), files) => (c :: (writeEach files cs).1, (writeEach files cs).2)

theorem writeEach_fst {σ : Type} [FileSystem σ] (files : σ) (cs : List SubComponent) :
    (writeEach files cs).1 <+: cs ∧
      ((writeEach files cs).2 = true → (writeEach files cs).1 = cs) := by
  induction cs generalizing files with
  | nil => exact ⟨List.prefix_rfl, fun _ => rfl⟩
  | cons c cs ih =>
    rw [writeEach]
    split
    · exact ⟨List.prefix_append [c] cs, fun h => Bool.noConfusion h⟩
    · next files _ =>
      obtain ⟨hpart, heq⟩ := ih files
      refine ⟨(List.prefix_cons_inj c).mpr hpart, ?_⟩
      intro h
      rw [heq h]

theorem Memory.write_readOnly {m : Memory} (h : m.readOnly = true) (path : Path)
    (body : ByteArray) : ∃ cause, FileSystem.write m path body = (.error cause, m) := by
  refine ⟨.io ("Failed to write " ++ path.text ++ ": read-only filesystem"), ?_⟩
  show m.write path body = _
  rw [Memory.write, if_pos h]

theorem writeEach_readOnly {m : Memory} (h : m.readOnly = true) (c : SubComponent)
    (cs : List SubComponent) : writeEach m (c :: cs) = ([c], false) := by
  obtain ⟨cause, hwrite⟩ := Memory.write_readOnly h c.path c.body.toUTF8
  rw [writeEach, hwrite]

theorem writeEach_writable {m : Memory} (h : m.readOnly = false) (cs : List SubComponent) :
    writeEach m cs = (cs, true) := by
  induction cs generalizing m with
  | nil => rfl
  | cons c cs ih =>
    have hwrite : FileSystem.write m c.path c.body.toUTF8 =
        (.ok (), m.insert c.path c.body.toUTF8) := by
      show m.write c.path c.body.toUTF8 = _
      rw [Memory.write, h]
      rfl
    have hrest : writeEach (m.insert c.path c.body.toUTF8) cs = (cs, true) := ih h
    rw [writeEach, hwrite]
    show (c :: (writeEach _ cs).1, (writeEach _ cs).2) = _
    rw [hrest]

namespace Session

variable {σ : Type} [FileSystem σ]

theorem publish_cases (s : Session σ) (c : SubComponent) :
    (∃ cause files failure, FileSystem.write s.files c.path c.body.toUTF8 = (.error cause, files) ∧
      s.publish c = (.error failure, { s.register c with files })) ∨
    ∃ t, FileSystem.write s.files c.path c.body.toUTF8 = (.ok (), t.files) ∧
      s.publish c = (.ok (), t) := by
  obtain ⟨result, files, hwrite, ⟨cause, rfl, hm⟩ | ⟨rfl, -⟩⟩ := (s.register c).materialize_cases c
  · exact .inl ⟨cause, files, _, hwrite, by rw [publish, hm]⟩
  · have hwrite : FileSystem.write s.files c.path c.body.toUTF8 = (.ok (), files) := hwrite
    exact .inr ⟨_, hwrite, publish_of_written hwrite⟩

theorem publishAll_eq_writeEach (s : Session σ) (cs : List SubComponent) :
    ((s.publishAll cs).1 = .ok () ↔ (writeEach s.files cs).2 = true) ∧
      ∀ key, (s.publishAll cs).2.Knows key ↔
        (∃ c ∈ (writeEach s.files cs).1, c.path.clean = key) ∨ s.Knows key := by
  induction cs generalizing s with
  | nil => simp [publishAll, forEach, writeEach]
  | cons c cs ih =>
    have hknown := s.knows_publish c
    rw [publishAll, forEach, writeEach]
    obtain ⟨cause, files, failure, hwrite, hp⟩ | ⟨t, hwrite, hp⟩ := s.publish_cases c
    · rw [hp] at hknown
      rw [hp, hwrite]
      exact ⟨by simp, by simpa using hknown⟩
    · rw [hp] at hknown
      rw [hp, hwrite]
      obtain ⟨hok, hrest⟩ := ih t
      refine ⟨hok, ?_⟩
      intro key
      refine (hrest key).trans ?_
      rw [hknown key, ← or_assoc]
      simp [or_comm]

/-- Where nothing can be written, the first component is registered all the same. -/
theorem takeUp_readOnly {s : Session Memory} (h : s.files.readOnly = true) (parent : Path)
    (c : SubComponent) (cs : List SubComponent) : s.takeUp parent (c :: cs) = s.register c := by
  obtain ⟨cause, hwrite⟩ := Memory.write_readOnly h c.path c.body.toUTF8
  rw [takeUp, publishAll, forEach]
  obtain ⟨_, files, failure, hfailed, hp⟩ | ⟨t, hdone, -⟩ := s.publish_cases c
  · obtain ⟨-, rfl⟩ := Prod.mk.inj (hfailed.symm.trans hwrite)
    rw [hp]
    rfl
  · cases congrArg Prod.fst (hdone.symm.trans hwrite)

/-- An extraction that is taken up to its end replaces what the parent had, and one that is not
leaves more artifacts known than there were, with the same parents. -/
theorem takeUp_cases (s : Session σ) (parent : Path) (cs : List SubComponent) :
    ((writeEach s.files cs).2 = true ∧
      (∀ key, (s.takeUp parent cs).Knows key ↔ (∃ c ∈ cs, c.path.clean = key) ∨
        s.Knows key ∧ key ∉ s.childrenOf parent.clean) ∧
      ∀ other, (s.takeUp parent cs).childrenOf other =
        if other = parent.clean then cs.map fun c => c.path.clean else s.childrenOf other) ∨
    ((writeEach s.files cs).2 = false ∧
      (∀ key, (s.takeUp parent cs).Knows key ↔
        (∃ c ∈ (writeEach s.files cs).1, c.path.clean = key) ∨ s.Knows key) ∧
      ∀ other, (s.takeUp parent cs).childrenOf other = s.childrenOf other) := by
  obtain ⟨hok, hknown⟩ := s.publishAll_eq_writeEach cs
  have hchildren := s.childrenOf_publishAll cs
  unfold takeUp
  rcases hp : s.publishAll cs with ⟨result, t⟩
  rw [hp] at hok hknown hchildren
  cases result with
  | error failure =>
    have hfailed : (writeEach s.files cs).2 = false := by
      rw [Bool.eq_false_iff]
      intro h
      cases hok.mpr h
    exact .inr ⟨hfailed, hknown, hchildren⟩
  | ok u =>
    have hdone := hok.mp rfl
    refine .inl ⟨hdone, ?_, ?_⟩
    · intro key
      rw [knows_retain, hknown, (writeEach_fst s.files cs).2 hdone, hchildren]
      constructor
      · rintro ⟨hc | hs, hkept⟩
        · exact .inl hc
        · by_cases hm : key ∈ s.childrenOf parent.clean
          · exact .inl (hkept hm)
          · exact .inr ⟨hs, hm⟩
      · rintro (hc | ⟨hs, hm⟩)
        · exact ⟨.inl hc, fun _ => hc⟩
        · exact ⟨.inr hs, fun h => absurd h hm⟩
    · intro other
      rw [childrenOf_retain]
      split
      · rfl
      · exact hchildren other

end Session

end InlineComponents
