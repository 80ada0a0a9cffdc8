import InlineComponents.Path.Basic

namespace InlineComponents

namespace Path

/-- Where a reader stands in a path that is made of names: at its front, at the start of a segment,
after one or two dots that begin it, or in a name. What no such path has leads astray. -/
inductive Spot where
  | front
  | start
  | dot
  | dots
  | name
  | astray
  deriving DecidableEq, Repr

/-- One character further. -/
def Spot.next (spot : Spot) (c : Char) : Spot :=
  match spot with
  | .front => if c = '/' then .start else if c = '.' then .dot else .name
  | .start => if c = '/' then .astray else if c = '.' then .dot else .name
  | .dot => if c = '/' then .astray else if c = '.' then .dots else .name
  | .dots => if c = '/' then .astray else .name
  | .name => if c = '/' then .start else .name
  | .astray => .astray

/-- Whether a path is made of names alone, with one slash between them and at most one in front. -/
def isTidy (p : Path) : Bool :=
  p.text.foldl Spot.next .front = .name

/-- The spot after a part of a segment, given backwards. -/
def Spot.after (part : List Char) : Spot :=
  if part = [] then .start else if part = ['.'] then .dot
  else if part = ['.', '.'] then .dots else .name

theorem Spot.next_after {c : Char} (hc : c ≠ '/') (part : List Char) :
    (Spot.after part).next c = Spot.after (c :: part) := by
  match part with
  | [] => by_cases h : c = '.' <;> simp [Spot.after, Spot.next, hc, h]
  | [d] =>
    by_cases hd : d = '.' <;> by_cases h : c = '.' <;> simp [Spot.after, Spot.next, hc, hd, h]
  | [d, e] =>
    by_cases hd : d = '.' <;> by_cases he : e = '.' <;>
      simp [Spot.after, Spot.next, hc, hd, he]
  | d :: e :: f :: rest => simp [Spot.after, Spot.next, hc]

theorem Spot.foldl_astray (s : List Char) : s.foldl Spot.next .astray = .astray := by
  induction s with
  | nil => rfl
  | cons c cs ih => simpa [Spot.next] using ih

/-- A slash comes after a name. -/
theorem Spot.foldl_slash {part s : List Char}
    (h : ('/' :: s).foldl Spot.next (Spot.after part) = .name) :
    Spot.after part = .name ∧ s.foldl Spot.next (Spot.after []) = .name := by
  rw [List.foldl_cons] at h
  have hs := Spot.foldl_astray s
  have hf : Spot.after part ≠ .front := by
    unfold Spot.after
    repeat' split
    all_goals simp
  cases ha : Spot.after part <;> simp_all [Spot.next]
  simpa [Spot.after] using h

/-- A segment that is a name. -/
def isName (segment : List Char) : Bool :=
  !isIdle segment && segment ≠ ['.', '.']

theorem Spot.after_eq_name {part : List Char} (h : Spot.after part = .name) :
    isName part.reverse = true := by
  simp only [Spot.after] at h
  repeat' split at h
  all_goals simp_all [isName, isIdle, List.reverse_eq_iff]

theorem all_isName_splitAll_go {part s : List Char}
    (h : s.foldl Spot.next (Spot.after part) = .name) :
    (splitAll.go '/' part [] s).all isName = true := by
  induction s generalizing part with
  | nil => simpa [splitAll.go] using Spot.after_eq_name h
  | cons c cs ih =>
    rw [splitAll_go_cons]
    split
    · next hc =>
      obtain ⟨hp, hn⟩ := Spot.foldl_slash (hc ▸ h)
      simp [Spot.after_eq_name hp, ih hn]
    · next hc =>
      rw [List.foldl_cons, Spot.next_after hc] at h
      exact ih h

/-- A tidy path is its anchor, which is a slash or nothing, and names after it. -/
theorem all_isName_of_isTidy {p : Path} (h : p.isTidy = true) :
    ((anchor p.text.toList).1 = ['/'] ∨ (anchor p.text.toList).1 = []) ∧
      (splitAll '/' (anchor p.text.toList).2).all isName = true := by
  rw [isTidy, decide_eq_true_eq, String.foldl_eq_foldl_toList] at h
  match hs : p.text.toList with
  | [] => simp [hs] at h
  | c :: cs =>
    rw [hs, List.foldl_cons] at h
    by_cases hc : c = '/'
    · subst hc
      have h : cs.foldl Spot.next (Spot.after []) = .name := h
      exact ⟨.inl rfl, all_isName_splitAll_go h⟩
    · have hf : (Spot.front).next c = Spot.after [c] := by
        rw [← Spot.next_after hc []]
        simp [Spot.next, Spot.after, hc]
      rw [hf] at h
      have ha : anchor (c :: cs) = ([], c :: cs) := by
        unfold anchor
        split
        · simp_all
        · simp_all [Spot.after]
        · next rest he =>
          obtain ⟨rfl, rfl⟩ := List.cons.inj he
          have := (Spot.foldl_slash h).1
          simp [Spot.after] at this
        · rfl
      rw [ha]
      refine ⟨.inr rfl, ?_⟩
      rw [splitAll, splitAll_go_cons, if_neg hc]
      exact all_isName_splitAll_go h

end Path

end InlineComponents
