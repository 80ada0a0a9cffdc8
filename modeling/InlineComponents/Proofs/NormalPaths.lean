import InlineComponents.Proofs.PathParts

namespace InlineComponents

namespace Path

/-- A parent, or the name of an entry. -/
def IsStep : PathPart → Prop
  | .up => True
  | .name s => IsEntryName s.toList
  | .root | .here => False

theorem isStep_of_mem_segmentParts {s : List Char} {part : PathPart}
    (h : part ∈ segmentParts (splitAll '/' s)) : IsStep part := by
  obtain ⟨segment, hs, rfl⟩ := List.mem_map.mp h
  obtain ⟨hm, hi⟩ := List.mem_filter.mp hs
  by_cases hup : segment = ['.', '.']
  · subst hup
    exact trivial
  · rw [segmentPart, if_neg hup]
    refine ⟨?_, ?_⟩
    · simpa [isName, hup] using hi
    · rw [String.toList_ofList]
      exact notMem_of_mem_splitAll hm

/-- The root or parents in front, and names after them. -/
def IsNormal (ps : List PathPart) : Prop :=
  ∃ (front : List PathPart) (names : List String), ps = front ++ names.map .name ∧
    (front = [.root] ∨ ∃ n, front = List.replicate n .up) ∧
    ∀ name ∈ names, IsEntryName name.toList

theorem isNormal_nil : IsNormal [] :=
  ⟨[], [], rfl, .inr ⟨0, rfl⟩, by simp⟩

theorem isNormal_root : IsNormal [.root] :=
  ⟨[.root], [], rfl, .inl rfl, by simp⟩

theorem walk_replicate_up (n : Nat) :
    walk (List.replicate n .up) .up = List.replicate (n + 1) .up := by
  cases n <;> rfl

theorem IsNormal.walk {stack : List PathPart} {part : PathPart} (h : IsNormal stack.reverse)
    (hp : IsStep part) : IsNormal (walk stack part).reverse := by
  obtain ⟨front, names, hs, hfront, hnames⟩ := h
  obtain rfl : stack = (front ++ names.map PathPart.name).reverse := by
    rw [← hs, List.reverse_reverse]
  cases part with
  | root => exact hp.elim
  | here => exact hp.elim
  | name name =>
    refine ⟨front, names ++ [name], by simp [Path.walk], hfront, ?_⟩
    intro other ho
    rcases List.mem_append.mp ho with ho | ho
    · exact hnames other ho
    · rw [List.mem_singleton.mp ho]
      exact hp
  | up =>
    rcases List.eq_nil_or_concat names with rfl | ⟨before, last, rfl⟩
    · rcases hfront with rfl | ⟨n, rfl⟩
      · exact isNormal_root
      · refine ⟨List.replicate (n + 1) .up, [], ?_, .inr ⟨n + 1, rfl⟩, by simp⟩
        rw [List.map_nil, List.append_nil, List.append_nil, List.reverse_replicate,
          walk_replicate_up, List.reverse_replicate]
    · refine ⟨front, before, ?_, hfront, ?_⟩
      · simp [Path.walk]
      · intro other ho
        exact hnames other (by simp [ho])

theorem IsNormal.foldl_walk {stack steps : List PathPart} (h : IsNormal stack.reverse)
    (hs : ∀ part ∈ steps, IsStep part) : IsNormal (steps.foldl Path.walk stack).reverse := by
  induction steps generalizing stack with
  | nil => exact h
  | cons part steps ih =>
    exact ih (h.walk (hs part List.mem_cons_self)) fun other ho =>
      hs other (List.mem_cons_of_mem part ho)

theorem isNormal_normalParts (p : Path) : IsNormal p.normalParts := by
  rw [normalParts, parts_eq, List.foldl_append]
  apply IsNormal.foldl_walk
  · unfold leadParts
    split
    · exact isNormal_root
    · split <;> exact isNormal_nil
  · intro part hp
    exact isStep_of_mem_segmentParts hp

theorem foldl_walk_replicate_up (n : Nat) :
    (List.replicate n PathPart.up).foldl walk [] = List.replicate n .up := by
  induction n with
  | zero => rfl
  | succ n ih =>
    rw [List.replicate_succ', List.foldl_append, ih, ← List.replicate_succ']
    exact walk_replicate_up n

/-- What is in normal form is walked through as it is. -/
theorem foldl_walk_of_isNormal {ps : List PathPart} (h : IsNormal ps) :
    ps.foldl walk [] = ps.reverse := by
  obtain ⟨front, names, rfl, hfront, -⟩ := h
  rw [List.foldl_append, foldl_walk_names, List.reverse_append]
  rcases hfront with rfl | ⟨n, rfl⟩
  · rfl
  · rw [foldl_walk_replicate_up, List.reverse_replicate]

theorem IsStep.segment {part : PathPart} (h : IsStep part) :
    '/' ∉ part.text ∧ segmentParts [part.text] = [part] := by
  cases part with
  | root => exact h.elim
  | here => exact h.elim
  | up => exact ⟨by decide, rfl⟩
  | name name =>
    have hn : IsEntryName name.toList := h
    have hs := hn.segmentParts_eq
    rw [splitAll_of_notMem hn.noSlash, String.ofList_toList] at hs
    exact ⟨hn.noSlash, hs⟩

theorem segmentParts_map_text {steps : List PathPart} (h : ∀ part ∈ steps, IsStep part) :
    segmentParts (steps.map PathPart.text) = steps := by
  induction steps with
  | nil => rfl
  | cons part steps ih =>
    have hp := (h part List.mem_cons_self).segment.2
    have hs := ih fun other ho => h other (List.mem_cons_of_mem part ho)
    rw [List.map_cons, ← List.singleton_append, segmentParts_append, hp, hs]
    rfl

theorem splitAll_map_text {steps : List PathPart} (hne : steps ≠ [])
    (h : ∀ part ∈ steps, IsStep part) :
    splitAll '/' (joinAll '/' (steps.map PathPart.text)) = steps.map PathPart.text := by
  apply splitAll_joinAll
  · simpa using hne
  · intro s hs
    obtain ⟨part, hp, rfl⟩ := List.mem_map.mp hs
    exact (h part hp).segment.1

/-- A text that begins with a parent or with the name of an entry has no anchor. -/
theorem IsStep.anchor_eq {part : PathPart} (h : IsStep part) (t : List Char) :
    anchor (part.text ++ t) = ([], part.text ++ t) := by
  cases part with
  | root => exact h.elim
  | here => exact h.elim
  | up => rfl
  | name name => exact IsEntryName.anchor_eq h t

theorem isStep_of_mem_front {names : List String} (n : Nat)
    (h : ∀ name ∈ names, IsEntryName name.toList) :
    ∀ part ∈ List.replicate n .up ++ names.map .name, IsStep part := by
  intro part hp
  rcases List.mem_append.mp hp with hp | hp
  · rw [List.eq_of_mem_replicate hp]
    exact trivial
  · obtain ⟨name, hn, rfl⟩ := List.mem_map.mp hp
    exact h name hn

theorem parts_joinAll {steps : List PathPart} (hne : steps ≠ []) (h : ∀ part ∈ steps, IsStep part) :
    parts ⟨String.ofList (joinAll '/' (steps.map PathPart.text))⟩ = steps ∧
      parts ⟨String.ofList ('/' :: joinAll '/' (steps.map PathPart.text))⟩ = .root :: steps := by
  have hsteps : segmentParts (splitAll '/' (joinAll '/' (steps.map PathPart.text))) = steps := by
    rw [splitAll_map_text hne h, segmentParts_map_text h]
  obtain ⟨part, rest, rfl⟩ := List.exists_cons_of_ne_nil hne
  have hanchor := (h part List.mem_cons_self).anchor_eq
    ((rest.map PathPart.text).flatMap ('/' :: ·))
  constructor
  · rw [parts_eq, String.toList_ofList, List.map_cons, joinAll, hanchor]
    exact hsteps
  · rw [parts_eq, String.toList_ofList]
    exact congrArg (.root :: ·) hsteps

/-- The text of a normal form is read as its components. -/
theorem parts_ofParts {ps : List PathPart} (h : IsNormal ps) (hne : ps ≠ []) :
    (ofParts ps).parts = ps := by
  obtain ⟨front, names, rfl, rfl | ⟨n, rfl⟩, hnames⟩ := h
  · have hsteps := isStep_of_mem_front 0 hnames
    cases names with
    | nil => rfl
    | cons name names => exact (parts_joinAll (List.cons_ne_nil _ _) hsteps).2
  · have hsteps := isStep_of_mem_front n hnames
    have hparts := (parts_joinAll hne hsteps).1
    generalize List.replicate n PathPart.up ++ names.map PathPart.name = steps at *
    unfold ofParts
    split
    · exact absurd rfl hne
    · exact (hsteps .root List.mem_cons_self).elim
    · exact hparts

theorem normalParts_ofParts {ps : List PathPart} (h : IsNormal ps) :
    (ofParts ps).normalParts = ps := by
  by_cases hne : ps = []
  · subst hne
    rfl
  · rw [normalParts, parts_ofParts h hne, foldl_walk_of_isNormal h, List.reverse_reverse]

theorem normalParts_clean (p : Path) : p.clean.normalParts = p.normalParts := by
  rw [clean_eq, normalParts_ofParts (isNormal_normalParts p)]

/-- A clean path is clean. -/
@[simp] theorem clean_clean (p : Path) : p.clean.clean = p.clean := by
  rw [clean_eq p.clean, normalParts_clean, ← clean_eq]

theorem clean_eq_clean_iff {p q : Path} : p.clean = q.clean ↔ p.normalParts = q.normalParts := by
  constructor
  · intro h
    rw [← normalParts_clean p, h, normalParts_clean]
  · intro h
    rw [clean_eq, clean_eq, h]

/-- A name after a path's components is the last of its normal form. -/
theorem normalParts_of_parts_append {p q : Path} {name : String}
    (h : p.parts = q.parts ++ [.name name]) : p.normalParts = q.normalParts ++ [.name name] := by
  rw [normalParts, normalParts, h, List.foldl_append]
  simp [walk]

/-- Paths that end in names are the same path, once they are cleaned, just if the names are the same
and lie in the same place. -/
theorem clean_eq_iff_of_fileName {p q : Path} {name name' : String}
    (hp : p.fileName = some name) (hq : q.fileName = some name') :
    p.clean = q.clean ↔ p.place.normalParts = q.place.normalParts ∧ name = name' := by
  have hpparts := normalParts_of_parts_append (parts_of_fileName hp).2
  have hqparts := normalParts_of_parts_append (parts_of_fileName hq).2
  rw [clean_eq_clean_iff, hpparts, hqparts]
  constructor
  · intro h
    obtain ⟨hplace, hname⟩ := List.append_inj' h rfl
    exact ⟨hplace, by simpa using hname⟩
  · intro h
    rw [h.1, h.2]

end Path

end InlineComponents
