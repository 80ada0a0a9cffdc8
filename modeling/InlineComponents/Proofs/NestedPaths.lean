import InlineComponents.Path.Ancestors
import InlineComponents.Proofs.NormalPaths
import InlineComponents.Proofs.Resolutions

namespace InlineComponents

namespace Path

/-- A path lies strictly within another if its components go on where those of the other end. A
relative path lies within no directory but those that it names. -/
def IsWithin (q p : Path) : Prop :=
  ∃ part more, q.parts = p.parts ++ part :: more

def IsAbsolute (p : Path) : Prop :=
  p.text.toList.head? = some '/'

theorem eq_of_parts_eq {p q : Path} (hp : p.clean = p) (hq : q.clean = q)
    (h : p.parts = q.parts) : p = q := by
  rw [← hp, ← hq, clean_eq_clean_iff, normalParts, normalParts, h]

/-- A path joined with the empty name ends in a slash, unless it is empty. -/
theorem toList_text_join_empty (p : Path) :
    (p.text.toList = [] ∨ p.text.toList.getLast? = some '/') ∧
        (p.join "").text.toList = p.text.toList ∨
      p.text.toList ≠ [] ∧ (p.join "").text.toList = p.text.toList ++ ['/'] := by
  have hslash : ¬ "".startsWith '/' = true := by simp [String.startsWith_char_eq_head?]
  rw [join, if_neg hslash]
  split
  · next h =>
    refine .inl ⟨?_, by simp⟩
    rcases Bool.or_eq_true_iff.mp h with h | h
    · exact .inl (by simpa using h)
    · rw [String.endsWith_char_eq_getLast?, beq_iff_eq] at h
      exact .inr h
  · next h =>
    refine .inr ⟨?_, by simp⟩
    intro hnil
    simp [String.toList_eq_nil_iff.mp hnil] at h

/-- Behind a slash, a path goes on with the components that stand there. -/
theorem parts_append_slash {p q : Path} {t : List Char} (hp : p.text.toList ≠ [])
    (h : q.text.toList = p.text.toList ++ '/' :: t) :
    q.parts = p.parts ++ segmentParts (splitAll '/' t) := by
  have hparts := parts_append hp t
  rw [← h, String.ofList_toList, String.ofList_toList] at hparts
  exact hparts

/-- A text that goes on behind a slash has the components in front of it. -/
theorem parts_prefix_of_text {p q : Path} (h : (p.join "").text.toList <+: q.text.toList) :
    p.parts <+: q.parts := by
  obtain ⟨t, ht⟩ := h
  rcases toList_text_join_empty p with ⟨hend, hsame⟩ | ⟨hne, hslash⟩
  · rw [hsame] at ht
    rcases hend with hnil | hend
    · have hparts : p.parts = [] := by
        rw [parts_eq, hnil]
        rfl
      rw [hparts]
      exact List.nil_prefix
    · obtain ⟨s, hs⟩ := List.getLast?_eq_some_iff.mp hend
      rw [hs, List.append_assoc, List.singleton_append] at ht
      by_cases hnil : s = []
      · subst hnil
        rw [parts_eq p, parts_eq q, hs, ← ht]
        exact List.prefix_append [PathPart.root] _
      · let front : Path := ⟨String.ofList s⟩
        have hfront : front.text.toList = s := String.toList_ofList
        have hp := parts_append_slash (p := front) (q := p) (hfront ▸ hnil) (hfront ▸ hs)
        have hq := parts_append_slash (p := front) (q := q) (hfront ▸ hnil) (hfront ▸ ht.symm)
        have hidle : segmentParts (splitAll '/' []) = [] := rfl
        rw [hp, hq, hidle, List.append_nil]
        exact List.prefix_append _ _
  · rw [hslash, List.append_assoc, List.singleton_append] at ht
    exact ⟨_, (parts_append_slash hne ht.symm).symm⟩

/-- The components of a clean path are its normal form, unless it is the directory that it starts
in. -/
theorem parts_of_clean {p : Path} (hp : p.clean = p) :
    p = ⟨"."⟩ ∨ IsNormal p.parts ∧ ofParts p.parts = p := by
  by_cases hne : p.normalParts = []
  · left
    rw [← hp, clean_eq, hne]
    rfl
  · right
    have hparts : p.parts = p.normalParts := by
      conv => lhs; rw [← hp, clean_eq]
      exact parts_ofParts (isNormal_normalParts p) hne
    rw [hparts, ← clean_eq]
    exact ⟨isNormal_normalParts p, hp⟩

theorem IsNormal.here_notMem {ps : List PathPart} (h : IsNormal ps) : .here ∉ ps := by
  obtain ⟨front, names, rfl, rfl | ⟨n, rfl⟩, -⟩ := h <;> simp

theorem toList_text_ofParts {ps : List PathPart} (hne : ps ≠ []) (hroot : ps ≠ [.root]) :
    (ofParts ps).text.toList = joinAll '/' (ps.map PathPart.text) := by
  rw [ofParts.eq_3 _ hne hroot, String.toList_ofList]

theorem toList_text_ofParts_append {ps qs : List PathPart} (hp : ps ≠ []) (hq : qs ≠ []) :
    (ofParts (ps ++ qs)).text.toList =
      joinAll '/' (ps.map PathPart.text) ++ '/' :: joinAll '/' (qs.map PathPart.text) := by
  have hroot : ps ++ qs ≠ [.root] := by
    intro h
    rcases List.append_eq_singleton_iff.mp h with ⟨hnil, -⟩ | ⟨-, hnil⟩
    · exact hp hnil
    · exact hq hnil
  rw [toList_text_ofParts (List.append_ne_nil_of_left_ne_nil hp qs) hroot, List.map_append,
    joinAll_append '/' (by simpa using hp) (by simpa using hq)]

theorem prefix_join_empty (p : Path) : (p.join "").text.toList <+: p.text.toList ++ ['/'] := by
  rcases toList_text_join_empty p with ⟨-, h⟩ | ⟨-, h⟩
  · rw [h]
    exact List.prefix_append _ _
  · exact h ▸ List.prefix_rfl

theorem parts_ne_nil {p : Path} (hp : p.clean = p) : p.parts ≠ [] := by
  intro hnil
  rcases parts_of_clean hp with rfl | ⟨-, hpt⟩
  · cases hnil
  · rw [hnil] at hpt
    rw [← hpt] at hnil
    cases hnil

theorem IsWithin.prefix_text {p q : Path} (hp : p.clean = p) (hq : q.clean = q)
    (h : q.IsWithin p) : (p.join "").text.toList <+: q.text.toList := by
  obtain ⟨part, more, hparts⟩ := h
  have hne := parts_ne_nil hp
  rcases parts_of_clean hq with rfl | ⟨hqn, hqt⟩
  · have hone : [PathPart.here].length = (p.parts ++ part :: more).length :=
      congrArg List.length hparts
    have hpos := List.length_pos_iff.mpr hne
    simp only [List.length_append, List.length_cons, List.length_nil] at hone
    omega
  rcases parts_of_clean hp with rfl | ⟨-, hpt⟩
  · have hhere : parts ⟨"."⟩ = [.here] := rfl
    rw [hparts, hhere] at hqn
    exact absurd List.mem_cons_self hqn.here_notMem
  · rw [hparts] at hqt
    have htext := toList_text_ofParts_append hne (List.cons_ne_nil part more)
    rw [hqt] at htext
    by_cases hroot : p.parts = [.root]
    · have hslash : ((ofParts [.root]).join "").text.toList = ['/'] := by decide +kernel
      rw [hroot] at hpt htext
      rw [← hpt, hslash, htext]
      exact List.prefix_append ['/'] _
    · have hptext : p.text.toList = joinAll '/' (p.parts.map PathPart.text) := by
        rw [← toList_text_ofParts hne hroot, hpt]
      rw [htext, ← hptext, ← List.singleton_append, ← List.append_assoc]
      exact (prefix_join_empty p).trans (List.prefix_append _ _)

/-- The text of a clean path goes on behind a slash just if its components go on. -/
theorem isBelow_iff_isWithin {p q : Path} (hp : p.clean = p) (hq : q.clean = q) :
    q.IsBelow p ↔ q.IsWithin p := by
  rw [IsBelow, String.startsWith_string_iff]
  constructor
  · rintro ⟨hne, htext⟩
    obtain ⟨rest, hrest⟩ := parts_prefix_of_text htext
    cases rest with
    | nil =>
      rw [List.append_nil] at hrest
      exact absurd (eq_of_parts_eq hp hq hrest).symm hne
    | cons part more => exact ⟨part, more, hrest.symm⟩
  · intro h
    refine ⟨?_, h.prefix_text hp hq⟩
    rintro rfl
    obtain ⟨part, more, hparts⟩ := h
    simp at hparts

theorem mem_above {lead : List Char} {segments : List (List Char)} {d : Path}
    (h : d ∈ above lead segments) :
    lead = ['.'] ∧ d = ⟨""⟩ ∨ ∃ taken last before, segments = taken ++ last :: before ∧
      isIdle last = false ∧ d = ⟨glue lead (before.dropWhile isIdle).reverse⟩ := by
  fun_induction above lead segments with
  | case1 hlead => exact .inl ⟨hlead, List.mem_singleton.mp h⟩
  | case2 => cases h
  | case3 last before hidle ih =>
    rcases ih h with hstart | ⟨taken, other, rest, rfl, hother, hd⟩
    · exact .inl hstart
    · exact .inr ⟨last :: taken, other, rest, rfl, hother, hd⟩
  | case4 last before hidle ih =>
    rcases List.mem_cons.mp h with hd | h
    · exact .inr ⟨[], last, before, rfl, by simpa using hidle, hd⟩
    · rcases ih h with hstart | ⟨taken, other, rest, rfl, hother, hd⟩
      · exact .inl hstart
      · exact .inr ⟨last :: taken, other, rest, rfl, hother, hd⟩

/-- The directories above a path have the components in front of one of its segments; above one
with a leading dot there is also the empty path. -/
theorem parts_of_mem_parents {p d : Path} (h : d ∈ p.parents) :
    p.split.1 = ['.'] ∧ d = ⟨""⟩ ∨ ∃ kept last taken, p.split.2 = kept ++ last :: taken ∧
      isIdle last = false ∧ d.parts = leadParts p.split.1 ++ segmentParts kept := by
  rcases mem_above h with hstart | ⟨taken, last, before, hsegments, hlast, rfl⟩
  · exact .inl hstart
  · have hwhole : p.split.2 = before.reverse ++ last :: taken.reverse := by
      rw [← List.reverse_reverse p.split.2, hsegments]
      simp
    have hkept : dropTail isIdle before.reverse = (before.dropWhile isIdle).reverse := by
      rw [dropTail, List.reverse_reverse]
    obtain ⟨idle, hidle, -⟩ := exists_dropTail_append isIdle before.reverse
    obtain ⟨tail, htail, -⟩ :=
      exists_dropTail_append isIdle (splitAll '/' (anchor p.text.toList).2)
    refine .inr ⟨before.reverse, last, taken.reverse, hwhole, hlast, ?_⟩
    have hsplit : splitAll '/' (anchor p.text.toList).2 =
        (before.dropWhile isIdle).reverse ++ (idle ++ last :: taken.reverse ++ tail) := by
      change _ = p.split.2 ++ tail at htail
      rw [htail, hwhole, hidle, hkept]
      simp
    rw [← segmentParts_dropTail before.reverse, hkept]
    exact parts_glue hsplit

/-- A path lies within the directories above it. -/
theorem isWithin_of_mem_parents {p d : Path} (h : d ∈ p.parents) : p.IsWithin d := by
  have hparts : p.parts = leadParts p.split.1 ++ segmentParts p.split.2 := rfl
  rcases parts_of_mem_parents h with ⟨hlead, rfl⟩ | ⟨kept, last, taken, hsplit, hlast, hd⟩
  · refine ⟨.here, segmentParts p.split.2, ?_⟩
    rw [hparts, hlead]
    rfl
  · have hone : segmentParts (last :: taken) = segmentPart last :: segmentParts taken := by
      simp [segmentParts, hlast]
    refine ⟨segmentPart last, segmentParts taken, ?_⟩
    rw [hparts, hd, hsplit, segmentParts_append, hone, List.append_assoc]

theorem IsAbsolute.parts_ne_nil {p d : Path} (hp : p.IsAbsolute) (h : d ∈ p.parents) :
    d.parts ≠ [] := by
  obtain ⟨s, hs⟩ := List.head?_eq_some_iff.mp hp
  have hlead : p.split.1 = ['/'] := by
    change (anchor p.text.toList).1 = ['/']
    rw [hs]
    rfl
  rcases parts_of_mem_parents h with ⟨hdot, -⟩ | ⟨kept, last, taken, -, -, hd⟩
  · rw [hlead] at hdot
    cases hdot
  · rw [hd, hlead]
    exact List.cons_ne_nil _ _

theorem IsNormal.of_append {ps qs : List PathPart} (h : IsNormal (ps ++ qs)) : IsNormal ps := by
  obtain ⟨front, names, hsplit, hfront, hnames⟩ := h
  rcases List.append_eq_append_iff.mp hsplit with ⟨rest, rfl, -⟩ | ⟨rest, rfl, hrest⟩
  · rcases hfront with hroot | ⟨n, hup⟩
    · rcases List.append_eq_singleton_iff.mp hroot with ⟨rfl, -⟩ | ⟨rfl, -⟩
      · exact isNormal_nil
      · exact isNormal_root
    · obtain ⟨-, hps, -⟩ := List.append_eq_replicate_iff.mp hup
      exact ⟨ps, [], by simp, .inr ⟨_, hps⟩, by simp⟩
  · obtain ⟨first, second, rfl, rfl, -⟩ := List.map_eq_append_iff.mp hrest
    exact ⟨front, first, rfl, hfront, fun name hn => hnames name (by simp [hn])⟩

/-- Cleaning changes no components that are in normal form. -/
theorem parts_clean {p : Path} (h : IsNormal p.parts) (hne : p.parts ≠ []) :
    p.clean.parts = p.parts := by
  have hn : p.normalParts = p.parts := by
    rw [normalParts, foldl_walk_of_isNormal h, List.reverse_reverse]
  rw [clean_eq, hn, parts_ofParts h hne]

/-- A clean absolute path lies within the directories above it also when those are cleaned. -/
theorem IsAbsolute.isWithin_clean {p d : Path} (hp : p.IsAbsolute) (hclean : p.clean = p)
    (h : d ∈ p.parents) : p.IsWithin d.clean := by
  obtain ⟨part, more, hparts⟩ := isWithin_of_mem_parents h
  have hnormal : IsNormal p.parts := by
    rcases parts_of_clean hclean with rfl | ⟨hn, -⟩
    · cases hp
    · exact hn
  rw [hparts] at hnormal
  refine ⟨part, more, ?_⟩
  rw [hparts, parts_clean hnormal.of_append (hp.parts_ne_nil h)]

end Path

end InlineComponents
