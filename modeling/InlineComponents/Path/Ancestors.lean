import InlineComponents.Path.Basic

namespace InlineComponents

namespace Path

/-- The directories above an anchored list of segments, given last segment first: each component
taken away leaves one, and taking away a leading dot leaves the empty path. -/
def above (lead : List Char) : List (List Char) → List Path
  | [] => if lead = ['.'] then [⟨""⟩] else []
  | last :: before =>
    if isIdle last then above lead before
    else ⟨glue lead (before.dropWhile isIdle).reverse⟩ :: above lead before

/-- The directories above a path, nearest first. -/
def parents (p : Path) : List Path :=
  above p.split.1 p.split.2.reverse

/-- The nearest of the directories above, found without the others. -/
def nextAbove (lead : List Char) : List (List Char) → Option Path
  | [] => if lead = ['.'] then some ⟨""⟩ else none
  | last :: before =>
    if isIdle last then nextAbove lead before
    else some ⟨glue lead (before.dropWhile isIdle).reverse⟩

theorem head?_above (lead : List Char) (segments : List (List Char)) :
    (above lead segments).head? = nextAbove lead segments := by
  fun_induction above lead segments with
  | case1 h => simp [nextAbove, h]
  | case2 h => simp [nextAbove, h]
  | case3 last before h ih => simpa [nextAbove, h] using ih
  | case4 last before h => simp [nextAbove, h]

/-- The path without its last component; the root and the empty path have no parent. -/
def parent (p : Path) : Option Path :=
  nextAbove p.split.1 p.split.2.reverse

theorem head?_parents (p : Path) : p.parents.head? = p.parent :=
  head?_above ..

/-- The path itself, its parent, the parent of that, and so on. -/
def ancestors (p : Path) : List Path :=
  p :: p.parents

/-- A glued text without its last segments, `taken`, in front of which there are those kept. -/
def withoutLast (text : String) (taken kept : List (List Char)) : String :=
  let slashes := if kept.isEmpty then taken.length - 1 else taken.length
  (text.dropEnd (taken.flatten.length + slashes)).copy

theorem withoutLast_glue (lead : List Char) {taken : List (List Char)} (kept : List (List Char))
    (ht : taken ≠ []) :
    withoutLast (glue lead (taken ++ kept).reverse) taken kept = glue lead kept.reverse := by
  rw [← String.toList_inj, withoutLast, String.toList_copy_dropEnd]
  simp only [glue, String.toList_ofList, List.reverse_append]
  have hr : taken.reverse ≠ [] := by simpa using ht
  have hl := length_joinAll '/' taken.reverse
  have hs : taken.reverse.flatten.length = taken.flatten.length := by
    simp [List.length_flatten, List.map_reverse, List.sum_reverse]
  have hp : 0 < taken.length := List.length_pos_iff.mpr ht
  rw [hs, List.length_reverse] at hl
  cases kept with
  | nil =>
    have hj : joinAll '/' [] = [] := rfl
    simp only [List.reverse_nil, List.nil_append, List.isEmpty_nil, ↓reduceIte, List.length_append,
      hj, List.append_nil]
    rw [hl, Nat.add_sub_cancel]
    exact List.take_left
  | cons last before =>
    have hk : (last :: before).reverse ≠ [] := by simp
    have he : taken.flatten.length + taken.length =
        ('/' :: joinAll '/' taken.reverse).length := by
      rw [List.length_cons, hl]
      omega
    simp only [List.isEmpty_cons, Bool.false_eq_true, ↓reduceIte]
    rw [joinAll_append '/' hk hr, ← List.append_assoc, he, List.length_append, Nat.add_sub_cancel]
    exact List.take_left

theorem head?_dropWhile_isIdle (segments : List (List Char)) :
    (segments.dropWhile isIdle).head?.any isIdle = false := by
  have h := List.head?_dropWhile_not isIdle segments
  cases hk : segments.dropWhile isIdle with
  | nil => rfl
  | cons next rest => rw [hk] at h; simpa using h

theorem above_dropWhile (lead : List Char) (segments : List (List Char)) :
    above lead (segments.dropWhile isIdle) = above lead segments := by
  induction segments with
  | nil => rfl
  | cons last before ih =>
    by_cases h : isIdle last = true
    · rw [List.dropWhile_cons_of_pos h, ih, above, if_pos h]
    · rw [List.dropWhile_cons_of_neg h]

/-- The nearest of the directories above a glued text, given with its segments last first, that
passes a test. Those further up are not made. -/
def findAbove? (test : Path → Bool) (lead : List Char) (text : String)
    (segments : List (List Char)) : Option Path :=
  match segments with
  | [] => if lead = ['.'] && test ⟨""⟩ then some ⟨""⟩ else none
  | last :: before =>
    let kept := before.dropWhile isIdle
    let dir : Path := ⟨withoutLast text (last :: before.takeWhile isIdle) kept⟩
    if test dir then some dir else findAbove? test lead dir.text kept
termination_by segments.length
decreasing_by exact Nat.lt_succ_of_le (List.dropWhile_suffix isIdle).length_le

theorem findAbove?_eq (test : Path → Bool) (lead : List Char) {text : String}
    {segments : List (List Char)} (ht : text = glue lead segments.reverse)
    (hs : segments.head?.any isIdle = false) :
    findAbove? test lead text segments = (above lead segments).find? test := by
  have hd {text : String} {last : List Char} {before : List (List Char)}
      (ht : text = glue lead (last :: before).reverse) :
      withoutLast text (last :: before.takeWhile isIdle) (before.dropWhile isIdle) =
        glue lead (before.dropWhile isIdle).reverse := by
    have := withoutLast_glue lead (before.dropWhile isIdle)
      (List.cons_ne_nil last (before.takeWhile isIdle))
    rwa [List.cons_append, List.takeWhile_append_dropWhile, ← ht] at this
  fun_induction findAbove? test lead text segments with
  | case1 text h => simp_all [above]
  | case2 text h =>
    by_cases hl : lead = ['.'] <;> simp_all [above]
  | case3 text last before kept dir h =>
    have hi : isIdle last = false := by simpa using hs
    rw [above, if_neg (by simp [hi]), ← hd ht, List.find?_cons_of_pos h]
  | case4 text last before kept dir h ih =>
    have hi : isIdle last = false := by simpa using hs
    rw [above, if_neg (by simp [hi]), ← hd ht, List.find?_cons_of_neg h, ← above_dropWhile]
    exact ih (hd ht) (head?_dropWhile_isIdle before)

/-- The nearest of a path and the directories above it that passes a test. -/
def nearest? (p : Path) (test : Path → Bool) : Option Path :=
  if test p then some p
  else findAbove? test p.split.1 (glue p.split.1 p.split.2) p.split.2.reverse

/-- The search comes to the first of the ancestors that passes. -/
theorem nearest?_eq (p : Path) (test : Path → Bool) : p.nearest? test = p.ancestors.find? test := by
  rw [nearest?, ancestors, List.find?_cons, parents]
  by_cases ht : test p = true
  · simp [ht]
  · rw [if_neg ht, findAbove?_eq test _ (by rw [List.reverse_reverse])]
    · simp [ht]
    · have hs : p.split.2.reverse =
          (splitAll '/' (anchor p.text.toList).2).reverse.dropWhile isIdle := by
        simp [split, dropTail]
      rw [hs]
      exact head?_dropWhile_isIdle _

end Path

end InlineComponents
