namespace InlineComponents

/-- The characters with the Unicode property White_Space. -/
def isBlank (c : Char) : Bool :=
  let n := c.toNat
  (9 ≤ n && n ≤ 13) || n == 0x20 || n == 0x85 || n == 0xA0 || n == 0x1680 ||
    (0x2000 ≤ n && n ≤ 0x200A) || n == 0x2028 || n == 0x2029 || n == 0x202F ||
    n == 0x205F || n == 0x3000

/-- The text without the blanks it begins with. -/
def dropBlanks (s : List Char) : List Char :=
  s.dropWhile isBlank

/-- The list without the longest tail of elements that satisfy `p`. -/
def dropTail {α : Type} (p : α → Bool) (s : List α) : List α :=
  (s.reverse.dropWhile p).reverse

/-- Nothing but blanks, or nothing at all. -/
def allBlank (s : List Char) : Bool :=
  s.all isBlank

theorem isBlank_of_isWhitespace {c : Char} (h : c.isWhitespace = true) : isBlank c = true := by
  simp only [Char.isWhitespace, Bool.or_eq_true, decide_eq_true_eq] at h
  rcases h with ((rfl | rfl) | rfl) | rfl <;> rfl

theorem dropBlanks_length_le (s : List Char) : (dropBlanks s).length ≤ s.length :=
  (List.dropWhile_suffix isBlank).length_le

theorem dropTail_prefix {α : Type} (p : α → Bool) (s : List α) : dropTail p s <+: s := by
  have h : s.reverse.dropWhile p <:+ s.reverse := List.dropWhile_suffix p
  simpa [dropTail] using List.reverse_prefix.mpr h

theorem dropTail_eq_self {α : Type} {p : α → Bool} {s : List α} (h : ∀ a ∈ s, p a = false) :
    dropTail p s = s := by
  have hr : s.reverse.dropWhile p = s.reverse := by
    cases hs : s.reverse with
    | nil => rfl
    | cons a l =>
      have ha : a ∈ s := List.mem_reverse.mp (hs ▸ List.mem_cons_self)
      rw [List.dropWhile_cons_of_neg (by simp [h a ha])]
  rw [dropTail, hr, List.reverse_reverse]

end InlineComponents
