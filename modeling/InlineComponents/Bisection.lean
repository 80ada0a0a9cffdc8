namespace InlineComponents

/-- How many of the numbers below `size` satisfy a condition, if those that do come first. It is
found by halving, so that only few of them are looked at. -/
def turningPoint (p : Nat → Bool) (size : Nat) : Nat :=
  go 0 size
where
  go (low high : Nat) : Nat :=
    if low < high then
      let middle := (low + high) / 2
      if p middle then go (middle + 1) high else go low middle
    else low
  termination_by high - low

theorem turningPoint_go_iff {p : Nat → Bool} (hp : ∀ i j, i ≤ j → p j = true → p i = true)
    {low high i : Nat} (hl : i < low → p i = true) (hh : p i = true → i < high)
    (hle : low ≤ high) : i < turningPoint.go p low high ↔ p i = true := by
  fun_induction turningPoint.go p low high with
  | case1 low high hlt middle hm ih =>
    exact ih (fun h => hp i middle (by omega) hm) hh (by omega)
  | case2 low high hlt middle hm ih =>
    refine ih hl (fun h => ?_) (by omega)
    rcases Nat.lt_or_ge i middle with hi | hi
    · exact hi
    · exact absurd (hp middle i hi h) hm
  | case3 low high hge => exact ⟨hl, fun h => by have := hh h; omega⟩

/-- Below the turning point the condition holds, and from there on it does not. -/
theorem lt_turningPoint_iff {p : Nat → Bool} {size i : Nat}
    (hp : ∀ i j, i ≤ j → p j = true → p i = true) (hi : i < size) :
    i < turningPoint p size ↔ p i = true :=
  turningPoint_go_iff hp (fun h => absurd h (Nat.not_lt_zero i)) (fun _ => hi) (Nat.zero_le size)

end InlineComponents
