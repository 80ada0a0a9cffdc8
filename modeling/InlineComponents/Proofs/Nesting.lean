import InlineComponents.Outline

namespace InlineComponents

/-- An opening tag that waits for a closing tag. -/
def Piece.opens : Piece → Bool
  | .opening inside => !isSelfClosing inside
  | _ => false

def Piece.closes : Piece → Bool
  | .closing _ => true
  | _ => false

def Piece.isTag (p : Piece) : Bool :=
  match p with
  | .text _ => false
  | _ => true

/-- The closing tags answer `depth` templates that were open before and those opened in between:
at no place are there more of them, and at the end there are as many. -/
structure Unwinds (depth : Nat) (ps : List Piece) : Prop where
  within : ∀ before, before <+: ps →
    before.countP Piece.closes ≤ depth + before.countP Piece.opens
  closed : ps.countP Piece.closes = depth + ps.countP Piece.opens

/-- Every template that is opened is closed, and none else. -/
def Balanced (ps : List Piece) : Prop :=
  Unwinds 0 ps

theorem unwinds_nil {depth : Nat} : Unwinds depth [] ↔ depth = 0 := by
  constructor
  · intro h
    have := h.closed
    simp only [List.countP_nil] at this
    omega
  · rintro rfl
    exact ⟨fun before hb => by simp [List.prefix_nil.mp hb], rfl⟩

/-- One piece goes up a level, down a level, or stays. -/
theorem unwinds_cons {depth : Nat} {p : Piece} {ps : List Piece} :
    Unwinds depth (p :: ps) ↔ ∃ level,
      level + (if p.closes then 1 else 0) = depth + (if p.opens then 1 else 0) ∧
        Unwinds level ps := by
  constructor
  · intro h
    have hp := h.within [p] (by simp)
    simp only [List.countP_cons, List.countP_nil] at hp
    refine ⟨depth + (if p.opens then 1 else 0) - (if p.closes then 1 else 0), by omega, ?_, ?_⟩
    · intro before hb
      have := h.within (p :: before) (List.cons_prefix_cons.mpr ⟨rfl, hb⟩)
      simp only [List.countP_cons] at this
      omega
    · have := h.closed
      simp only [List.countP_cons] at this
      omega
  · rintro ⟨level, hl, h⟩
    refine ⟨?_, ?_⟩
    · intro before hb
      rcases List.prefix_cons_iff.mp hb with rfl | ⟨later, rfl, hp⟩
      · simp
      · have := h.within later hp
        simp only [List.countP_cons]
        omega
    · have := h.closed
      simp only [List.countP_cons]
      omega

theorem unwinds_text {depth : Nat} {chars : List Char} {ps : List Piece} :
    Unwinds depth (.text chars :: ps) ↔ Unwinds depth ps := by
  simp [unwinds_cons, Piece.closes, Piece.opens]

theorem unwinds_opening {depth : Nat} {inside : List Char} {ps : List Piece} :
    Unwinds depth (.opening inside :: ps) ↔
      Unwinds (if isSelfClosing inside then depth else depth + 1) ps := by
  cases h : isSelfClosing inside <;> simp [unwinds_cons, Piece.closes, Piece.opens, h]

theorem unwinds_closing {depth : Nat} {inside : List Char} {ps : List Piece} :
    Unwinds depth (.closing inside :: ps) ↔ ∃ level, depth = level + 1 ∧ Unwinds level ps := by
  simp [unwinds_cons, Piece.closes, Piece.opens, eq_comm]

/-- Text does not matter for the levels. -/
theorem unwinds_filter_isTag {depth : Nat} {ps : List Piece} :
    Unwinds depth (ps.filter Piece.isTag) ↔ Unwinds depth ps := by
  induction ps generalizing depth with
  | nil => exact Iff.rfl
  | cons p ps ih =>
    rw [List.filter_cons]
    cases p with
    | text chars => simpa [Piece.isTag, unwinds_text] using ih
    | opening inside => simpa [Piece.isTag, unwinds_opening] using ih
    | closing inside => simp [Piece.isTag, unwinds_closing, ih]

theorem Unwinds.append {depth level : Nat} {ps qs : List Piece} (hp : Unwinds depth ps)
    (hq : Unwinds level qs) : Unwinds (depth + level) (ps ++ qs) := by
  induction ps generalizing depth with
  | nil =>
    obtain rfl := unwinds_nil.mp hp
    rwa [Nat.zero_add]
  | cons p ps ih =>
    obtain ⟨next, hnext, hrest⟩ := unwinds_cons.mp hp
    exact unwinds_cons.mpr ⟨next + level, by omega, ih hrest⟩

theorem closeBlock_go_eq_some_iff {depth : Nat} {seen ps body rest : List Piece}
    {inside : List Char} :
    closeBlock.go depth seen ps = some (body, inside, rest) ↔
      ∃ m, body = seen.reverse ++ m ∧ ps = m ++ .closing inside :: rest ∧ Unwinds depth m := by
  induction ps generalizing depth seen with
  | nil => simp [closeBlock.go]
  | cons p ps ih =>
    -- a piece that is passed over is the first of the body, at the level the search goes on with
    have pass {level : Nat} (hl : ∀ m, Unwinds depth (p :: m) ↔ Unwinds level m)
        (hp : ∀ m, p :: ps = m ++ .closing inside :: rest → Unwinds depth m → m ≠ []) :
        closeBlock.go level (p :: seen) ps = some (body, inside, rest) ↔
          ∃ m, body = seen.reverse ++ m ∧ p :: ps = m ++ .closing inside :: rest ∧
            Unwinds depth m := by
      rw [ih]
      constructor
      · rintro ⟨m, rfl, rfl, hm⟩
        exact ⟨p :: m, by simp, rfl, (hl m).mpr hm⟩
      · rintro ⟨m, rfl, he, hm⟩
        obtain ⟨q, m, rfl⟩ := List.exists_cons_of_ne_nil (hp m he hm)
        obtain ⟨rfl, rfl⟩ := List.cons.inj he
        exact ⟨m, by simp, rfl, (hl m).mp hm⟩
    cases p with
    | text chars => exact pass (fun m => unwinds_text) (by rintro m he - rfl; simp at he)
    | opening inner => exact pass (fun m => unwinds_opening) (by rintro m he - rfl; simp at he)
    | closing inner =>
      cases depth with
      | zero =>
        simp only [closeBlock.go, Option.some.injEq, Prod.mk.injEq]
        constructor
        · rintro ⟨rfl, rfl, rfl⟩
          exact ⟨[], by simp, rfl, unwinds_nil.mpr rfl⟩
        · rintro ⟨m, rfl, he, hm⟩
          cases m with
          | nil => simpa using he
          | cons q m =>
            obtain ⟨rfl, -⟩ := List.cons.inj he
            obtain ⟨level, hl, -⟩ := unwinds_closing.mp hm
            omega
      | succ depth =>
        refine pass (fun m => ?_) ?_
        · simp [unwinds_closing]
        · rintro m - hm rfl
          have := unwinds_nil.mp hm
          omega

/-- The body of a block is what is balanced up to a closing tag. -/
theorem closeBlock_eq_some_iff {ps body rest : List Piece} {inside : List Char} :
    closeBlock ps = some (body, inside, rest) ↔
      ps = body ++ .closing inside :: rest ∧ Balanced body := by
  simp [closeBlock, closeBlock_go_eq_some_iff, Balanced]

instance (ps : List Piece) : Decidable (Balanced ps) :=
  decidable_of_iff (closeBlock (ps ++ [.closing []]) = some (ps, [], []))
    (by simp [closeBlock_eq_some_iff])

end InlineComponents
