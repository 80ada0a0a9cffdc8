import InlineComponents.Proofs.Offsets.Tags
import InlineComponents.Proofs.Rereading

namespace InlineComponents.Offsets

/-- The raw element whose tag begins at an offset. -/
def rawTagAt (bytes : List UInt8) (lt : Nat) : Option RawTag :=
  if isTagNamed bytes (lt + 1) RawTag.script.name then some .script
  else if isTagNamed bytes (lt + 1) RawTag.style.name then some .style
  else none

/-- One step to the end of a raw element: over what looks like its closing tag but is none, or to
the end of its closing tag. -/
def rawRound (tag : RawTag) (bytes : List UInt8) (offset : Nat) : Reading (Round Nat Nat) := do
  let rest ← bytesFrom bytes offset
  match findBytes (utf8 tag.closing) rest with
  | none => .ok (.done bytes.length)
  | some found =>
    let behind := offset + found + byteLength tag.closing
    if isTagBoundary bytes behind then
      .ok (.done ((closingAngle bytes behind).elim bytes.length (· + 1)))
    else .ok (.again behind)

theorem yields_bytesFrom (bytes : List UInt8) (offset : Nat) :
    Yields (bytesFrom bytes offset) fun rest => rest.length = bytes.length - offset ∧
      offset ≤ bytes.length := by
  unfold bytesFrom
  split
  · next h => exact yields_ok ⟨List.length_drop, h⟩
  · exact yields_error

theorem rawRound_advances (tag : RawTag) (bytes : List UInt8) (offset : Nat) :
    Yields (rawRound tag bytes offset) fun
      | .again next => offset < next ∧ next ≤ bytes.length
      | .done stop => offset ≤ stop ∧ stop ≤ bytes.length := by
  have hpos : 0 < byteLength tag.closing := by cases tag <;> decide
  refine (yields_bytesFrom bytes offset).bind fun rest hrest => ?_
  obtain ⟨hlength, hle⟩ := hrest
  split
  · exact yields_ok ⟨hle, Nat.le_refl _⟩
  · next found hfound =>
    have hin := le_of_findBytes hfound
    rw [length_utf8, hlength] at hin
    dsimp only
    split
    · refine yields_ok ?_
      cases hclose : closingAngle bytes (offset + found + byteLength tag.closing) with
      | none => exact ⟨hle, Nat.le_refl _⟩
      | some stop =>
        obtain ⟨hbehind, hstop, -⟩ := byteAt_of_closingAngle hclose
        exact ⟨by rw [Option.elim_some]; omega, hstop⟩
    · exact yields_ok (by dsimp only; omega)

def rawLoop (tag : RawTag) (bytes : List UInt8) : Loop Nat Nat where
  round := rawRound tag bytes
  left offset := bytes.length - offset
  advances offset := (rawRound_advances tag bytes offset).imp fun
    | .again _, h => by dsimp only at h ⊢; omega
    | .done _, _ => trivial

/-- The offset behind the raw element that begins at an offset, if one does. One that is not closed,
or whose tag is not, reaches up to the end. -/
def skipRaw (bytes : List UInt8) (lt : Nat) : Reading (Option Nat) :=
  match rawTagAt bytes lt with
  | none => .ok none
  | some tag =>
    match closingAngle bytes (lt + 1 + byteLength tag.name) with
    | none => .ok (some bytes.length)
    | some close => do
      let stop ← (rawLoop tag bytes).run (close + 1)
      .ok (some stop)

theorem le_of_rawLoop (tag : RawTag) (bytes : List UInt8) (start : Nat) :
    Yields ((rawLoop tag bytes).run start) fun stop => start ≤ stop ∧ stop ≤ bytes.length := by
  refine Loop.yields_run (start ≤ ·) (fun offset h => ?_) (Nat.le_refl start)
  refine (rawRound_advances tag bytes offset).imp ?_
  rintro (next | stop) hround
  · exact Nat.le_trans h (Nat.le_of_lt hround.1)
  · exact ⟨Nat.le_trans h hround.1, hround.2⟩

theorem lt_of_skipRaw {bytes : List UInt8} {lt : Nat} (h : lt < bytes.length) :
    Yields (skipRaw bytes lt) fun found => ∀ stop ∈ found, lt < stop ∧ stop ≤ bytes.length := by
  unfold skipRaw
  split
  · exact yields_ok (by simp)
  · split
    · exact yields_ok (by simpa using h)
    · next tag _ _ close hclose =>
      obtain ⟨hle, -, -⟩ := byteAt_of_closingAngle hclose
      refine (le_of_rawLoop tag bytes (close + 1)).bind fun stop hstop => yields_ok ?_
      intro next hnext
      obtain rfl := Option.some.inj hnext
      omega

section Characters

theorem isAscii_of_mem_commentEnd : ∀ c ∈ commentEnd, IsAscii c := by
  simp [commentEnd, IsAscii]

theorem isAscii_of_mem_commentStart : ∀ c ∈ commentStart, IsAscii c := by
  simp [commentStart, IsAscii]

/-- The reader of the bytes finds the end of a comment where the reader of the characters does. -/
theorem findBytes_commentEnd (s : List Char) :
    findBytes (utf8 commentEnd) (utf8 s) =
      (closeComment s).map fun closed => byteLength closed.1 := by
  rw [closeComment, Option.map_map]
  exact findBytes_utf8 isAscii_of_mem_commentEnd s

theorem RestAt.behindComment {source s said rest : List Char} {offset : Nat}
    (h : RestAt source offset (commentStart ++ s)) (hclose : closeComment s = some (said, rest)) :
    RestAt source
      (offset + byteLength commentStart + byteLength said + byteLength commentEnd) rest := by
  rw [closeComment_append hclose, List.append_assoc said] at h
  exact h.append.append.append

theorem RawTag.isAscii_closing (tag : RawTag) : ∀ c ∈ tag.closing, IsAscii c := by
  cases tag <;> simp [RawTag.closing, RawTag.name, IsAscii]

theorem RawTag.isAscii_name (tag : RawTag) : ∀ c ∈ tag.name, IsAscii c := by
  cases tag <;> simp [RawTag.name, IsAscii]

variable {source s t a b : List Char} {offset : Nat} {tag : RawTag}

theorem RestAt.end (source : List Char) : RestAt source (utf8 source).length [] :=
  ⟨source, by simp, by simp⟩

/-- What only looks like a closing tag hides none. -/
theorem breakAt_closing (h : breakAt (tag.closing.isPrefixOf ·) s = some (a, tag.closing ++ t)) :
    breakAt (beginsTag tag.closing) s =
      if t.head?.any isBoundary then some (a, tag.closing ++ t)
      else (breakAt (beginsTag tag.closing) t).map
        fun broken => (a ++ tag.closing ++ broken.1, broken.2) := by
  obtain ⟨rfl, -⟩ := breakAt_append h
  have hbefore : ∀ later, later <:+ a → later ≠ [] →
      beginsTag tag.closing (later ++ (tag.closing ++ t)) = false := by
    intro later hl hne
    rw [beginsTag, breakAt_before h later hl hne, Bool.false_and]
  split
  · next hbound =>
    refine breakAt_append_eq_some ?_ (by rw [beginsTag_append, hbound]) hbefore
    cases tag <;> exact List.cons_ne_nil _ _
  · next hbound =>
    rw [← List.append_assoc]
    refine breakAt_append_left fun rest hs hr => ?_
    obtain ⟨name, hname, hlt⟩ := tag.notMem_closing
    rcases List.suffix_or_suffix_of_suffix hs (List.suffix_append a tag.closing) with
      hs | ⟨later, rfl⟩
    · -- within the closing tag none begins, except at its own beginning
      rw [hname] at hs
      rcases List.suffix_cons_iff.mp hs with rfl | hs
      · rw [← hname, beginsTag_append]
        simpa using hbound
      · obtain ⟨c, rest, rfl⟩ := List.exists_cons_of_ne_nil hr
        have hc : '<' ≠ c := fun he => hlt (he ▸ hs.subset List.mem_cons_self)
        rw [hname, List.cons_append, beginsTag_cons, beq_false_of_ne hc, Bool.false_and]
    · obtain ⟨front, hfront⟩ := hs
      rw [← List.append_assoc] at hfront
      have hl : later <:+ a := ⟨front, List.append_cancel_right hfront⟩
      by_cases hnil : later = []
      · subst hnil
        rw [List.nil_append, beginsTag_append]
        simpa using hbound
      · rw [List.append_assoc]
        exact hbefore later hl hnil

theorem breakAt_closing_eq_none (h : breakAt (tag.closing.isPrefixOf ·) s = none) :
    breakAt (beginsTag tag.closing) s = none := by
  have hnone := breakAt_append_left (p := beginsTag tag.closing) (s := s) (t := [])
    fun rest hs hr => by
      rw [List.append_nil, beginsTag, breakAt_eq_none h rest hs hr, Bool.false_and]
  rw [List.append_nil] at hnone
  rw [hnone]
  rfl

/-- Behind the raw element that begins a text. -/
def afterRaw (tag : RawTag) (s : List Char) : List Char :=
  match closeAngle (s.drop ('<' :: tag.name).length) with
  | none => []
  | some (_, rest) => (closeRaw tag rest).2

theorem read_raw_snd (tag : RawTag) (s : List Char) :
    ((Markup.raw tag).read s).2 = afterRaw tag s := by
  rw [Markup.read, afterRaw]
  cases closeAngle (s.drop ('<' :: tag.name).length) <;> rfl

theorem rawToken_snd (tag : RawTag) (s : List Char) : (rawToken tag s).2 = afterRaw tag s := by
  cases tag <;> simp only [rawToken, afterRaw] <;> split <;> simp_all

theorem RestAt.rawTagAt_eq (h : RestAt source offset ('<' :: t)) :
    rawTagAt (utf8 source) offset = rawTag? ('<' :: t) := by
  have ht := h.tail (by decide)
  rw [rawTagAt, rawTag?, ht.isTagNamed_eq (RawTag.isAscii_name .script),
    ht.isTagNamed_eq (RawTag.isAscii_name .style)]

theorem closeRaw_snd (tag : RawTag) (s : List Char) :
    (closeRaw tag s).2 =
      match breakAt (beginsTag tag.closing) s with
      | none => []
      | some (_, rest) =>
        match closeAngle (rest.drop tag.closing.length) with
        | none => []
        | some (_, after) => after := by
  rw [closeRaw]
  cases breakAt (beginsTag tag.closing) s with
  | none => rfl
  | some broken =>
    dsimp only
    cases closeAngle (broken.2.drop tag.closing.length) <;> rfl

/-- The reader of the bytes goes on behind a raw element where the reader of the characters does. -/
theorem RestAt.rawLoop_gives (tag : RawTag) (h : RestAt source offset s) :
    Gives ((rawLoop tag (utf8 source)).run offset) fun stop =>
      RestAt source stop (closeRaw tag s).2 := by
  induction hn : s.length using Nat.strong_induction_on generalizing s offset with
  | _ n ih =>
  subst hn
  have hclosing : ∃ c name, tag.closing = c :: name := ⟨'<', '/' :: tag.name, rfl⟩
  have hround : rawRound tag (utf8 source) offset =
      match breakAt (tag.closing.isPrefixOf ·) s with
      | none => .ok (.done (utf8 source).length)
      | some (before, _) =>
        let behind := offset + byteLength before + byteLength tag.closing
        if isTagBoundary (utf8 source) behind then
          .ok (.done ((closingAngle (utf8 source) behind).elim (utf8 source).length (· + 1)))
        else .ok (.again behind) := by
    obtain ⟨c, name, hname⟩ := hclosing
    have hfind := findBytes_utf8 (hname ▸ RawTag.isAscii_closing tag) s
    rw [rawRound, h.bytesFrom_eq, ok_bind, hname, hfind]
    cases breakAt (fun s => (c :: name).isPrefixOf s) s <;> rfl
  cases hbreak : breakAt (tag.closing.isPrefixOf ·) s with
  | none =>
    rw [hbreak] at hround
    refine ⟨_, Loop.run_of_done hround, ?_⟩
    rw [closeRaw_snd, breakAt_closing_eq_none hbreak]
    exact RestAt.end source
  | some broken =>
    obtain ⟨before, rest⟩ := broken
    obtain ⟨hs, hprefix⟩ := breakAt_append hbreak
    obtain ⟨after, rfl⟩ := List.isPrefixOf_iff_prefix.mp hprefix
    have hafter : RestAt source (offset + byteLength before + byteLength tag.closing) after :=
      (hs ▸ h).append.append
    rw [hbreak] at hround
    dsimp only at hround
    rw [isTagBoundary, hafter.hasAt_eq isAsciiClass_isBoundary] at hround
    rw [closeRaw_snd, breakAt_closing hbreak]
    cases hbound : after.head?.any isBoundary with
    | true =>
      rw [hbound, if_pos rfl, hafter.closingAngle_eq] at hround
      refine ⟨_, Loop.run_of_done hround, ?_⟩
      rw [if_pos rfl]
      dsimp only
      rw [List.drop_left]
      cases hclose : closeAngle after with
      | none => exact RestAt.end source
      | some closed =>
        obtain ⟨inside, left⟩ := closed
        have hleft := (closeAngle_append hclose ▸ hafter).append
        exact hleft.tail (by decide)
    | false =>
      rw [hbound, if_neg Bool.false_ne_true] at hround
      have hlt : after.length < s.length := by
        rw [hs, RawTag.closing]
        simp only [List.length_append, List.length_cons]
        omega
      rw [Loop.run_of_again hround, if_neg Bool.false_ne_true]
      refine (ih _ hlt hafter rfl).imp fun stop hstop => ?_
      rw [closeRaw_snd] at hstop
      cases hrest : breakAt (beginsTag tag.closing) after with
      | none => rwa [hrest] at hstop
      | some broken => rwa [hrest] at hstop

theorem RestAt.skipRaw_eq_none (h : RestAt source offset ('<' :: t))
    (hraw : rawTag? ('<' :: t) = none) : skipRaw (utf8 source) offset = .ok none := by
  rw [skipRaw, h.rawTagAt_eq, hraw]

theorem RestAt.skipRaw_gives (h : RestAt source offset ('<' :: t))
    (hraw : rawTag? ('<' :: t) = some tag) :
    ∃ stop, skipRaw (utf8 source) offset = .ok (some stop) ∧
      RestAt source stop (afterRaw tag ('<' :: t)) := by
  obtain ⟨after, rfl⟩ : ∃ after, t = tag.name ++ after := by
    have hopening := rawTag?_prefix hraw
    exact ⟨_, (List.cons.inj hopening).2⟩
  have hafter : RestAt source (offset + 1 + byteLength tag.name) after :=
    (h.tail (by decide)).append
  rw [skipRaw, h.rawTagAt_eq, hraw, afterRaw, ← List.cons_append, List.drop_left]
  dsimp only
  rw [hafter.closingAngle_eq]
  cases hclose : closeAngle after with
  | none => exact ⟨_, rfl, RestAt.end source⟩
  | some closed =>
    obtain ⟨inside, rest⟩ := closed
    have hrest := (closeAngle_append hclose ▸ hafter).append
    obtain ⟨stop, hrun, hstop⟩ := (hrest.tail (by decide)).rawLoop_gives tag
    refine ⟨stop, ?_, hstop⟩
    rw [Option.map_some]
    dsimp only
    rw [hrun]
    rfl

end Characters

end InlineComponents.Offsets
