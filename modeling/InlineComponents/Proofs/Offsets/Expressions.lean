import InlineComponents.Proofs.ExpressionTokens
import InlineComponents.Proofs.Offsets.Bytes

namespace InlineComponents.Offsets

/-- Where a reader of an expression is: how many braces are open, the quote of the string that it is
in, and the offset that it reads next. -/
structure ExpressionPlace where
  nesting : Nat
  quote : Option Char
  offset : Nat

/-- One byte of an expression, or a backslash in a string with the byte after it. -/
def ExpressionPlace.step (p : ExpressionPlace) (byte : Char) :
    Reading (Round ExpressionPlace Nat) :=
  match p.quote with
  | some quote =>
    if byte = '\\' then .ok (.again { p with offset := p.offset + 2 })
    else if byte = quote then .ok (.again { p with quote := none, offset := p.offset + 1 })
    else .ok (.again { p with offset := p.offset + 1 })
  | none =>
    if beginsLiteral byte then
      .ok (.again { p with quote := some byte, offset := p.offset + 1 })
    else if byte = '{' then
      .ok (.again { p with nesting := p.nesting + 1, offset := p.offset + 1 })
    else if byte = '}' then do
      let nesting ← countDown p.nesting
      if nesting = 0 then .ok (.done (p.offset + 1))
      else .ok (.again { p with nesting, offset := p.offset + 1 })
    else .ok (.again { p with offset := p.offset + 1 })

def expressionRound (bytes : List UInt8) (p : ExpressionPlace) :
    Reading (Round ExpressionPlace Nat) :=
  if p.offset < bytes.length then do
    let byte ← byteAt bytes p.offset
    p.step byte
  else .ok (.done bytes.length)

theorem ExpressionPlace.step_advances (p : ExpressionPlace) (byte : Char) :
    Yields (p.step byte) fun
      | .again next => p.offset < next.offset
      | .done stop => stop = p.offset + 1 := by
  unfold step
  split
  · split
    · exact yields_ok (Nat.lt_add_of_pos_right (by decide))
    split <;> exact yields_ok (Nat.lt_succ_self _)
  · split
    · exact yields_ok (Nat.lt_succ_self _)
    split
    · exact yields_ok (Nat.lt_succ_self _)
    split
    · refine (yields_true _).bind fun nesting _ => ?_
      split
      · exact yields_ok rfl
      · exact yields_ok (Nat.lt_succ_self _)
    · exact yields_ok (Nat.lt_succ_self _)

/-- As long as a brace is open, none is counted that is not. -/
theorem ExpressionPlace.gives_step {p : ExpressionPlace} (h : 0 < p.nesting) (byte : Char) :
    Gives (p.step byte) fun
      | .again next => 0 < next.nesting
      | .done _ => True := by
  unfold step
  split
  · split
    · exact gives_ok h
    split <;> exact gives_ok h
  · split
    · exact gives_ok h
    split
    · exact gives_ok (Nat.succ_pos _)
    split
    · obtain ⟨nesting, hnesting⟩ := Nat.exists_eq_succ_of_ne_zero (Nat.ne_of_gt h)
      rw [hnesting, countDown, ok_bind]
      split
      · exact gives_ok trivial
      · next hopen => exact gives_ok (Nat.pos_of_ne_zero hopen)
    · exact gives_ok h

/-- A round goes on from a later offset. -/
theorem expressionRound_advances (bytes : List UInt8) (p : ExpressionPlace) :
    Yields (expressionRound bytes p) fun
      | .again next => p.offset < bytes.length ∧ p.offset < next.offset
      | .done stop => (p.offset < stop ∨ bytes.length = stop) ∧ stop ≤ bytes.length := by
  unfold expressionRound
  split
  · next hin =>
    refine (yields_true _).bind fun byte _ => (p.step_advances byte).imp ?_
    rintro (next | stop) h
    · exact ⟨hin, h⟩
    · exact h ▸ ⟨.inl (Nat.lt_succ_self _), hin⟩
  · exact yields_ok ⟨.inr rfl, Nat.le_refl _⟩

def expressionLoop (bytes : List UInt8) : Loop ExpressionPlace Nat where
  round := expressionRound bytes
  left p := bytes.length - p.offset
  advances p := (expressionRound_advances bytes p).imp fun
    | .again _, h => by dsimp only at h ⊢; omega
    | .done _, _ => trivial

/-- The offset behind an expression that begins with a brace at the given one. -/
def skipExpression (bytes : List UInt8) (start : Nat) : Reading Nat :=
  (expressionLoop bytes).run ⟨0, none, start⟩

section Bytes

variable {bytes : List UInt8}

theorem byteAt_of_drop {offset : Nat} {b : UInt8} {y : List UInt8}
    (h : bytes.drop offset = b :: y) :
    offset < bytes.length ∧ byteAt bytes offset = .ok (Char.ofUInt8 b) := by
  have hget : bytes[offset]? = some b := by rw [← List.head?_drop, h]; rfl
  exact ⟨(List.getElem?_eq_some_iff.mp hget).1, by rw [byteAt, hget]⟩

theorem expressionRound_eq {offset : Nat} {b : UInt8} {y : List UInt8}
    (h : bytes.drop offset = b :: y) (nesting : Nat) (quote : Option Char) :
    expressionRound bytes ⟨nesting, quote, offset⟩ =
      ExpressionPlace.step ⟨nesting, quote, offset⟩ (Char.ofUInt8 b) := by
  obtain ⟨hin, hbyte⟩ := byteAt_of_drop h
  rw [expressionRound, if_pos hin, hbyte, ok_bind]

/-- What begins and ends nothing where the reader is. -/
def IsInert (quote : Option Char) (c : Char) : Prop :=
  match quote with
  | some q => c ≠ '\\' ∧ c ≠ q
  | none => isNeutral c = true

theorem step_of_isInert {quote : Option Char} {c : Char} (h : IsInert quote c)
    (nesting offset : Nat) :
    ExpressionPlace.step ⟨nesting, quote, offset⟩ c =
      .ok (.again ⟨nesting, quote, offset + 1⟩) := by
  cases quote with
  | some q => simp only [ExpressionPlace.step, if_neg h.1, if_neg h.2]
  | none =>
    obtain ⟨⟨hliteral, hopen⟩, hclose⟩ : (beginsLiteral c = false ∧ c ≠ '{') ∧ c ≠ '}' := by
      simpa [IsInert, isNeutral] using h
    simp only [ExpressionPlace.step, hliteral, if_neg hopen, if_neg hclose, Bool.false_eq_true,
      ↓reduceIte]

theorem isInert_of_not_isAscii (quote : Option Char) (hq : ∀ q ∈ quote, beginsLiteral q = true)
    {c : Char} (hc : ¬ IsAscii c) : IsInert quote c := by
  have hne {a : Char} (ha : IsAscii a) : c ≠ a := fun h => hc (h ▸ ha)
  have hliteral {q : Char} (h : beginsLiteral q = true) : IsAscii q := by
    simp only [beginsLiteral, isQuote, Bool.or_eq_true, decide_eq_true_eq] at h
    rcases h with (rfl | rfl) | rfl <;> decide
  cases quote with
  | some q => exact ⟨hne (by decide), hne (hliteral (hq q rfl))⟩
  | none =>
    have hnone : beginsLiteral c = false := by
      rw [Bool.eq_false_iff]
      exact fun h => hc (hliteral h)
    have hopen : c ≠ '{' := hne (by decide)
    have hclose : c ≠ '}' := hne (by decide)
    simp [IsInert, isNeutral, hnone, hopen, hclose]

/-- Bytes that begin and end nothing are passed over. -/
theorem run_pass {nesting offset : Nat} {quote : Option Char} {w y : List UInt8}
    (h : bytes.drop offset = w ++ y) (hw : ∀ b ∈ w, IsInert quote (Char.ofUInt8 b)) :
    (expressionLoop bytes).run ⟨nesting, quote, offset⟩ =
      (expressionLoop bytes).run ⟨nesting, quote, offset + w.length⟩ := by
  induction w generalizing offset with
  | nil => rfl
  | cons b w ih =>
    have hround := (expressionRound_eq h nesting quote).trans
      (step_of_isInert (hw b List.mem_cons_self) nesting offset)
    have hdrop : bytes.drop (offset + 1) = w ++ y := by rw [← List.drop_drop, h]; rfl
    rw [Loop.run_of_again hround, ih hdrop fun d hd => hw d (List.mem_cons_of_mem b hd),
      List.length_cons, Nat.add_right_comm, Nat.add_assoc]

end Bytes

/-- Where the reader of the bytes is when the reader of the characters, which takes a backslash by
itself, comes to an offset. -/
def placeOf (offset : Nat) : Standing → ExpressionPlace
  | .plain | .quoted _ => ⟨0, none, offset⟩
  | .braces depth => ⟨depth + 1, none, offset⟩
  | .literal depth quote => ⟨depth + 1, some quote, offset⟩
  | .escaped depth quote => ⟨depth + 1, some quote, offset + 1⟩

section Steps

variable {depth : Nat} {c : Char}

theorem step_braces (offset : Nat) (hn : ((Standing.braces depth).next c).isWithin = true) :
    ExpressionPlace.step ⟨depth + 1, none, offset⟩ c =
      .ok (.again (placeOf (offset + 1) ((Standing.braces depth).next c))) := by
  rw [Standing.next_braces] at hn ⊢
  by_cases hopen : c = '{'
  · subst hopen
    rfl
  by_cases hclose : c = '}'
  · subst hclose
    cases depth with
    | zero => cases hn
    | succ depth => rfl
  cases hliteral : beginsLiteral c <;>
    simp [ExpressionPlace.step, hopen, hclose, hliteral, placeOf]

theorem step_literal (offset : Nat) (quote : Char) :
    ExpressionPlace.step ⟨depth + 1, some quote, offset⟩ c =
      .ok (.again (placeOf (offset + 1) ((Standing.literal depth quote).next c))) := by
  by_cases hbackslash : c = '\\'
  · subst hbackslash
    rfl
  by_cases hquote : c = quote
  · subst hquote
    simp [ExpressionPlace.step, Standing.next, hbackslash, placeOf]
  · simp [ExpressionPlace.step, Standing.next, hbackslash, hquote, placeOf]

end Steps

section Following

variable {source s t : List Char} {offset : Nat} {c : Char} {standing : Standing}

theorem expressionRound_character (h : RestAt source offset (c :: t)) (hc : IsAscii c)
    (nesting : Nat) (quote : Option Char) :
    expressionRound (utf8 source) ⟨nesting, quote, offset⟩ =
      ExpressionPlace.step ⟨nesting, quote, offset⟩ c := by
  obtain ⟨b, hencode, rfl⟩ := utf8EncodeChar_of_isAscii hc
  have hdrop : (utf8 source).drop offset = b :: utf8 t := by
    rw [h.drop_utf8, utf8_cons, hencode]
    rfl
  exact expressionRound_eq hdrop nesting quote

theorem run_character {nesting : Nat} {quote : Option Char} (h : RestAt source offset (c :: t))
    (hq : ∀ q ∈ quote, beginsLiteral q = true) (hc : ¬ IsAscii c) :
    (expressionLoop (utf8 source)).run ⟨nesting, quote, offset⟩ =
      (expressionLoop (utf8 source)).run ⟨nesting, quote, offset + c.utf8Size⟩ := by
  rw [← String.length_utf8EncodeChar]
  exact run_pass h.drop_utf8 fun b hb =>
    isInert_of_not_isAscii _ hq (not_isAscii_of_mem_utf8EncodeChar hc b hb)

theorem run_braces {depth : Nat} (h : RestAt source offset (c :: t))
    (hn : ((Standing.braces depth).next c).isWithin = true) :
    (expressionLoop (utf8 source)).run ⟨depth + 1, none, offset⟩ =
      (expressionLoop (utf8 source)).run
        (placeOf (offset + c.utf8Size) ((Standing.braces depth).next c)) := by
  by_cases hc : IsAscii c
  · rw [utf8Size_of_isAscii hc]
    exact Loop.run_of_again ((expressionRound_character h hc _ _).trans (step_braces offset hn))
  · obtain ⟨⟨hliteral, hopen⟩, hclose⟩ : (beginsLiteral c = false ∧ c ≠ '{') ∧ c ≠ '}' := by
      simpa [IsInert, isNeutral] using isInert_of_not_isAscii none (by simp) hc
    rw [run_character h (by simp) hc, Standing.next_braces, if_neg hopen, if_neg hclose, hliteral]
    rfl

theorem run_literal {depth : Nat} {quote : Char} (h : RestAt source offset (c :: t))
    (hq : beginsLiteral quote = true) :
    (expressionLoop (utf8 source)).run ⟨depth + 1, some quote, offset⟩ =
      (expressionLoop (utf8 source)).run
        (placeOf (offset + c.utf8Size) ((Standing.literal depth quote).next c)) := by
  by_cases hc : IsAscii c
  · rw [utf8Size_of_isAscii hc]
    exact Loop.run_of_again ((expressionRound_character h hc _ _).trans (step_literal offset quote))
  · have hinert := isInert_of_not_isAscii (some quote) (by simpa using hq) hc
    rw [run_character h (by simpa using hq) hc, Standing.next, if_neg hinert.1, if_neg hinert.2]
    rfl

/-- Of the character after a backslash, the first byte is passed over with the backslash. -/
theorem run_escaped {depth : Nat} {quote : Char} (h : RestAt source offset (c :: t))
    (hq : beginsLiteral quote = true) :
    (expressionLoop (utf8 source)).run ⟨depth + 1, some quote, offset + 1⟩ =
      (expressionLoop (utf8 source)).run ⟨depth + 1, some quote, offset + c.utf8Size⟩ := by
  by_cases hc : IsAscii c
  · rw [utf8Size_of_isAscii hc]
  · obtain ⟨b, w, hencode⟩ := List.exists_cons_of_ne_nil (utf8EncodeChar_ne_nil c)
    have hdrop : (utf8 source).drop (offset + 1) = w ++ utf8 t := by
      rw [← List.drop_drop, h.drop_utf8, utf8_cons, hencode]
      rfl
    have hsize : offset + 1 + w.length = offset + c.utf8Size := by
      rw [← String.length_utf8EncodeChar, hencode, List.length_cons]
      omega
    rw [run_pass hdrop, hsize]
    intro d hd
    refine isInert_of_not_isAscii _ (by simpa using hq) ?_
    exact not_isAscii_of_mem_utf8EncodeChar hc d (hencode ▸ List.mem_cons_of_mem b hd)

/-- A character that leads on in an expression leads the reader of its bytes on. -/
theorem run_placeOf (h : RestAt source offset (c :: t)) (hw : standing.isWithin = true)
    (hq : standing.IsQuoted) (hn : (standing.next c).isWithin = true) :
    (expressionLoop (utf8 source)).run (placeOf offset standing) =
      (expressionLoop (utf8 source)).run (placeOf (offset + c.utf8Size) (standing.next c)) := by
  cases standing with
  | plain => cases hw
  | quoted => cases hw
  | braces depth => exact run_braces h hn
  | literal depth quote => exact run_literal h hq
  | escaped depth quote => exact run_escaped h hq

theorem closeBrace_go_cons (hn : (standing.next c).isWithin = true) (seen t : List Char) :
    closeBrace.go standing seen (c :: t) = closeBrace.go (standing.next c) (c :: seen) t := by
  rw [closeBrace.go]
  split
  · next hplain => simp [hplain, Standing.isWithin] at hn
  · rfl

/-- The reader of the bytes ends where the reader of the characters ends, or at the end of the
source. -/
theorem run_placeOf_gives (h : RestAt source offset s) (hw : standing.isWithin = true)
    (hq : standing.IsQuoted) (seen : List Char) :
    Gives ((expressionLoop (utf8 source)).run (placeOf offset standing)) fun stop =>
      RestAt source stop ((closeBrace.go standing seen s).elim [] Prod.snd) := by
  induction s generalizing standing offset seen with
  | nil =>
    have hlength : offset = (utf8 source).length := h.length_eq
    have hout : ¬ (placeOf offset standing).offset < (utf8 source).length := by
      cases standing <;> dsimp only [placeOf] <;> omega
    have hround : expressionRound (utf8 source) (placeOf offset standing) = .ok (.done offset) := by
      rw [expressionRound, if_neg hout, hlength]
    exact ⟨offset, Loop.run_of_done hround, h⟩
  | cons c s ih =>
    rcases Standing.next_isWithin (c := c) hw with hn | ⟨hn, rfl⟩
    · have hnext := ih h.next hn (Standing.isQuoted_next hq c)
        (c :: seen)
      rw [run_placeOf h hw hq hn, closeBrace_go_cons hn]
      exact hnext
    · obtain rfl : standing = .braces 0 := by
        cases standing with
        | plain => cases hw
        | quoted => cases hw
        | braces depth =>
          cases depth with
          | zero => rfl
          | succ depth => cases hn
        | literal depth quote =>
          simp only [Standing.next] at hn
          split at hn
          · cases hn
          · split at hn <;> cases hn
        | escaped depth quote => cases hn
      have hround := expressionRound_character h (by decide) 1 none
      refine ⟨offset + 1, Loop.run_of_done hround, ?_⟩
      exact h.tail (by decide)

/-- The reader of the bytes goes on behind the expression, or at the end of the source. -/
theorem skipExpression_gives (h : RestAt source offset ('{' :: s)) :
    Gives (skipExpression (utf8 source) offset) fun stop =>
      RestAt source stop ((closeBrace s).elim [] Prod.snd) := by
  have hround := expressionRound_character h (by decide) 0 none
  have hopen : skipExpression (utf8 source) offset =
      (expressionLoop (utf8 source)).run (placeOf (offset + 1) (.braces 0)) :=
    Loop.run_of_again hround
  rw [hopen]
  exact run_placeOf_gives (h.tail (by decide)) rfl
    (show Standing.IsQuoted (.braces 0) from trivial) []

end Following

theorem lt_of_skipExpression {bytes : List UInt8} {start : Nat} (h : start < bytes.length) :
    Yields (skipExpression bytes start) fun stop => start < stop := by
  let inv (p : ExpressionPlace) : Prop := start ≤ p.offset
  refine Loop.yields_run inv (fun p hp => ?_) (Nat.le_refl start)
  refine (expressionRound_advances bytes p).imp ?_
  rintro (next | stop) hround
  · exact Nat.le_trans hp (Nat.le_of_lt hround.2)
  · rcases hround.1 with hlt | rfl
    · exact Nat.lt_of_le_of_lt hp hlt
    · exact h

/-- Among any bytes a reader that a brace has brought into an expression makes no misstep. -/
theorem gives_skipExpression {bytes : List UInt8} {start : Nat}
    (h : bytes[start]? = some '{'.toUInt8) :
    Gives (skipExpression bytes start) fun stop => start < stop ∧ stop ≤ bytes.length := by
  obtain ⟨hstart, hbyte⟩ := List.getElem?_eq_some_iff.mp h
  have hdrop : bytes.drop start = '{'.toUInt8 :: bytes.drop (start + 1) := by
    rw [List.drop_eq_getElem_cons hstart, hbyte]
  have hopen : skipExpression bytes start = (expressionLoop bytes).run ⟨1, none, start + 1⟩ :=
    Loop.run_of_again (expressionRound_eq hdrop 0 none)
  let inv (p : ExpressionPlace) : Prop := 0 < p.nesting ∧ start < p.offset
  rw [hopen]
  refine Loop.gives_run inv (fun p hp => ?_) ⟨Nat.one_pos, Nat.lt_succ_self start⟩
  have hadvances := expressionRound_advances bytes p
  have hgives : Gives (expressionRound bytes p) fun
      | .again next => 0 < next.nesting
      | .done _ => True := by
    unfold expressionRound
    split
    · next hin => exact (gives_byteAt hin).bind fun byte _ => p.gives_step hp.1 byte
    · exact gives_ok trivial
  obtain ⟨round, hround, hnesting⟩ := hgives
  refine ⟨round, hround, ?_⟩
  have hoffset := hadvances round hround
  cases round with
  | again next => exact ⟨hnesting, Nat.lt_trans hp.2 hoffset.2⟩
  | done stop =>
    refine ⟨?_, hoffset.2⟩
    rcases hoffset.1 with hlt | rfl
    · exact Nat.lt_trans hp.2 hlt
    · exact hstart

/-- What a written expression takes up is skipped exactly, whatever is before and behind it, and
what is skipped at any brace is what the reader of characters takes for the expression there. Among
any bytes every round goes on to a later offset, and from a brace the reader comes to an end beyond
it without a misstep, so that no brace is counted down that is not open. -/
theorem skipExpression_exact :
    (∀ before after ts, ExpressionToken.AllWellFormed ts →
      skipExpression (utf8 (before ++ '{' :: (ExpressionToken.renderAll ts ++ '}' :: after)))
          (byteLength before) =
        .ok (byteLength (before ++ '{' :: (ExpressionToken.renderAll ts ++ ['}'])))) ∧
    (∀ source offset s, RestAt source offset ('{' :: s) →
      Gives (skipExpression (utf8 source) offset) fun stop =>
        RestAt source stop ((closeBrace s).elim [] Prod.snd)) ∧
    ∀ bytes,
      (∀ p next, expressionRound bytes p = .ok (.again next) →
        p.offset < bytes.length ∧ p.offset < next.offset) ∧
      ∀ start, bytes[start]? = some '{'.toUInt8 →
        ∃ stop, skipExpression bytes start = .ok stop ∧ start < stop ∧ stop ≤ bytes.length := by
  refine ⟨fun before after ts h => ?_, fun source offset s h => skipExpression_gives h,
    fun bytes => ⟨fun p next h => expressionRound_advances bytes p _ h,
      fun start h => gives_skipExpression h⟩⟩
  have hclose : closeBrace (ExpressionToken.renderAll ts ++ '}' :: after) =
      some (ExpressionToken.renderAll ts, after) :=
    closeBrace_of_leads (ExpressionToken.leads_renderAll h 0) after
  have hstart : RestAt (before ++ '{' :: (ExpressionToken.renderAll ts ++ '}' :: after))
      (byteLength before) ('{' :: (ExpressionToken.renderAll ts ++ '}' :: after)) :=
    ⟨before, rfl, rfl⟩
  obtain ⟨stop, hskip, hstop⟩ := skipExpression_gives hstart
  rw [hclose] at hstop
  have hlength := hstop.length_eq
  have hsource := hstart.length_eq
  rw [hskip]
  simp only [Option.elim_some, byteLength_append, byteLength_cons, byteLength_nil] at *
  congr 1
  omega

/-- An escaped character of three bytes, a brace and another quote in a string, and a group; around
the expression are characters of several bytes. -/
theorem skipExpression_exact_among_long_characters :
    let ts : List ExpressionToken :=
      [.literal '\x60' [.escaped '€', .plain '}', .plain '"'], .plain 'é',
        .group [.literal '\'' [.escaped '\'', .plain '{'], .plain '+']]
    ExpressionToken.AllWellFormed ts ∧
      skipExpression
          (utf8 ("😀".toList ++ '{' :: (ExpressionToken.renderAll ts ++ '}' :: "é".toList)))
          (byteLength "😀".toList) = .ok 24 := by
  intro ts
  have hw : ExpressionToken.AllWellFormed ts := by
    simp [ts, ExpressionToken.AllWellFormed, ExpressionToken.WellFormed, LiteralChar.WellFormed,
      beginsLiteral, isQuote, isNeutral]
  exact ⟨hw, skipExpression_exact.1 "😀".toList "é".toList ts hw⟩

end InlineComponents.Offsets
