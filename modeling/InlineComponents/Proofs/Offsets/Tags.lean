import InlineComponents.Proofs.Insertion
import InlineComponents.Proofs.Offsets.Expressions

namespace InlineComponents.Offsets

/-- Whether a byte at an offset is such a character. -/
def hasAt (p : Char → Bool) (bytes : List UInt8) (offset : Nat) : Bool :=
  bytes[offset]?.any fun byte => p (Char.ofUInt8 byte)

def isTagBoundary (bytes : List UInt8) (offset : Nat) : Bool :=
  hasAt isBoundary bytes offset

/-- Whether a name is read at an offset, and a boundary after it. -/
def isTagNamed (bytes : List UInt8) (offset : Nat) (name : List Char) : Bool :=
  (utf8 name).isPrefixOf (bytes.drop offset) && isTagBoundary bytes (offset + byteLength name)

theorem isAsciiClass_isBoundary : IsAsciiClass isBoundary := by
  intro c hc
  simp only [isBoundary, Bool.or_eq_true, decide_eq_true_eq] at hc
  rcases hc with ((((rfl | rfl) | rfl) | rfl) | rfl) | rfl <;> decide

theorem isAsciiClass_beq {c : Char} (hc : IsAscii c) : IsAsciiClass (· == c) := by
  intro d hd
  rwa [eq_of_beq hd]

section Characters

variable {source s t : List Char} {offset : Nat}

theorem RestAt.hasAt_eq {p : Char → Bool} (h : RestAt source offset s) (hp : IsAsciiClass p) :
    hasAt p (utf8 source) offset = s.head?.any p := by
  rw [hasAt, ← List.head?_drop, h.drop_utf8]
  cases s with
  | nil => rfl
  | cons c t =>
    obtain ⟨b, bytes, hencode⟩ := List.exists_cons_of_ne_nil (utf8EncodeChar_ne_nil c)
    have hb : p (Char.ofUInt8 b) = p c := by
      by_cases hc : IsAscii c
      · obtain ⟨d, hd, rfl⟩ := utf8EncodeChar_of_isAscii hc
        rw [hd] at hencode
        rw [(List.cons.inj hencode).1]
      · rw [hp.eq_false hc, hp.eq_false]
        exact not_isAscii_of_mem_utf8EncodeChar hc b (hencode ▸ List.mem_cons_self)
    rw [utf8_cons, hencode]
    exact hb

theorem RestAt.isTagNamed_eq {name : List Char} (h : RestAt source offset s)
    (hname : ∀ c ∈ name, IsAscii c) :
    isTagNamed (utf8 source) offset name = beginsTag name s := by
  rw [isTagNamed, h.drop_utf8, isPrefixOf_utf8 hname, beginsTag]
  cases hprefix : name.isPrefixOf s with
  | false => rfl
  | true =>
    obtain ⟨after, rfl⟩ := List.isPrefixOf_iff_prefix.mp hprefix
    rw [isTagBoundary, h.append.hasAt_eq isAsciiClass_isBoundary, List.drop_left]

/-- Whether the bytes begin with `</`, and are further such, where that is told by the text. -/
theorem isPrefixOf_closing_and {cs : List Char} {b : Bool} {p : List Char → Bool}
    (hb : ∀ t, cs = '/' :: t → b = p t) :
    ((utf8 ['<', '/']).isPrefixOf (utf8 ('<' :: cs)) && b) =
      (cs.head? = some '/' && p (cs.drop 1)) := by
  rw [isPrefixOf_utf8 (by simp [IsAscii])]
  cases cs with
  | nil => rfl
  | cons c t =>
    by_cases hc : c = '/'
    · subst hc
      simp [List.isPrefixOf, hb t rfl]
    · have hne : ('/' == c) = false := beq_false_of_ne (Ne.symm hc)
      simp [List.isPrefixOf, hne, hc]

theorem RestAt.behindName {name : List Char} (h : RestAt source offset s)
    (hs : beginsTag name s = true) :
    RestAt source (offset + byteLength name) (s.drop name.length) := by
  have hsplit := beginsTag_prefix hs
  rw [hsplit] at h
  exact h.append

theorem RestAt.offset_eq {other : Nat} (h : RestAt source offset s) (h' : RestAt source other s) :
    offset = other := by
  have hlength := h.length_eq
  rw [← h'.length_eq] at hlength
  omega

end Characters

/-- A tag is as long as what begins it, what it says and its `>`. -/
theorem byteLength_tag (opening inside : List Char) :
    byteLength (opening ++ inside ++ ['>']) = byteLength opening + byteLength inside + 1 := by
  rw [byteLength_append, byteLength_append]
  rfl

/-- The offset of the `>` that closes the tag of which the inside begins at an offset. -/
def closingAngle (bytes : List UInt8) (start : Nat) : Option Nat :=
  go none start (bytes.drop start)
where
  go (quote : Option Char) (offset : Nat) : List UInt8 → Option Nat
    | [] => none
    | byte :: bytes =>
      let c := Char.ofUInt8 byte
      if quote = none ∧ c = '>' then some offset else go (nextQuote quote c) (offset + 1) bytes

section ClosingAngle

variable {bytes w y : List UInt8} {quote : Option Char} {offset stop : Nat}

theorem byteAt_of_closingAngle (h : closingAngle bytes offset = some stop) :
    offset ≤ stop ∧ stop < bytes.length ∧ byteAt bytes stop = .ok '>' := by
  have hgo {quote : Option Char} {start : Nat} {y : List UInt8} (hdrop : bytes.drop start = y)
      (hgo : closingAngle.go quote start y = some stop) :
      start ≤ stop ∧ stop < bytes.length ∧ byteAt bytes stop = .ok '>' := by
    induction y generalizing start quote with
    | nil => cases hgo
    | cons b y ih =>
      obtain ⟨hin, hbyte⟩ := byteAt_of_drop hdrop
      rw [closingAngle.go] at hgo
      split at hgo
      · next hc =>
        obtain rfl := Option.some.inj hgo
        exact ⟨Nat.le_refl _, hin, hc.2 ▸ hbyte⟩
      · have hnext : bytes.drop (start + 1) = y := by rw [← List.drop_drop, hdrop]; rfl
        obtain ⟨hle, hrest⟩ := ih hnext hgo
        exact ⟨by omega, hrest⟩
  exact hgo rfl h

theorem nextQuote_of_not_isAscii {c : Char} (hq : ∀ q ∈ quote, IsAscii q) (hc : ¬ IsAscii c) :
    nextQuote quote c = quote := by
  cases quote with
  | some q =>
    have hne : c ≠ q := fun h => hc (h ▸ hq q rfl)
    simp [nextQuote, hne]
  | none =>
    have hnone : isQuote c = false := Bool.eq_false_iff.mpr fun h => hc (isAscii_of_isQuote h)
    simp [nextQuote, hnone]

theorem isAscii_of_mem_nextQuote {c : Char} (hq : ∀ q ∈ quote, IsAscii q) :
    ∀ q ∈ nextQuote quote c, IsAscii q := by
  intro q hmem
  cases quote with
  | some r =>
    simp only [nextQuote] at hmem
    split at hmem
    · cases hmem
    · exact hq q hmem
  | none =>
    simp only [nextQuote] at hmem
    split at hmem
    · next hquote =>
      exact Option.some.inj hmem ▸ isAscii_of_isQuote hquote
    · cases hmem

theorem closingAngle_go_append (hq : ∀ q ∈ quote, IsAscii q)
    (hw : ∀ b ∈ w, ¬ IsAscii (Char.ofUInt8 b)) :
    closingAngle.go quote offset (w ++ y) = closingAngle.go quote (offset + w.length) y := by
  induction w generalizing offset with
  | nil => rfl
  | cons b w ih =>
    have hb := hw b List.mem_cons_self
    have hno : ¬ (quote = none ∧ Char.ofUInt8 b = '>') := fun h => hb (h.2 ▸ by decide)
    rw [List.cons_append, closingAngle.go, if_neg hno, nextQuote_of_not_isAscii hq hb,
      ih fun d hd => hw d (List.mem_cons_of_mem b hd), List.length_cons, Nat.add_right_comm,
      Nat.add_assoc]

/-- One character, of one byte or of several. -/
theorem closingAngle_go_utf8_cons (hq : ∀ q ∈ quote, IsAscii q) (c : Char) (s : List Char) :
    closingAngle.go quote offset (utf8 (c :: s)) =
      if quote = none ∧ c = '>' then some offset
      else closingAngle.go (nextQuote quote c) (offset + c.utf8Size) (utf8 s) := by
  by_cases hc : IsAscii c
  · obtain ⟨b, hencode, hb⟩ := utf8EncodeChar_of_isAscii hc
    rw [utf8_cons, hencode, List.singleton_append, closingAngle.go, hb, utf8Size_of_isAscii hc]
  · have hno : ¬ (quote = none ∧ c = '>') := fun h => hc (h.2 ▸ by decide)
    rw [utf8_cons, closingAngle_go_append hq (not_isAscii_of_mem_utf8EncodeChar hc), if_neg hno,
      nextQuote_of_not_isAscii hq hc, String.length_utf8EncodeChar]

theorem closingAngle_go_utf8 (hq : ∀ q ∈ quote, IsAscii q) (start : Nat) (seen s : List Char) :
    closingAngle.go quote (start + byteLength seen.reverse) (utf8 s) =
      (closeAngle.go quote seen s).map fun closed => start + byteLength closed.1 := by
  induction s generalizing quote seen with
  | nil => rfl
  | cons c s ih =>
    have hrest := ih (isAscii_of_mem_nextQuote hq (c := c)) (c :: seen)
    rw [List.reverse_cons, byteLength_append, byteLength_cons, byteLength_nil, Nat.add_zero,
      ← Nat.add_assoc] at hrest
    rw [closingAngle_go_utf8_cons hq, closeAngle_go_cons, hrest]
    split <;> rfl

theorem RestAt.closingAngle_eq {source s : List Char} (h : RestAt source offset s) :
    closingAngle (utf8 source) offset =
      (closeAngle s).map fun closed => offset + byteLength closed.1 := by
  rw [closingAngle, h.drop_utf8]
  exact closingAngle_go_utf8 (by simp) offset [] s

end ClosingAngle

/-- One step to the end of a tag: over an expression, over a quoted value, or over a byte. -/
def tagEndRound (bytes : List UInt8) (offset : Nat) : Reading (Round Nat (Option Nat)) :=
  if offset < bytes.length then do
    let byte ← byteAt bytes offset
    if byte = '{' then do
      let next ← skipExpression bytes offset
      .ok (.again next)
    else if isQuote byte then do
      let quoted ← bytesFrom bytes (offset + 1)
      match findByte (· == byte) quoted with
      | some length => .ok (.again (offset + 1 + length + 1))
      | none => .ok (.done none)
    else if byte = '>' then .ok (.done (some offset))
    else .ok (.again (offset + 1))
  else .ok (.done none)

theorem tagEndRound_advances (bytes : List UInt8) (offset : Nat) :
    Yields (tagEndRound bytes offset) fun
      | .again next => offset < bytes.length ∧ offset < next
      | .done found => ∀ stop ∈ found, offset ≤ stop ∧ stop < bytes.length := by
  unfold tagEndRound
  split
  · next hin =>
    refine (yields_true _).bind fun byte _ => ?_
    split
    · exact (lt_of_skipExpression hin).bind fun next hnext => yields_ok ⟨hin, hnext⟩
    split
    · refine (yields_true _).bind fun quoted _ => ?_
      split
      · exact yields_ok ⟨hin, by omega⟩
      · exact yields_ok (by simp)
    split
    · refine yields_ok fun stop hstop => ?_
      obtain rfl := Option.some.inj hstop
      exact ⟨Nat.le_refl _, hin⟩
    · exact yields_ok ⟨hin, Nat.lt_succ_self _⟩
  · exact yields_ok (by simp)

def tagEndLoop (bytes : List UInt8) : Loop Nat (Option Nat) where
  round := tagEndRound bytes
  left offset := bytes.length - offset
  advances offset := (tagEndRound_advances bytes offset).imp fun
    | .again _, h => by dsimp only at h ⊢; omega
    | .done _, _ => trivial

/-- The offset of the `>` that ends a tag; a `>` in a quoted value or in an expression ends
nothing. -/
def tagEnd (bytes : List UInt8) (start : Nat) : Reading (Option Nat) :=
  (tagEndLoop bytes).run start

theorem le_of_tagEnd (bytes : List UInt8) (start : Nat) :
    Yields (tagEnd bytes start) fun found =>
      ∀ stop ∈ found, start ≤ stop ∧ stop < bytes.length := by
  refine Loop.yields_run (start ≤ ·) (fun offset h => ?_) (Nat.le_refl start)
  refine (tagEndRound_advances bytes offset).imp ?_
  rintro (next | found) hround
  · exact Nat.le_trans h (Nat.le_of_lt hround.2)
  · exact fun stop hstop => ⟨Nat.le_trans h (hround stop hstop).1, (hround stop hstop).2⟩

section TagEnd

/-- Behind an expression the reader of a tag goes on as it was before. -/
theorem closeTag_go_of_isWithin {standing : Standing} (hw : standing.isWithin = true)
    (seen inner s : List Char) :
    closeTag.go standing (inner ++ seen) s =
      match closeBrace.go standing inner s with
      | none => none
      | some (said, rest) => closeTag.go .plain ('}' :: (said.reverse ++ seen)) rest := by
  induction s generalizing standing inner with
  | nil => rfl
  | cons c s ih =>
    have hne := Standing.ne_plain_of_isWithin hw
    rw [closeTag.go, if_neg (by simp [hne])]
    rcases Standing.next_isWithin (c := c) hw with hn | ⟨hn, rfl⟩
    · rw [closeBrace_go_cons hn]
      exact ih hn (c :: inner)
    · rw [closeBrace.go, hn]
      simp

theorem closeTag_go_brace (seen s : List Char) :
    closeTag.go .plain seen ('{' :: s) =
      match closeBrace s with
      | none => none
      | some (said, rest) => closeTag.go .plain ('}' :: (said.reverse ++ '{' :: seen)) rest := by
  have hopen : closeTag.go .plain seen ('{' :: s) = closeTag.go (.braces 0) ('{' :: seen) s := rfl
  rw [hopen]
  exact closeTag_go_of_isWithin rfl ('{' :: seen) [] s

theorem closeTag_go_quoted (quote : Char) (seen : List Char) {s : List Char} (hs : quote ∉ s)
    (t : List Char) :
    closeTag.go (.quoted quote) seen (s ++ t) =
      closeTag.go (.quoted quote) (s.reverse ++ seen) t := by
  induction s generalizing seen with
  | nil => rfl
  | cons c s ih =>
    have hc : c ≠ quote := fun h => hs (h ▸ List.mem_cons_self)
    rw [List.cons_append, closeTag.go, if_neg (by simp), Standing.next, if_neg hc,
      ih _ fun h => hs (List.mem_cons_of_mem c h)]
    simp

theorem closeTag_go_plain {c : Char} (hbrace : c ≠ '{') (hquote : isQuote c = false)
    (hangle : c ≠ '>') (seen s : List Char) :
    closeTag.go .plain seen (c :: s) = closeTag.go .plain (c :: seen) s := by
  rw [closeTag.go, if_neg (by simp [hangle]), Standing.next, if_neg hbrace, hquote]
  rfl

theorem closeTag_go_quote {quote : Char} (hquote : isQuote quote = true) (seen s : List Char) :
    closeTag.go .plain seen (quote :: s) = closeTag.go (.quoted quote) (quote :: seen) s := by
  have hne : quote ≠ '>' ∧ quote ≠ '{' := by
    simp only [isQuote, Bool.or_eq_true, decide_eq_true_eq] at hquote
    rcases hquote with rfl | rfl <;> decide
  rw [closeTag.go, if_neg (by simp [hne.1]), Standing.next, if_neg hne.2, if_pos hquote]

variable {source s t : List Char} {offset : Nat} {c : Char}

theorem tagEndRound_quote (h : RestAt source offset (c :: t)) (hquote : isQuote c = true) :
    tagEndRound (utf8 source) offset = .ok (match findByte (· == c) (utf8 t) with
      | some length => .again (offset + 1 + length + 1)
      | none => .done none) := by
  have hc : IsAscii c ∧ c ≠ '{' := by
    simp only [isQuote, Bool.or_eq_true, decide_eq_true_eq] at hquote
    rcases hquote with rfl | rfl <;> decide
  rw [tagEndRound, if_pos h.lt_length, h.byteAt_eq hc.1, ok_bind, if_neg hc.2, if_pos hquote,
    (h.tail hc.1).bytesFrom_eq, ok_bind]
  split <;> rfl

/-- Bytes that begin and end nothing are passed over one by one. -/
theorem tagEnd_pass {bytes w y : List UInt8} (h : bytes.drop offset = w ++ y)
    (hw : ∀ b ∈ w, Char.ofUInt8 b ≠ '{' ∧ isQuote (Char.ofUInt8 b) = false ∧ Char.ofUInt8 b ≠ '>') :
    (tagEndLoop bytes).run offset = (tagEndLoop bytes).run (offset + w.length) := by
  induction w generalizing offset with
  | nil => rfl
  | cons b w ih =>
    obtain ⟨hbrace, hquote, hangle⟩ := hw b List.mem_cons_self
    obtain ⟨hin, hbyte⟩ := byteAt_of_drop h
    have hround : tagEndRound bytes offset = .ok (.again (offset + 1)) := by
      rw [tagEndRound, if_pos hin, hbyte, ok_bind, if_neg hbrace, hquote, if_neg Bool.false_ne_true,
        if_neg hangle]
    have hdrop : bytes.drop (offset + 1) = w ++ y := by rw [← List.drop_drop, h]; rfl
    rw [Loop.run_of_again hround, ih hdrop fun d hd => hw d (List.mem_cons_of_mem b hd),
      List.length_cons, Nat.add_right_comm, Nat.add_assoc]

theorem tagEnd_plain (h : RestAt source offset (c :: t)) (hbrace : c ≠ '{')
    (hquote : isQuote c = false) (hangle : c ≠ '>') :
    (tagEndLoop (utf8 source)).run offset =
      (tagEndLoop (utf8 source)).run (offset + byteLength [c]) := by
  rw [byteLength_cons, byteLength_nil, Nat.add_zero, ← String.length_utf8EncodeChar]
  refine tagEnd_pass h.drop_utf8 fun b hb => ?_
  by_cases hc : IsAscii c
  · obtain ⟨d, hencode, rfl⟩ := utf8EncodeChar_of_isAscii hc
    rw [hencode, List.mem_singleton] at hb
    exact hb ▸ ⟨hbrace, hquote, hangle⟩
  · have hno := not_isAscii_of_mem_utf8EncodeChar hc b hb
    have hne {d : Char} (hd : IsAscii d) : Char.ofUInt8 b ≠ d := fun he => hno (he ▸ hd)
    refine ⟨hne (by decide), ?_, hne (by decide)⟩
    simp [isQuote, hne (d := '"') (by decide), hne (d := '\'') (by decide)]

theorem tagEnd_angle (h : RestAt source offset ('>' :: t)) :
    (tagEndLoop (utf8 source)).run offset = .ok (some offset) := by
  have hround : tagEndRound (utf8 source) offset = .ok (.done (some offset)) := by
    rw [tagEndRound, if_pos h.lt_length, h.byteAt_eq (by decide), ok_bind, if_neg (by decide),
      if_neg (by decide), if_pos rfl]
  exact Loop.run_of_done hround

theorem tagEnd_nil (h : RestAt source offset []) :
    (tagEndLoop (utf8 source)).run offset = .ok none := by
  have hlength : offset = (utf8 source).length := h.length_eq
  have hround : tagEndRound (utf8 source) offset = .ok (.done none) := by
    rw [tagEndRound, if_neg (by omega)]
  exact Loop.run_of_done hround

theorem tagEnd_quoted {value : List Char} (h : RestAt source offset (c :: (value ++ c :: t)))
    (hquote : isQuote c = true) (hc : IsAscii c) (hvalue : c ∉ value) :
    (tagEndLoop (utf8 source)).run offset =
      (tagEndLoop (utf8 source)).run (offset + byteLength (c :: value ++ [c])) := by
  have hfind : findByte (· == c) (utf8 (value ++ c :: t)) = some (byteLength value) :=
    findByte_utf8_of_pos (isAsciiClass_beq hc)
      (fun d hd => beq_false_of_ne fun he => hvalue (he ▸ hd)) BEq.rfl
  have hround := tagEndRound_quote h hquote
  rw [hfind] at hround
  have hoffset : offset + byteLength (c :: value ++ [c]) = offset + 1 + byteLength value + 1 := by
    simp [utf8Size_of_isAscii hc]
    omega
  rw [Loop.run_of_again hround, hoffset]

theorem tagEnd_unquoted (h : RestAt source offset (c :: t)) (hquote : isQuote c = true)
    (hc : IsAscii c) (ht : c ∉ t) : (tagEndLoop (utf8 source)).run offset = .ok none := by
  have hfind : findByte (· == c) (utf8 t) = none :=
    findByte_utf8_eq_none (isAsciiClass_beq hc) fun d hd => beq_false_of_ne fun he => ht (he ▸ hd)
  have hround := tagEndRound_quote h hquote
  rw [hfind] at hround
  exact Loop.run_of_done hround

theorem tagEnd_brace (h : RestAt source offset ('{' :: t)) :
    (tagEndLoop (utf8 source)).run offset =
      match closeBrace t with
      | none => .ok none
      | some (said, _) =>
        (tagEndLoop (utf8 source)).run (offset + byteLength ('{' :: said ++ ['}'])) := by
  obtain ⟨next, hskip, hnext⟩ := skipExpression_gives h
  have hround : tagEndRound (utf8 source) offset = .ok (.again next) := by
    rw [tagEndRound, if_pos h.lt_length, h.byteAt_eq (by decide), ok_bind, if_pos rfl, hskip,
      ok_bind]
  rw [Loop.run_of_again hround]
  cases hclose : closeBrace t with
  | none =>
    rw [hclose] at hnext
    exact tagEnd_nil hnext
  | some closed =>
    obtain ⟨said, rest⟩ := closed
    rw [hclose] at hnext
    have hsplit : '{' :: t = ('{' :: said ++ ['}']) ++ rest := by simp [closeBrace_append hclose]
    rw [hsplit] at h
    rw [hnext.offset_eq h.append]

/-- The reader of the bytes and the reader of the characters find the same end of a tag. -/
theorem tagEnd_go (start : Nat) (seen : List Char)
    (h : RestAt source (start + byteLength seen.reverse) s) :
    (tagEndLoop (utf8 source)).run (start + byteLength seen.reverse) =
      .ok ((closeTag.go .plain seen s).map fun closed => start + byteLength closed.1) := by
  induction hn : s.length using Nat.strong_induction_on generalizing s seen with
  | _ n ih =>
  subst hn
  -- both go on behind a text that they pass over
  have pass (text rest : List Char) (hs : s = text ++ rest) (hne : text ≠ []) :
      (tagEndLoop (utf8 source)).run (start + byteLength seen.reverse + byteLength text) =
        .ok ((closeTag.go .plain (text.reverse ++ seen) rest).map
          fun closed => start + byteLength closed.1) := by
    have hrest := (hs ▸ h).append
    have hlt : rest.length < s.length := by
      have := List.length_pos_iff.mpr hne
      rw [hs, List.length_append]
      omega
    have hoffset : start + byteLength seen.reverse + byteLength text =
        start + byteLength (text.reverse ++ seen).reverse := by
      simp [Nat.add_assoc]
    rw [hoffset] at hrest ⊢
    exact ih _ hlt _ hrest rfl
  cases s with
  | nil => exact tagEnd_nil h
  | cons c t =>
    by_cases hbrace : c = '{'
    · subst hbrace
      rw [tagEnd_brace h, closeTag_go_brace]
      cases hclose : closeBrace t with
      | none => rfl
      | some closed =>
        obtain ⟨said, rest⟩ := closed
        have hrest := pass ('{' :: said ++ ['}']) rest
          (by simp [closeBrace_append hclose]) (by simp)
        simpa using hrest
    cases hquote : isQuote c with
    | true =>
      have hc : IsAscii c := isAscii_of_isQuote hquote
      rw [closeTag_go_quote hquote]
      by_cases hmem : c ∈ t
      · obtain ⟨value, rest, rfl, hvalue⟩ := List.eq_append_cons_of_mem hmem
        have hrest := pass (c :: value ++ [c]) rest (by simp) (by simp)
        rw [tagEnd_quoted h hquote hc hvalue, hrest, closeTag_go_quoted c _ hvalue, closeTag.go,
          if_neg (by simp), Standing.next, if_pos rfl]
        simp
      · have hnone := closeTag_go_quoted c (c :: seen) hmem []
        rw [List.append_nil] at hnone
        rw [tagEnd_unquoted h hquote hc hmem, hnone]
        rfl
    | false =>
      by_cases hangle : c = '>'
      · subst hangle
        rw [tagEnd_angle h]
        rfl
      · rw [tagEnd_plain h hbrace hquote hangle, closeTag_go_plain hbrace hquote hangle]
        exact pass [c] t rfl (by simp)

theorem RestAt.tagEnd_eq (h : RestAt source offset s) :
    tagEnd (utf8 source) offset =
      .ok ((closeTag s).map fun closed => offset + byteLength closed.1) :=
  tagEnd_go offset [] h

end TagEnd

end InlineComponents.Offsets
