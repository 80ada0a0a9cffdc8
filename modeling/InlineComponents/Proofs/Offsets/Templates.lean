import InlineComponents.Proofs.BracedBodies
import InlineComponents.Proofs.Offsets.Attributes
import InlineComponents.Proofs.Offsets.RawElements
import InlineComponents.Proofs.Scan

namespace InlineComponents.Offsets

inductive TagKind where
  | opening (name : Option String) (selfClosing : Bool)
  | closing
  deriving DecidableEq, Repr

/-- A template tag, with the offsets of its `<` and of what follows its `>`. -/
structure Tag where
  kind : TagKind
  start : Nat
  stop : Nat
  deriving DecidableEq, Repr

def templateName : List Char := ['t', 'e', 'm', 'p', 'l', 'a', 't', 'e']

/-- An opening tag with the name that it declares, given where its inside lies. -/
def openingTag (source : String) (lt start close : Nat) : Reading Tag := do
  let attributes ← cut source start close
  let name ← readName attributes
  .ok ⟨.opening name (isSelfClosing attributes.toList), lt, close + 1⟩

/-- What begins at a `<`: a template tag, or something behind which the search goes on. A comment or
a template tag that is not closed ends the search. -/
def markupAt (source : String) (lt : Nat) : Reading (Round Nat (Option Tag)) := do
  let bytes := utf8 source.toList
  let rest ← bytesFrom bytes lt
  if (utf8 commentStart).isPrefixOf rest then do
    let said ← bytesFrom rest (byteLength commentStart)
    match findBytes (utf8 commentEnd) said with
    | some length => .ok (.again (lt + byteLength commentStart + length + byteLength commentEnd))
    | none => .ok (.done none)
  else do
    match ← skipRaw bytes lt with
    | some stop => .ok (.again stop)
    | none =>
      if (utf8 ['<', '/']).isPrefixOf rest && isTagNamed bytes (lt + 2) templateName then
        match closingAngle bytes (lt + 2 + byteLength templateName) with
        | some close => .ok (.done (some ⟨.closing, lt, close + 1⟩))
        | none => .ok (.done none)
      else if isTagNamed bytes (lt + 1) templateName then
        match closingAngle bytes (lt + 1 + byteLength templateName) with
        | some close => do
          let tag ← openingTag source lt (lt + 1 + byteLength templateName) close
          .ok (.done (some tag))
        | none => .ok (.done none)
      else .ok (.again (lt + 1))

def templateRound (source : String) (offset : Nat) : Reading (Round Nat (Option Tag)) :=
  let bytes := utf8 source.toList
  if offset < bytes.length then do
    let ahead ← bytesFrom bytes offset
    match findByte (· = '<') ahead with
    | some length => markupAt source (offset + length)
    | none => .ok (.done none)
  else .ok (.done none)

/-- The tag lies in the source, not before the offset, and begins and ends with its angles. -/
structure Tag.Within (tag : Tag) (source : String) (offset : Nat) : Prop where
  behind : offset ≤ tag.start
  forward : tag.start < tag.stop
  inside : tag.stop ≤ (utf8 source.toList).length
  opened : byteAt (utf8 source.toList) tag.start = .ok '<'
  closed : byteAt (utf8 source.toList) (tag.stop - 1) = .ok '>'

section Advance

variable {source : String} {lt : Nat}

/-- What a search comes to at a `<`. -/
def Proceeds (source : String) (lt : Nat) : Round Nat (Option Tag) → Prop
  | .again next => lt < next
  | .done found => ∀ tag ∈ found, tag.Within source lt

theorem within_of_closingAngle {kind : TagKind} {start close : Nat}
    (hlt : byteAt (utf8 source.toList) lt = .ok '<') (hstart : lt ≤ start)
    (hclose : closingAngle (utf8 source.toList) start = some close) :
    (⟨kind, lt, close + 1⟩ : Tag).Within source lt := by
  obtain ⟨hle, hin, hangle⟩ := byteAt_of_closingAngle hclose
  exact ⟨Nat.le_refl _, by dsimp only; omega, hin, hlt, hangle⟩

theorem markupAt_proceeds (hlt : byteAt (utf8 source.toList) lt = .ok '<') :
    Yields (markupAt source lt) (Proceeds source lt) := by
  have hin : lt < (utf8 source.toList).length := lt_of_byteAt hlt
  refine (yields_true _).bind fun rest _ => ?_
  split
  · refine (yields_true _).bind fun said _ => ?_
    split
    · exact yields_ok (show lt < _ by rw [show byteLength commentStart = 4 from rfl]; omega)
    · exact yields_ok (by simp [Proceeds])
  refine (lt_of_skipRaw hin).bind fun found hfound => ?_
  split
  · next stop => exact yields_ok (hfound stop rfl).1
  split
  · split
    · next close hclose =>
      refine yields_ok fun tag htag => ?_
      obtain rfl := Option.some.inj htag
      exact within_of_closingAngle hlt (by omega) hclose
    · exact yields_ok (by simp [Proceeds])
  split
  · split
    · next close hclose =>
      refine Yields.bind (p := (Tag.Within · source lt)) ?_ fun tag htag => yields_ok ?_
      · refine (yields_true _).bind fun attributes _ => (yields_true _).bind fun name _ => ?_
        exact yields_ok (within_of_closingAngle hlt (by omega) hclose)
      · intro other hother
        obtain rfl := Option.some.inj hother
        exact htag
    · exact yields_ok (by simp [Proceeds])
  · exact yields_ok (Nat.lt_succ_self lt)

theorem Tag.Within.mono {tag : Tag} {offset : Nat} (h : tag.Within source lt) (hle : offset ≤ lt) :
    tag.Within source offset :=
  ⟨Nat.le_trans hle h.behind, h.forward, h.inside, h.opened, h.closed⟩

/-- A round of the search goes on from a later offset, or ends with a tag behind its own. -/
theorem templateRound_advances (source : String) (offset : Nat) :
    Yields (templateRound source offset) fun
      | .again next => offset < (utf8 source.toList).length ∧ offset < next
      | .done found => ∀ tag ∈ found, tag.Within source offset := by
  unfold templateRound
  dsimp only
  split
  · next hin =>
    rw [bytesFrom, if_pos (Nat.le_of_lt hin), ok_bind]
    split
    · next length hlength =>
      have hlt : byteAt (utf8 source.toList) (offset + length) = .ok '<' :=
        byteAt_of_findByte hlength
      refine (markupAt_proceeds hlt).imp ?_
      rintro (next | found) h
      · exact ⟨hin, Nat.lt_of_le_of_lt (Nat.le_add_right ..) h⟩
      · exact fun tag htag => (h tag htag).mono (Nat.le_add_right ..)
    · exact yields_ok (by simp)
  · exact yields_ok (by simp)

end Advance

def templateLoop (source : String) : Loop Nat (Option Tag) where
  round := templateRound source
  left offset := (utf8 source.toList).length - offset
  advances offset := (templateRound_advances source offset).imp fun
    | .again _, h => by dsimp only at h ⊢; omega
    | .done _, _ => trivial

/-- The first template tag from an offset on. -/
def nextTag (source : String) (offset : Nat) : Reading (Option Tag) :=
  (templateLoop source).run offset

theorem nextTag_within (source : String) (offset : Nat) :
    Yields (nextTag source offset) fun found => ∀ tag ∈ found, tag.Within source offset := by
  refine Loop.yields_run (offset ≤ ·) (fun next h => ?_) (Nat.le_refl offset)
  refine (templateRound_advances source next).imp ?_
  rintro (later | found) hround
  · exact Nat.le_trans h (Nat.le_of_lt hround.2)
  · exact fun tag htag => (hround tag htag).mono h

/-- What a piece is told by if it is a tag. -/
def tagKind? : Piece → Option TagKind
  | .text _ => none
  | .opening inside => some (.opening (declaredIn inside) (isSelfClosing inside))
  | .closing _ => some .closing

def asTag? (placed : PlacedTag) : Option Tag :=
  (tagKind? placed.tag).map fun kind => ⟨kind, placed.start, placed.stop⟩

/-- The first tag among pieces that begin at an offset. -/
def firstTag (offset : Nat) (ps : List Piece) : Option Tag :=
  (placeTags offset ps).head?.bind asTag?

section Characters

variable {source : String} {s t : List Char} {lt offset : Nat}

theorem firstTag_text (offset : Nat) (chars : List Char) (ps : List Piece) :
    firstTag offset (.text chars :: ps) = firstTag (offset + byteLength chars) ps := rfl

theorem firstTag_opening (offset : Nat) (inside : List Char) (ps : List Piece) :
    firstTag offset (.opening inside :: ps) =
      some ⟨.opening (declaredIn inside) (isSelfClosing inside), offset,
        offset + byteLength (Piece.opening inside).render⟩ := rfl

theorem firstTag_closing (offset : Nat) (inside : List Char) (ps : List Piece) :
    firstTag offset (.closing inside :: ps) =
      some ⟨.closing, offset, offset + byteLength (Piece.closing inside).render⟩ := rfl

/-- Behind text at which no markup begins the same tag comes first. -/
theorem firstTag_append (h : ∀ rest, rest <:+ s → rest ≠ [] → markup? (rest ++ t) = none)
    (offset : Nat) :
    firstTag offset (pieces (s ++ t)) = firstTag (offset + byteLength s) (pieces t) := by
  rw [firstTag, firstTag, placeTags_pieces_append h]

theorem isAscii_of_mem_templateName : ∀ c ∈ templateName, IsAscii c := by
  simp [templateName, IsAscii]

/-- Where a search goes on or ends is where the reader of the pieces does so: it has read the first
piece of the text. -/
def Follows (source : String) (lt : Nat) (s : List Char) : Round Nat (Option Tag) → Prop
  | .again next => ∃ t, t.length < s.length ∧ RestAt source.toList next t ∧
      firstTag lt (pieces s) = firstTag next (pieces t)
  | .done found => found = firstTag lt (pieces s)

/-- The first piece of a text is the markup that begins it. -/
theorem firstTag_read {m : Markup} (hm : markup? s = some m) (lt : Nat) :
    firstTag lt (pieces s) = firstTag lt ((m.read s).1 :: pieces (m.read s).2) := by
  have hs : s ≠ [] := by
    rintro rfl
    cases hm
  rw [pieces_of_ne_nil hs, nextPiece_eq_read hm]

/-- A markup that is read as text has no tag, and the search goes on behind it. -/
theorem follows_text {m : Markup} {next : Nat} {chars rest : List Char}
    (hm : markup? s = some m) (hread : m.read s = (.text chars, rest))
    (h : RestAt source.toList lt s) (hnext : RestAt source.toList next rest) :
    Follows source lt s (.again next) := by
  have hs : chars ++ rest = s := by
    have happend := Markup.read_append hm
    rwa [hread] at happend
  have hne : chars ≠ [] := by
    have hne := Markup.read_ne_nil hm
    rwa [hread] at hne
  have hlength : rest.length < s.length := by
    have := List.length_pos_iff.mpr hne
    rw [← hs, List.length_append]
    omega
  refine ⟨rest, hlength, hnext, ?_⟩
  rw [← hs] at h
  rw [firstTag_read hm, hread, firstTag_text, hnext.offset_eq h.append]

/-- A markup of which there is no end has no tag. -/
theorem firstTag_of_read_nil {m : Markup} (hm : markup? s = some m)
    (hread : m.read s = (.text s, [])) : none = firstTag lt (pieces s) := by
  rw [firstTag_read hm, hread, pieces_nil]
  rfl

theorem markupAt_comment (h : RestAt source.toList lt (commentStart ++ t)) :
    Gives (markupAt source lt) (Follows source lt (commentStart ++ t)) := by
  have hm := markup?_comment t
  have hprefix : commentStart.isPrefixOf (commentStart ++ t) = true :=
    List.isPrefixOf_iff_prefix.mpr (List.prefix_append _ _)
  have hsaid : bytesFrom (utf8 (commentStart ++ t)) (byteLength commentStart) = .ok (utf8 t) :=
    RestAt.bytesFrom_eq ⟨commentStart, rfl, rfl⟩
  rw [markupAt, h.bytesFrom_eq, ok_bind, isPrefixOf_utf8 isAscii_of_mem_commentStart, hprefix,
    if_pos rfl, hsaid, ok_bind, findBytes_commentEnd]
  cases hclose : closeComment t with
  | none =>
    refine gives_ok (firstTag_of_read_nil hm ?_)
    rw [Markup.read, List.drop_left, hclose]
  | some closed =>
    obtain ⟨said, rest⟩ := closed
    have hread : Markup.comment.read (commentStart ++ t) =
        (.text (commentStart ++ said ++ commentEnd), rest) := by
      rw [Markup.read, List.drop_left, hclose]
    exact gives_ok (follows_text hm hread h (h.behindComment hclose))

theorem markupAt_raw {tag : RawTag} (h : RestAt source.toList lt ('<' :: t))
    (hcomment : commentStart.isPrefixOf ('<' :: t) = false)
    (hraw : rawTag? ('<' :: t) = some tag) :
    Gives (markupAt source lt) (Follows source lt ('<' :: t)) := by
  have hm : markup? ('<' :: t) = some (.raw tag) := by rw [markup?, hcomment, hraw]; rfl
  obtain ⟨stop, hskip, hstop⟩ := h.skipRaw_gives hraw
  rw [markupAt, h.bytesFrom_eq, ok_bind, isPrefixOf_utf8 isAscii_of_mem_commentStart, hcomment,
    if_neg Bool.false_ne_true, hskip, ok_bind]
  obtain ⟨chars, hread⟩ : ∃ chars, (Markup.raw tag).read ('<' :: t) =
      (.text chars, afterRaw tag ('<' :: t)) := by
    rw [← read_raw_snd, Markup.read]
    cases closeAngle (('<' :: t).drop ('<' :: tag.name).length) with
    | none => exact ⟨_, rfl⟩
    | some closed => exact ⟨_, rfl⟩
  exact gives_ok (follows_text hm hread h hstop)

/-- A search at a `<` where neither a comment nor a raw element begins. -/
theorem markupAt_tag (h : RestAt source.toList lt ('<' :: t))
    (hcomment : commentStart.isPrefixOf ('<' :: t) = false) (hraw : rawTag? ('<' :: t) = none) :
    markupAt source lt =
      if beginsTag templateClosing ('<' :: t) then
        match closingAngle (utf8 source.toList) (lt + 2 + byteLength templateName) with
        | some close => .ok (.done (some ⟨.closing, lt, close + 1⟩))
        | none => .ok (.done none)
      else if beginsTag templateOpening ('<' :: t) then
        match closingAngle (utf8 source.toList) (lt + 1 + byteLength templateName) with
        | some close => do
          let tag ← openingTag source lt (lt + 1 + byteLength templateName) close
          .ok (.done (some tag))
        | none => .ok (.done none)
      else .ok (.again (lt + 1)) := by
  have ht := h.tail (by decide)
  have hclosing : ((utf8 ['<', '/']).isPrefixOf (utf8 ('<' :: t)) &&
      isTagNamed (utf8 source.toList) (lt + 2) templateName) =
        (t.head? = some '/' && beginsTag templateName (t.drop 1)) := by
    refine isPrefixOf_closing_and fun u hu => ?_
    have hslash := (hu ▸ ht).tail (by decide)
    exact hslash.isTagNamed_eq isAscii_of_mem_templateName
  have hbegins : beginsTag templateClosing ('<' :: t) =
      (t.head? = some '/' && beginsTag templateName (t.drop 1)) := by
    rw [templateClosing, beginsTag_cons]
    cases t with
    | nil => rfl
    | cons c u =>
      rw [beginsTag_cons]
      by_cases hc : c = '/'
      · simp [hc, templateName]
      · have hne : ('/' == c) = false := beq_false_of_ne (Ne.symm hc)
        simp [hc, hne]
  have hopening : isTagNamed (utf8 source.toList) (lt + 1) templateName =
      beginsTag templateOpening ('<' :: t) := by
    rw [ht.isTagNamed_eq isAscii_of_mem_templateName, templateOpening, beginsTag_cons]
    rfl
  rw [markupAt, h.bytesFrom_eq, ok_bind, isPrefixOf_utf8 isAscii_of_mem_commentStart, hcomment,
    if_neg Bool.false_ne_true, h.skipRaw_eq_none hraw, ok_bind]
  dsimp only
  rw [hclosing, ← hbegins, hopening]

theorem markupAt_closing (h : RestAt source.toList lt ('<' :: t))
    (hcomment : commentStart.isPrefixOf ('<' :: t) = false) (hraw : rawTag? ('<' :: t) = none)
    (hbegins : beginsTag templateClosing ('<' :: t) = true) :
    Gives (markupAt source lt) (Follows source lt ('<' :: t)) := by
  have hm : markup? ('<' :: t) = some (.template templateClosing .closing) := by
    rw [markup?_cons_of_ne hcomment hraw, if_pos hbegins]
  have hinside : RestAt source.toList (lt + 2 + byteLength templateName)
      (('<' :: t).drop templateClosing.length) := h.behindName hbegins
  rw [markupAt_tag h hcomment hraw, if_pos hbegins, hinside.closingAngle_eq]
  cases hclose : closeAngle (('<' :: t).drop templateClosing.length) with
  | none => exact gives_ok (firstTag_of_read_nil hm (by rw [Markup.read, hclose]))
  | some closed =>
    obtain ⟨inside, rest⟩ := closed
    have hread : (Markup.template templateClosing .closing).read ('<' :: t) =
        (.closing inside, rest) := by rw [Markup.read, hclose]
    have hname : byteLength templateClosing = 2 + byteLength templateName := rfl
    have hstop : lt + 2 + byteLength templateName + byteLength inside + 1 =
        lt + byteLength (Piece.closing inside).render := by
      rw [Piece.render, byteLength_tag, hname]
      omega
    refine gives_ok ?_
    rw [Follows, firstTag_read hm, hread, firstTag_closing, ← hstop]

theorem readName_eq (inside : List Char) :
    readName (String.ofList inside) = .ok (declaredIn inside) := by
  rw [readName, findAttribute_eq, String.toList_ofList, String.toList_ofList]
  rfl

theorem openingTag_eq {start : Nat} {inside rest : List Char}
    (h : RestAt source.toList start (inside ++ rest)) (lt : Nat) :
    openingTag source lt start (start + byteLength inside) =
      .ok ⟨.opening (declaredIn inside) (isSelfClosing inside), lt,
        start + byteLength inside + 1⟩ := by
  rw [openingTag, h.cut_eq, ok_bind, readName_eq, ok_bind, String.toList_ofList]

theorem markupAt_opening (h : RestAt source.toList lt ('<' :: t))
    (hcomment : commentStart.isPrefixOf ('<' :: t) = false) (hraw : rawTag? ('<' :: t) = none)
    (hclosing : beginsTag templateClosing ('<' :: t) = false)
    (hbegins : beginsTag templateOpening ('<' :: t) = true) :
    Gives (markupAt source lt) (Follows source lt ('<' :: t)) := by
  have hm : markup? ('<' :: t) = some (.template templateOpening .opening) := by
    rw [markup?_cons_of_ne hcomment hraw, hclosing, if_neg Bool.false_ne_true, if_pos hbegins]
  have hinside : RestAt source.toList (lt + 1 + byteLength templateName)
      (('<' :: t).drop templateOpening.length) := h.behindName hbegins
  rw [markupAt_tag h hcomment hraw, hclosing, if_neg Bool.false_ne_true, if_pos hbegins,
    hinside.closingAngle_eq]
  cases hclose : closeAngle (('<' :: t).drop templateOpening.length) with
  | none => exact gives_ok (firstTag_of_read_nil hm (by rw [Markup.read, hclose]))
  | some closed =>
    obtain ⟨inside, rest⟩ := closed
    have hread : (Markup.template templateOpening .opening).read ('<' :: t) =
        (.opening inside, rest) := by rw [Markup.read, hclose]
    have hname : byteLength templateOpening = 1 + byteLength templateName := rfl
    have hstop : lt + 1 + byteLength templateName + byteLength inside + 1 =
        lt + byteLength (Piece.opening inside).render := by
      rw [Piece.render, byteLength_tag, hname]
      omega
    rw [closeAngle_append hclose] at hinside
    rw [Option.map_some]
    dsimp only
    rw [openingTag_eq hinside, ok_bind]
    refine gives_ok ?_
    rw [Follows, firstTag_read hm, hread, firstTag_opening, ← hstop]

/-- At a `<` the search by offsets follows the reader of the pieces. -/
theorem RestAt.markupAt_gives (h : RestAt source.toList lt ('<' :: t)) :
    Gives (markupAt source lt) (Follows source lt ('<' :: t)) := by
  cases hcomment : commentStart.isPrefixOf ('<' :: t) with
  | true =>
    obtain ⟨u, hu⟩ := List.isPrefixOf_iff_prefix.mp hcomment
    rw [← hu] at h ⊢
    exact markupAt_comment h
  | false =>
    cases hraw : rawTag? ('<' :: t) with
    | some tag => exact markupAt_raw h hcomment hraw
    | none =>
      cases hclosing : beginsTag templateClosing ('<' :: t) with
      | true => exact markupAt_closing h hcomment hraw hclosing
      | false =>
        cases hopening : beginsTag templateOpening ('<' :: t) with
        | true => exact markupAt_opening h hcomment hraw hclosing hopening
        | false =>
          have hnone : markup? ('<' :: t) = none := by
            rw [markup?_cons_of_ne hcomment hraw, hclosing, hopening]
            rfl
          rw [markupAt_tag h hcomment hraw, hclosing, hopening]
          refine gives_ok ⟨t, Nat.lt_succ_self _, h.tail (by decide), ?_⟩
          refine firstTag_append (s := ['<']) (fun rest hs hr => ?_) lt
          rcases List.suffix_cons_iff.mp hs with rfl | hs
          · exact hnone
          · exact absurd (List.suffix_nil.mp hs) hr

/-- The search by offsets finds the first tag of the pieces. -/
theorem RestAt.nextTag_eq (h : RestAt source.toList offset s) :
    nextTag source offset = .ok (firstTag offset (pieces s)) := by
  rw [nextTag]
  induction hn : s.length using Nat.strong_induction_on generalizing s offset with
  | _ n ih =>
  subst hn
  have hclass : IsAsciiClass (· = '<') := fun c hc => of_decide_eq_true hc ▸ by decide
  by_cases hmem : '<' ∈ s
  · obtain ⟨before, t, rfl, hbefore⟩ := List.eq_append_cons_of_mem hmem
    have hlt := h.append
    have hfind : findByte (· = '<') (utf8 (before ++ '<' :: t)) = some (byteLength before) :=
      findByte_utf8_of_pos hclass (fun c hc => decide_eq_false fun he => hbefore (he ▸ hc)) rfl
    have hin : offset < (utf8 source.toList).length :=
      Nat.lt_of_le_of_lt (Nat.le_add_right ..) hlt.lt_length
    have hround : templateRound source offset = markupAt source (offset + byteLength before) := by
      rw [templateRound, if_pos hin, h.bytesFrom_eq, ok_bind, hfind]
    have hfirst : firstTag offset (pieces (before ++ '<' :: t)) =
        firstTag (offset + byteLength before) (pieces ('<' :: t)) := by
      refine firstTag_append (fun rest hs hr => ?_) offset
      exact isInert_of_notMem hbefore rest hs hr _
    obtain ⟨round, hmarkup, hfollows⟩ := hlt.markupAt_gives
    rw [hmarkup] at hround
    rw [hfirst]
    cases round with
    | done found => exact hfollows ▸ Loop.run_of_done hround
    | again next =>
      obtain ⟨u, hu, hnext, hsame⟩ := hfollows
      have hlength : u.length < (before ++ '<' :: t).length := by
        rw [List.length_append]
        omega
      rw [hsame, ← ih _ hlength hnext rfl]
      exact Loop.run_of_again hround
  · have hfind : findByte (· = '<') (utf8 s) = none :=
      findByte_utf8_eq_none hclass fun c hc => decide_eq_false fun he => hmem (he ▸ hc)
    have hround : templateRound source offset = .ok (.done none) := by
      rw [templateRound, h.bytesFrom_eq, ok_bind, hfind]
      split <;> rfl
    have hfirst : firstTag offset (pieces s) = none := by
      have happend : firstTag offset (pieces (s ++ [])) =
          firstTag (offset + byteLength s) (pieces []) :=
        firstTag_append (fun rest hs hr => isInert_of_notMem hmem rest hs hr []) offset
      rw [List.append_nil, pieces_nil] at happend
      exact happend
    rw [hfirst]
    exact Loop.run_of_done hround

/-- Bytes of a character that begins before the offset are passed over. -/
theorem nextTag_of_drop {w : List UInt8} (h : RestAt source.toList (offset + w.length) s)
    (hdrop : (utf8 source.toList).drop offset = w ++ utf8 s)
    (hw : ∀ b ∈ w, ¬ IsAscii (Char.ofUInt8 b)) :
    nextTag source offset = nextTag source (offset + w.length) := by
  have hlength := h.length_eq
  have hbytes : bytesFrom (utf8 source.toList) offset = .ok (w ++ utf8 s) := by
    rw [bytesFrom, if_pos (by omega), hdrop]
  have hfind : findByte (· = '<') (w ++ utf8 s) =
      (findByte (· = '<') (utf8 s)).map (w.length + ·) := by
    refine findByte_append fun b hb => decide_eq_false fun he => hw b hb (he ▸ by decide)
  refine Loop.run_congr (show templateRound source offset =
    templateRound source (offset + w.length) from ?_)
  rw [templateRound, templateRound, hbytes, h.bytesFrom_eq, ok_bind, ok_bind, hfind]
  cases s with
  | nil =>
    have hnone : findByte (· = '<') (utf8 []) = none := rfl
    rw [hnone, Option.map_none]
    dsimp only
    rw [ite_self, ite_self]
  | cons c t =>
    have hin := h.lt_length
    rw [if_pos hin, if_pos (by omega)]
    cases findByte (· = '<') (utf8 (c :: t)) with
    | none => rfl
    | some length =>
      dsimp only [Option.map_some]
      rw [Nat.add_assoc]

/-- The search makes no misstep, wherever it begins. -/
theorem gives_nextTag (h : offset ≤ (utf8 source.toList).length) :
    Gives (nextTag source offset) fun found => ∀ tag ∈ found, tag.Within source offset := by
  obtain ⟨w, s, hdrop, hw, hrest⟩ := exists_restAt source.toList h
  have hgives := (nextTag_of_drop hrest hdrop hw).trans hrest.nextTag_eq
  exact ⟨_, hgives, nextTag_within source offset _ hgives⟩

end Characters

end InlineComponents.Offsets
