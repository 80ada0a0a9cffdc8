import InlineComponents.Proofs.Exchange
import InlineComponents.Proofs.Insertion
import InlineComponents.Proofs.Offsets.Scripts

namespace InlineComponents.Offsets

/-- A script that no element contains, told by the offset at which it begins. -/
def scriptTag? (offset : Nat) : OpenElements × Token → Option ScriptTag
  | ([], .script inside _) =>
    some ⟨offset + byteLength (scriptOpening ++ inside ++ ['>']), isModuleScript inside⟩
  | _ => none

/-- The scripts that no element contains among tokens that begin at an offset. -/
def scriptsOf (offset : Nat) (opened : OpenElements) : List Token → List ScriptTag
  | [] => []
  | t :: ts =>
    (scriptTag? offset (opened, t)).toList ++
      scriptsOf (offset + byteLength t.render) (opened.after t) ts

/-- Where a search for scripts goes on or ends is where the reader of the tokens does so: it has
read the first token of the text. -/
def ReadsToken (source : String) (file : Path) (p : ScriptPlace) (s : List Char) :
    Round ScriptPlace Scripts → Prop
  | .again next => (nextToken s).1.isUnclosedScript = false ∧
      RestAt source.toList next.offset (nextToken s).2 ∧
      next.opened = p.opened.after (nextToken s).1 ∧
      next.tags = p.tags ++ (scriptTag? p.offset (p.opened, (nextToken s).1)).toList
  | .done (.ok tags) => tags = p.tags ∧ ∃ chars, nextToken s = (.text chars, [])
  | .done (.error failure) =>
      failure = .malformedScript file ∧ ∃ chars, nextToken s = (.unclosedScript chars, [])

section Rounds

variable {source : String} {file : Path} {p : ScriptPlace} {s t cs : List Char}

theorem scriptTag?_of_isScriptTag {token : Token} (h : token.isScriptTag = false) (offset : Nat)
    (opened : OpenElements) : scriptTag? offset (opened, token) = none := by
  cases opened with
  | nil =>
    cases token with
    | script => cases h
    | _ => rfl
  | cons => rfl

/-- A token that is no script changes the open elements at most. -/
theorem readsToken_of_isScriptTag {next : Nat} {token : Token} {rest : List Char}
    {opened : OpenElements} (hnext : nextToken s = (token, rest))
    (htoken : token.isScriptTag = false) (h : RestAt source.toList next rest)
    (hopened : opened = p.opened.after token) :
    ReadsToken source file p s (.again ⟨p.tags, opened, next⟩) := by
  have hclosed : token.isUnclosedScript = false := by
    cases token with
    | unclosedScript => cases htoken
    | _ => rfl
  rw [ReadsToken, hnext]
  refine ⟨hclosed, h, hopened, ?_⟩
  rw [scriptTag?_of_isScriptTag htoken, Option.toList_none, List.append_nil]

theorem readsToken_text {next : Nat} {chars rest : List Char}
    (hnext : nextToken s = (.text chars, rest)) (h : RestAt source.toList next rest) :
    ReadsToken source file p s (.again { p with offset := next }) :=
  readsToken_of_isScriptTag hnext rfl h rfl

theorem nameEnd_eq {bytes : List UInt8} {start : Nat} {inner : List Char} {y : List UInt8}
    (h : bytes.drop start = utf8 inner ++ y) :
    nameEnd bytes start (start + byteLength inner) = start + byteLength (tagName inner) := by
  have hbytes : (bytes.take (start + byteLength inner)).drop start = utf8 inner := by
    rw [List.drop_take, h, Nat.add_sub_cancel_left, ← length_utf8, List.take_left]
  rw [nameEnd, hbytes]
  have hname : ∀ c ∈ tagName inner, isBoundary c = false := by
    intro c hc
    simpa using List.mem_takeWhile_imp hc
  have hsplit : tagName inner ++ afterName inner = inner := List.takeWhile_append_dropWhile
  cases hafter : afterName inner with
  | nil =>
    rw [hafter, List.append_nil] at hsplit
    rw [hsplit] at hname ⊢
    rw [findByte_utf8_eq_none isAsciiClass_isBoundary hname]
  | cons c after =>
    have hc : isBoundary c = true := by
      have hhead := List.head?_dropWhile_not (fun c => !isBoundary c) inner
      rw [show inner.dropWhile (fun c => !isBoundary c) = c :: after from hafter] at hhead
      simpa using hhead
    rw [hafter] at hsplit
    have hfind := findByte_utf8_of_pos (t := after) isAsciiClass_isBoundary hname hc
    rw [hsplit] at hfind
    rw [hfind]

theorem closingRound_reads (h : RestAt source.toList p.offset ('<' :: '/' :: t))
    (hnext : nextToken ('<' :: '/' :: t) = closingToken t) :
    Gives (closingRound source p p.offset) (ReadsToken source file p ('<' :: '/' :: t)) := by
  have ht : RestAt source.toList (p.offset + 2) t := (h.tail (by decide)).tail (by decide)
  rw [closingRound, ht.tagEnd_eq, ok_bind]
  cases hclose : closeTag t with
  | none =>
    rw [closingToken, hclose] at hnext
    exact gives_ok ⟨rfl, _, hnext⟩
  | some closed =>
    obtain ⟨inner, rest⟩ := closed
    have hsplit := closeTag_append hclose
    have hname : nameEnd (utf8 source.toList) (p.offset + 2) (p.offset + 2 + byteLength inner) =
        p.offset + 2 + byteLength (tagName inner) :=
      nameEnd_eq (by rw [ht.drop_utf8, hsplit, utf8_append])
    have hinner : tagName inner ++ afterName inner = inner := List.takeWhile_append_dropWhile
    have hcut : cut source (p.offset + 2) (p.offset + 2 + byteLength (tagName inner)) =
        .ok (String.ofList (tagName inner)) := by
      refine RestAt.cut_eq (t := afterName inner ++ '>' :: rest) ?_
      rw [← List.append_assoc, hinner, ← hsplit]
      exact ht
    have hrest : RestAt source.toList (p.offset + 2 + byteLength inner + 1) rest := by
      rw [hsplit] at ht
      exact ht.append.tail (by decide)
    rw [closingToken, hclose] at hnext
    dsimp only [Option.map_some]
    rw [hname, hcut, ok_bind]
    exact gives_ok (readsToken_of_isScriptTag hnext rfl hrest rfl)

/-- The last byte of a text is a slash just if its last character is one. -/
theorem getLast?_utf8_slash (s : List Char) :
    ((utf8 s).getLast?.any fun byte => Char.ofUInt8 byte = '/') =
      decide (s.getLast? = some '/') := by
  induction s using List.reverseRecOn with
  | nil => rfl
  | append_singleton s c ih =>
    have hne : utf8 [c] ≠ [] := by
      rw [utf8_cons, utf8_nil, List.append_nil]
      exact utf8EncodeChar_ne_nil c
    rw [utf8_append, List.getLast?_append_of_ne_nil _ hne, List.getLast?_append]
    by_cases hc : IsAscii c
    · obtain ⟨b, hencode, hb⟩ := utf8EncodeChar_of_isAscii hc
      rw [utf8_cons, hencode, utf8_nil]
      simp [hb]
    · have hslash : c ≠ '/' := fun he => hc (he ▸ by decide)
      have hlast : ((utf8 [c]).getLast?.any fun byte => Char.ofUInt8 byte = '/') = false := by
        rw [Option.any_eq_false]
        intro b hb
        have hmem : b ∈ String.utf8EncodeChar c := by
          have := List.mem_of_getLast? hb
          simpa using this
        have hno := not_isAscii_of_mem_utf8EncodeChar hc b hmem
        exact decide_eq_false fun he => hno (he ▸ by decide)
      rw [hlast]
      simp [hslash]

/-- Before the end of a tag a slash stands just if the tag ends with one. -/
theorem endsWithSlash_bytes {start : Nat} {name inside rest : List Char}
    (h : RestAt source.toList start ('<' :: (name ++ (inside ++ rest))))
    (hname : ∀ c ∈ name, isBoundary c = false) :
    Gives (bytesUpTo (utf8 source.toList) (start + 1 + byteLength name + byteLength inside))
      fun before => (before.getLast?.any fun byte => Char.ofUInt8 byte = '/') =
        endsWithSlash inside := by
  obtain ⟨front, hsource, rfl⟩ := h
  have hsplit : source.toList = (front ++ '<' :: (name ++ inside)) ++ rest := by simp [hsource]
  have hlength : byteLength front + 1 + byteLength name + byteLength inside =
      (utf8 (front ++ '<' :: (name ++ inside))).length := by
    have hangle : '<'.utf8Size = 1 := rfl
    simp [hangle]
    omega
  have hle : (utf8 (front ++ '<' :: (name ++ inside))).length ≤ (utf8 source.toList).length := by
    rw [hsplit, utf8_append (front ++ _), List.length_append]
    exact Nat.le_add_right _ _
  rw [bytesUpTo, hlength, if_pos hle, hsplit, utf8_append (front ++ _), List.take_left]
  refine gives_ok ?_
  rw [getLast?_utf8_slash, endsWithSlash]
  by_cases hinside : inside = []
  · have hno : '/' ∉ '<' :: name := by
      intro hmem
      rcases List.mem_cons.mp hmem with he | hmem
      · cases he
      · exact absurd (hname _ hmem) (by decide)
    rw [hinside, List.append_nil, List.getLast?_append_of_ne_nil front (List.cons_ne_nil _ _)]
    refine Bool.eq_iff_iff.mpr ⟨fun hlast => ?_, fun hlast => ?_⟩
    · exact absurd (List.mem_of_getLast? (of_decide_eq_true hlast)) hno
    · cases hlast
  · rw [← List.cons_append, ← List.append_assoc, List.getLast?_append_of_ne_nil _ hinside]

theorem openingRound_reads (h : RestAt source.toList p.offset ('<' :: cs))
    (hnext : nextToken ('<' :: cs) = openingToken cs) :
    Gives (openingRound source p p.offset) (ReadsToken source file p ('<' :: cs)) := by
  have hcs := h.tail (by decide)
  have hsplit : tagName cs ++ afterName cs = cs := List.takeWhile_append_dropWhile
  have hname : ∀ c ∈ tagName cs, isBoundary c = false := by
    intro c hc
    simpa using List.mem_takeWhile_imp hc
  have hstop : nameEnd (utf8 source.toList) (p.offset + 1) (utf8 source.toList).length =
      p.offset + 1 + byteLength (tagName cs) := by
    rw [← hcs.length_eq]
    exact nameEnd_eq (y := []) (by rw [hcs.drop_utf8, List.append_nil])
  have hafter : RestAt source.toList (p.offset + 1 + byteLength (tagName cs)) (afterName cs) := by
    rw [← hsplit] at hcs
    exact hcs.append
  rw [openingRound, hstop, hafter.tagEnd_eq, ok_bind]
  cases hclose : closeTag (afterName cs) with
  | none =>
    rw [openingToken, hclose] at hnext
    exact gives_ok ⟨rfl, _, hnext⟩
  | some closed =>
    obtain ⟨inside, rest⟩ := closed
    have hinside := closeTag_append hclose
    have hcut : cut source (p.offset + 1) (p.offset + 1 + byteLength (tagName cs)) =
        .ok (String.ofList (tagName cs)) := by
      refine RestAt.cut_eq (t := afterName cs) ?_
      rw [hsplit]
      exact hcs
    have hrest : RestAt source.toList
        (p.offset + 1 + byteLength (tagName cs) + byteLength inside + 1) rest := by
      rw [hinside] at hafter
      exact hafter.append.tail (by decide)
    have hbytes := endsWithSlash_bytes (by rwa [← hinside, hsplit]) hname
    obtain ⟨before, hbefore, hslash⟩ := hbytes
    rw [openingToken, hclose] at hnext
    dsimp only [Option.map_some]
    rw [hcut, ok_bind, hbefore, ok_bind, hslash]
    have hopened : p.opened.after (.opening (tagName cs) inside) =
        let name := String.ofList (tagName cs)
        let outer := p.opened.endOmitted name
        if endsWithSlash inside || isVoid name then outer else outer.push name := rfl
    dsimp only at hopened
    split
    · next hleft =>
      rw [if_pos hleft] at hopened
      exact gives_ok (readsToken_of_isScriptTag hnext rfl hrest hopened.symm)
    · next hentered =>
      rw [if_neg hentered] at hopened
      exact gives_ok (readsToken_of_isScriptTag hnext rfl hrest hopened.symm)

theorem rawTag?_eq_script_iff : rawTag? ('<' :: cs) = some .script ↔
    beginsTag RawTag.script.name cs = true := by
  rw [rawTag?]
  split
  · simp [*]
  · split <;> simp [*]

/-- The script that begins at an offset is one of those that are read there. -/
theorem scriptAt_eq (h : RestAt source.toList p.offset ('<' :: cs)) :
    scriptAt source file p p.offset = .ok (
      if rawTag? ('<' :: cs) = some .script then
        match closeAngle (('<' :: cs).drop ('<' :: RawTag.script.name).length) with
        | none => .error (.malformedScript file)
        | some (inside, _) =>
          .ok (p.tags ++ (scriptTag? p.offset (p.opened, .script inside [])).toList)
      else .ok p.tags) := by
  have hcs := h.tail (by decide)
  rw [scriptAt, hcs.isTagNamed_eq (RawTag.isAscii_name .script)]
  by_cases hscript : beginsTag RawTag.script.name cs = true
  · have hinside := hcs.behindName hscript
    rw [if_pos hscript, if_pos (rawTag?_eq_script_iff.mpr hscript), List.length_cons,
      List.drop_succ_cons, hinside.closingAngle_eq]
    cases hclose : closeAngle (cs.drop RawTag.script.name.length) with
    | none => rfl
    | some closed =>
      obtain ⟨inside, rest⟩ := closed
      dsimp only [Option.map_some]
      cases hopened : p.opened with
      | cons => simp [scriptTag?]
      | nil =>
        have hcut := (closeAngle_append hclose ▸ hinside).cut_eq
        have hstart : p.offset + 1 + byteLength RawTag.script.name + byteLength inside + 1 =
            p.offset + byteLength (scriptOpening ++ inside ++ ['>']) := by
          have hname : byteLength scriptOpening = 1 + byteLength RawTag.script.name := rfl
          rw [byteLength_tag, hname]
          omega
        rw [List.isEmpty_nil, if_pos rfl, hcut, ok_bind, marksModule_eq, ok_bind,
          String.toList_ofList, hstart]
        rfl
  · rw [if_neg hscript, if_neg (mt rawTag?_eq_script_iff.mp hscript)]

theorem rawToken_script (s : List Char) : rawToken .script s =
    match closeAngle (s.drop ('<' :: RawTag.script.name).length) with
    | none => (.unclosedScript s, [])
    | some (inside, rest) =>
      (.script inside (closeRaw .script rest).1, (closeRaw .script rest).2) := by
  cases h : closeAngle (s.drop ('<' :: RawTag.script.name).length) <;> simp only [rawToken, h]

theorem exists_rawToken_style (s : List Char) :
    ∃ chars, rawToken .style s = (.text chars, afterRaw .style s) := by
  rw [← rawToken_snd]
  cases h : closeAngle (s.drop ('<' :: RawTag.style.name).length) with
  | none => exact ⟨s, by simp only [rawToken, h]⟩
  | some closed => exact ⟨_, by simp only [rawToken, h]; rfl⟩

theorem elementRound_reads_raw {raw : RawTag} (h : RestAt source.toList p.offset ('<' :: cs))
    (hraw : rawTag? ('<' :: cs) = some raw)
    (hnext : nextToken ('<' :: cs) = rawToken raw ('<' :: cs)) :
    Gives (elementRound source file p p.offset) (ReadsToken source file p ('<' :: cs)) := by
  obtain ⟨stop, hskip, hstop⟩ := h.skipRaw_gives hraw
  rw [elementRound, scriptAt_eq h, ok_bind, hskip]
  cases raw with
  | style =>
    obtain ⟨chars, htext⟩ := exists_rawToken_style ('<' :: cs)
    rw [if_neg (by rw [hraw]; simp)]
    exact gives_ok (readsToken_text (hnext.trans htext) hstop)
  | script =>
    rw [rawToken_script] at hnext
    rw [if_pos hraw]
    cases hclose : closeAngle (('<' :: cs).drop ('<' :: RawTag.script.name).length) with
    | none =>
      rw [hclose] at hnext
      exact gives_ok ⟨rfl, _, hnext⟩
    | some closed =>
      obtain ⟨inside, rest⟩ := closed
      rw [afterRaw, hclose] at hstop
      rw [hclose] at hnext
      refine gives_ok ?_
      rw [ReadsToken, hnext]
      refine ⟨rfl, hstop, rfl, ?_⟩
      cases p.opened <;> rfl

theorem isAsciiClass_isAlpha : IsAsciiClass Char.isAlpha := by
  intro c hc
  show c.val.toNat < 0x80
  have hcase : c.isUpper = true ∨ c.isLower = true := Bool.or_eq_true_iff.mp hc
  rcases hcase with hupper | hlower
  · have hle : c.val ≤ 'Z'.val := (of_decide_eq_true hupper).2
    exact Nat.lt_of_le_of_lt (UInt32.le_iff_toNat_le.mp hle) (by decide)
  · have hle : c.val ≤ 'z'.val := of_decide_eq_true (Bool.and_eq_true_iff.mp hlower).2
    exact Nat.lt_of_le_of_lt (UInt32.le_iff_toNat_le.mp hle) (by decide)

theorem elementRound_reads (h : RestAt source.toList p.offset ('<' :: cs))
    (hnext : nextToken ('<' :: cs) = match rawTag? ('<' :: cs) with
      | some raw => rawToken raw ('<' :: cs)
      | none => if beginsWithLetter cs then openingToken cs else (.text ['<'], cs)) :
    Gives (elementRound source file p p.offset) (ReadsToken source file p ('<' :: cs)) := by
  cases hraw : rawTag? ('<' :: cs) with
  | some raw =>
    rw [hraw] at hnext
    exact elementRound_reads_raw h hraw hnext
  | none =>
    have hcs := h.tail (by decide)
    have hletter : hasAt Char.isAlpha (utf8 source.toList) (p.offset + 1) = beginsWithLetter cs :=
      hcs.hasAt_eq isAsciiClass_isAlpha
    rw [hraw] at hnext
    rw [elementRound, scriptAt_eq h, ok_bind, hraw, if_neg (by simp), h.skipRaw_eq_none hraw]
    dsimp only
    rw [ok_bind, hletter]
    cases hbegins : beginsWithLetter cs with
    | true =>
      rw [hbegins] at hnext
      exact openingRound_reads h hnext
    | false =>
      rw [hbegins] at hnext
      exact gives_ok (readsToken_text hnext hcs)

theorem angleRound_comment (h : RestAt source.toList p.offset (commentStart ++ t))
    (hnext : nextToken (commentStart ++ t) = match closeComment t with
      | none => (.text (commentStart ++ t), [])
      | some (said, rest) => (.text (commentStart ++ said ++ commentEnd), rest)) :
    Gives (angleRound source file p p.offset) (ReadsToken source file p (commentStart ++ t)) := by
  have hprefix : commentStart.isPrefixOf (commentStart ++ t) = true :=
    List.isPrefixOf_iff_prefix.mpr (List.prefix_append _ _)
  rw [angleRound, h.bytesFrom_eq, ok_bind, isPrefixOf_utf8 isAscii_of_mem_commentStart, hprefix,
    if_pos rfl, h.append.bytesFrom_eq, ok_bind, findBytes_commentEnd]
  cases hclose : closeComment t with
  | none =>
    rw [hclose] at hnext
    exact gives_ok ⟨rfl, _, hnext⟩
  | some closed =>
    obtain ⟨said, rest⟩ := closed
    rw [hclose] at hnext
    exact gives_ok (readsToken_text hnext (h.behindComment hclose))

/-- At a `<` the search by offsets follows the reader of the tokens. -/
theorem angleRound_reads (h : RestAt source.toList p.offset ('<' :: cs)) :
    Gives (angleRound source file p p.offset) (ReadsToken source file p ('<' :: cs)) := by
  have hnext := nextToken_angle cs
  rw [angleToken] at hnext
  cases hcomment : commentStart.isPrefixOf ('<' :: cs) with
  | true =>
    obtain ⟨t, ht⟩ := List.isPrefixOf_iff_prefix.mp hcomment
    rw [hcomment, if_pos rfl, ← ht, List.drop_left] at hnext
    rw [← ht] at h ⊢
    exact angleRound_comment h hnext
  | false =>
    have hclosing : ((utf8 ['<', '/']).isPrefixOf (utf8 ('<' :: cs)) &&
        hasAt Char.isAlpha (utf8 source.toList) (p.offset + 2)) =
          (cs.head? = some '/' && beginsWithLetter (cs.drop 1)) := by
      refine isPrefixOf_closing_and fun t ht => ?_
      have hcs := (ht ▸ h).tail (by decide)
      exact (hcs.tail (by decide)).hasAt_eq isAsciiClass_isAlpha
    rw [hcomment, if_neg Bool.false_ne_true] at hnext
    rw [angleRound, h.bytesFrom_eq, ok_bind, isPrefixOf_utf8 isAscii_of_mem_commentStart, hcomment,
      if_neg Bool.false_ne_true, hclosing]
    split
    · next hslash =>
      rw [if_pos hslash] at hnext
      obtain ⟨t, rfl⟩ : ∃ t, cs = '/' :: t := by
        have hhead : cs.head? = some '/' := of_decide_eq_true (Bool.and_eq_true_iff.mp hslash).1
        exact List.head?_eq_some_iff.mp hhead
      exact closingRound_reads h hnext
    · next hslash =>
      rw [if_neg hslash] at hnext
      exact elementRound_reads h hnext

theorem isAsciiClass_markup : IsAsciiClass fun c => c = '<' || c = '{' := by
  intro c hc
  simp only [Bool.or_eq_true, decide_eq_true_eq] at hc
  rcases hc with rfl | rfl <;> decide

/-- At what is not plain the search by offsets follows the reader of the tokens. -/
theorem scriptRound_reads {c : Char} (h : RestAt source.toList p.offset (c :: t))
    (hc : isPlain c = false) :
    Gives (scriptRound source file p) (ReadsToken source file p (c :: t)) := by
  have hmarkup : c = '<' ∨ c = '{' := by
    by_contra hno
    rw [not_or] at hno
    simp [isPlain, hno] at hc
  have hascii : IsAscii c := by rcases hmarkup with rfl | rfl <;> decide
  have hfind : findByte (fun c => c = '<' || c = '{') (utf8 (c :: t)) = some 0 := by
    have hpos : (fun c => c = '<' || c = '{') c = true := by simpa using hmarkup
    exact findByte_utf8_of_pos (s := []) isAsciiClass_markup (by simp) hpos
  rw [scriptRound, if_pos h.lt_length, h.bytesFrom_eq, ok_bind, hfind]
  dsimp only
  rw [Nat.add_zero, h.byteAt_eq hascii, ok_bind]
  rcases hmarkup with rfl | rfl
  · rw [if_neg (by decide)]
    exact angleRound_reads h
  · obtain ⟨stop, hskip, hstop⟩ := skipExpression_gives h
    rw [if_pos rfl, hskip, ok_bind]
    have hnext : ∃ chars,
        nextToken ('{' :: t) = (.text chars, (closeBrace t).elim [] Prod.snd) := by
      cases hclose : closeBrace t with
      | none => exact ⟨'{' :: t, by simp [nextToken, hclose]⟩
      | some closed => exact ⟨'{' :: closed.1 ++ ['}'], by simp [nextToken, hclose]⟩
    obtain ⟨chars, hnext⟩ := hnext
    exact gives_ok (readsToken_text hnext hstop)

/-- Plain text is passed over. -/
theorem scriptLoop_pass (h : RestAt source.toList p.offset (s ++ t))
    (hs : ∀ c ∈ s, isPlain c = true) :
    (scriptLoop source file).run p =
      (scriptLoop source file).run { p with offset := p.offset + byteLength s } := by
  have hplain : ∀ c ∈ s, (fun c => c = '<' || c = '{') c = false := by
    intro c hc
    have hno := hs c hc
    simpa [isPlain] using hno
  have hlength := h.length_eq
  have hnext := h.append.length_eq
  refine Loop.run_congr (show scriptRound source file p = scriptRound source file _ from ?_)
  rw [scriptRound, scriptRound]
  dsimp only
  cases t with
  | nil =>
    have hnone := findByte_utf8_eq_none isAsciiClass_markup hplain
    have hend : ¬ p.offset + byteLength s < (utf8 source.toList).length := by
      rw [byteLength_nil] at hnext
      omega
    rw [if_neg hend, h.bytesFrom_eq, ok_bind, List.append_nil, hnone]
    split <;> rfl
  | cons c t =>
    have hfind := findByte_utf8_append (t := c :: t) isAsciiClass_markup hplain
    have hin := h.append.lt_length
    rw [if_pos (by omega), if_pos hin, h.bytesFrom_eq, h.append.bytesFrom_eq, ok_bind, ok_bind,
      hfind]
    cases findByte (fun c => c = '<' || c = '{') (utf8 (c :: t)) with
    | none => rfl
    | some length =>
      dsimp only [Option.map_some]
      rw [Nat.add_assoc]
      rfl

end Rounds

section Choice

variable {source : String} {file : Path} {p : ScriptPlace} {s : List Char}

/-- What a search for scripts comes to that goes on at these tokens. -/
def scriptsFrom (file : Path) (p : ScriptPlace) (ts : List Token) : Scripts :=
  if ts.any Token.isUnclosedScript then .error (.malformedScript file)
  else .ok (p.tags ++ scriptsOf p.offset p.opened ts)

theorem scriptsFrom_cons {token : Token} (h : token.isUnclosedScript = false) (ts : List Token) :
    scriptsFrom file p (token :: ts) =
      scriptsFrom file ⟨p.tags ++ (scriptTag? p.offset (p.opened, token)).toList,
        p.opened.after token, p.offset + byteLength token.render⟩ ts := by
  rw [scriptsFrom, scriptsFrom, List.any_cons, h, Bool.false_or, scriptsOf, List.append_assoc]

theorem scriptsFrom_text (chars : List Char) (ts : List Token) :
    scriptsFrom file p (.text chars :: ts) =
      scriptsFrom file { p with offset := p.offset + byteLength chars } ts := by
  have htext := @scriptTag?_of_isScriptTag (.text chars) rfl p.offset p.opened
  rw [scriptsFrom_cons rfl, htext, Option.toList_none, List.append_nil]
  rfl

/-- The search by offsets finds the scripts among the tokens. -/
theorem scriptLoop_run (h : RestAt source.toList p.offset s) :
    (scriptLoop source file).run p = .ok (scriptsFrom file p (tokens s)) := by
  induction hn : s.length using Nat.strong_induction_on generalizing s p with
  | _ n ih =>
  subst hn
  cases s with
  | nil =>
    have hlength := h.length_eq
    have hround : scriptRound source file p = .ok (.done (.ok p.tags)) := by
      rw [scriptRound, if_neg (by simp at hlength ⊢; omega)]
    rw [tokens_nil]
    refine (Loop.run_of_done hround).trans ?_
    simp [scriptsFrom, scriptsOf]
  | cons c t =>
    by_cases hc : isPlain c = true
    · let plain := (c :: t).takeWhile isPlain
      let rest := (c :: t).dropWhile isPlain
      have hsplit : plain ++ rest = c :: t := List.takeWhile_append_dropWhile
      have hne : plain ≠ [] := by simp [plain, hc]
      have hplain : ∀ d ∈ plain, isPlain d = true := fun d hd => List.mem_takeWhile_imp hd
      have hrest : rest.head?.all (fun d => !isPlain d) = true := by
        have hhead := List.head?_dropWhile_not isPlain (c :: t)
        cases hd : rest.head? with
        | none => rfl
        | some d =>
          rw [show (c :: t).dropWhile isPlain = rest from rfl, hd] at hhead
          simpa using hhead
      have hlt : rest.length < (c :: t).length := by
        have := List.length_pos_iff.mpr hne
        rw [← hsplit, List.length_append]
        omega
      rw [← hsplit] at h ⊢
      rw [scriptLoop_pass h hplain, tokens_plain hne hplain hrest, scriptsFrom_text]
      exact ih _ hlt h.append rfl
    · obtain ⟨round, hround, hreads⟩ := scriptRound_reads h (Bool.eq_false_iff.mpr hc)
      rw [tokens_cons]
      cases round with
      | again next =>
        obtain ⟨hclosed, hrest, hopened, htags⟩ := hreads
        have hoffset : next.offset = p.offset + byteLength (nextToken (c :: t)).1.render := by
          rw [← nextToken_append (c :: t)] at h
          exact hrest.offset_eq h.append
        rw [scriptsFrom_cons hclosed, ← hopened, ← htags, ← hoffset]
        exact (Loop.run_of_again hround).trans (ih _ (nextToken_length_lt c t) hrest rfl)
      | done result =>
        refine (Loop.run_of_done hround).trans ?_
        cases result with
        | ok tags =>
          obtain ⟨rfl, chars, hnext⟩ := hreads
          rw [hnext, tokens_nil, scriptsFrom_text]
          simp [scriptsFrom, scriptsOf]
        | error failure =>
          obtain ⟨rfl, chars, hnext⟩ := hreads
          rw [hnext]
          rfl

theorem scriptTags_eq (source : String) (file : Path) :
    scriptTags source file = .ok (scriptsFrom file ⟨[], [], 0⟩ (tokens source.toList)) :=
  scriptLoop_run (p := ⟨[], [], 0⟩) (RestAt.start source.toList)

theorem splitFirst_cons {α : Type} (q : α → Bool) (a : α) (l : List α) :
    splitFirst q (a :: l) =
      if q a then some ([], a, l)
      else (splitFirst q l).map fun split => (a :: split.1, split.2) := by
  cases ha : q a with
  | true => simp [splitFirst, ha]
  | false =>
    simp only [splitFirst, List.dropWhile_cons, List.takeWhile_cons, ha, Bool.not_false, if_true]
    split <;> simp_all

/-- Among the scripts the first of a kind is the one that the tokens are split at. -/
theorem find?_scriptsOf {q : ScriptTag → Bool} {q' : OpenElements × Token → Bool}
    (hq : ∀ offset placed, (scriptTag? offset placed).any q = q' placed) (offset : Nat)
    (opened : OpenElements) (ts : List Token) :
    (scriptsOf offset opened ts).find? q = (splitFirst q' (placedFrom opened ts)).bind fun split =>
      scriptTag? (offset + byteLength (tokensText (split.1.map Prod.snd))) split.2.1 := by
  induction ts generalizing offset opened with
  | nil => rfl
  | cons t ts ih =>
    have ht := hq offset (opened, t)
    rw [scriptsOf, placedFrom, splitFirst_cons, List.find?_append, ih]
    cases htag : scriptTag? offset (opened, t) with
    | none =>
      have hno : q' (opened, t) = false := by rw [← ht, htag]; rfl
      rw [hno]
      simp [Option.bind_map, Function.comp_def, Nat.add_assoc]
    | some tag =>
      have hsame : q tag = q' (opened, t) := by rw [← ht, htag]; rfl
      rw [Option.toList_some, List.find?_singleton, hsame]
      cases q' (opened, t) with
      | true => simp [htag, tokensText]
      | false => simp [Option.bind_map, Function.comp_def, Nat.add_assoc]

theorem find?_scriptsOf_instance (offset : Nat) (opened : OpenElements) (ts : List Token) :
    (scriptsOf offset opened ts).find? (fun tag => !tag.isModule) =
      (splitFirst isInstanceScript (placedFrom opened ts)).bind fun split =>
        scriptTag? (offset + byteLength (tokensText (split.1.map Prod.snd))) split.2.1 := by
  refine find?_scriptsOf (fun offset placed => ?_) offset opened ts
  obtain ⟨_ | _, token⟩ := placed
  · cases token <;> rfl
  · rfl

theorem head?_scriptsOf (offset : Nat) (opened : OpenElements) (ts : List Token) :
    (scriptsOf offset opened ts).head? =
      (splitFirst isTopScript (placedFrom opened ts)).bind fun split =>
        scriptTag? (offset + byteLength (tokensText (split.1.map Prod.snd))) split.2.1 := by
  have hfirst : (scriptsOf offset opened ts).head? =
      (scriptsOf offset opened ts).find? fun _ => true := by
    cases scriptsOf offset opened ts <;> rfl
  rw [hfirst]
  refine find?_scriptsOf (fun offset placed => ?_) offset opened ts
  obtain ⟨_ | _, token⟩ := placed
  · cases token <;> rfl
  · rfl

theorem exists_script_of_isTopScript {placed : OpenElements × Token}
    (h : isTopScript placed = true) : ∃ inside content, placed = ([], .script inside content) := by
  obtain ⟨opened, token⟩ := placed
  cases opened with
  | nil =>
    cases token with
    | script inside content => exact ⟨inside, content, rfl⟩
    | _ => cases h
  | cons => cases h

/-- Of the scripts the one is chosen that takes the imports among the tokens. -/
theorem chosen_eq (ts : List Token) :
    ((scriptsOf 0 [] ts).find? fun tag => !tag.isModule).or (scriptsOf 0 [] ts).head? =
      (importTarget ts).bind fun target =>
        scriptTag? (byteLength (tokensText target.1)) ([], target.2.1) := by
  rw [find?_scriptsOf_instance, head?_scriptsOf, importTarget, placed_eq]
  cases hinstance : splitFirst isInstanceScript (placedFrom [] ts) with
  | some split =>
    obtain ⟨before, placed, after⟩ := split
    obtain ⟨inside, content, rfl⟩ := exists_script_of_isTopScript
      (isTopScript_of_isInstanceScript (splitFirst_eq_some hinstance).2)
    simp [scriptTag?]
  | none =>
    cases htop : splitFirst isTopScript (placedFrom [] ts) with
    | none => rfl
    | some split =>
      obtain ⟨before, placed, after⟩ := split
      obtain ⟨inside, content, rfl⟩ := exists_script_of_isTopScript (splitFirst_eq_some htop).2
      simp [scriptTag?]

end Choice

/-- The injection by offsets makes no misstep and comes to what the tokens are written as. -/
theorem injectImports_eq (residual : String) (file : Path) (imports : List Import) :
    injectImports residual file imports =
      .ok (InlineComponents.injectImports residual file imports) := by
  rw [injectImports, InlineComponents.injectImports]
  split
  · rfl
  rw [scriptTags_eq, ok_bind, scriptsFrom]
  dsimp only
  cases (tokens residual.toList).any Token.isUnclosedScript with
  | true => rfl
  | false =>
  rw [if_neg Bool.false_ne_true, if_neg Bool.false_ne_true]
  dsimp only
  rw [List.nil_append, chosen_eq]
  cases htarget : importTarget (tokens residual.toList) with
  | none => rfl
  | some target =>
    obtain ⟨before, script, after⟩ := target
    obtain ⟨hsplit, inside, content, rfl⟩ := importTarget_eq_some htarget
    let opening := scriptOpening ++ inside ++ ['>']
    have hsource : residual.toList =
        (tokensText before ++ opening) ++ (content ++ tokensText after) := by
      rw [← tokensText_tokens residual.toList, hsplit]
      simp [opening, Token.render]
    have hstart : RestAt residual.toList 0
        ((tokensText before ++ opening) ++ (content ++ tokensText after)) :=
      hsource ▸ RestAt.start residual.toList
    have hbefore := hstart.cut_eq
    have hafter := hstart.append.cut_rest
    rw [Nat.zero_add, byteLength_append] at hbefore hafter
    rw [Option.bind_some, scriptTag?]
    dsimp only
    rw [hbefore, ok_bind, hafter, ok_bind]
    simp [opening, Token.prepend, Token.render, String.append_assoc]

end InlineComponents.Offsets
