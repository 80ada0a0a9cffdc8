import InlineComponents.Proofs.Offsets.Attributes
import InlineComponents.Proofs.Offsets.RawElements

namespace InlineComponents.Offsets

/-- The opening tag of a script: where its content begins, and whether it is one of the module. -/
structure ScriptTag where
  contentStart : Nat
  isModule : Bool
  deriving DecidableEq, Repr

/-- Where a search for scripts is: the scripts found, and the elements that are open. -/
structure ScriptPlace where
  tags : List ScriptTag
  opened : OpenElements
  offset : Nat

abbrev Scripts : Type :=
  Except Failure (List ScriptTag)

abbrev ScriptRound : Type :=
  Reading (Round ScriptPlace Scripts)

/-- Where a name ends that begins at an offset: at the first boundary up to another offset. -/
def nameEnd (bytes : List UInt8) (start stop : Nat) : Nat :=
  match findByte isBoundary ((bytes.take stop).drop start) with
  | some length => start + length
  | none => stop

/-- The bytes up to an offset. -/
def bytesUpTo (bytes : List UInt8) (stop : Nat) : Reading (List UInt8) :=
  if stop ≤ bytes.length then .ok (bytes.take stop) else .error (.byte stop)

section Rounds

variable (source : String) (file : Path) (p : ScriptPlace) (lt : Nat)

/-- A closing tag: it ends an element. -/
def closingRound : ScriptRound := do
  match ← tagEnd (utf8 source.toList) (lt + 2) with
  | none => .ok (.done (.ok p.tags))
  | some close => do
    let name ← cut source (lt + 2) (nameEnd (utf8 source.toList) (lt + 2) close)
    .ok (.again ⟨p.tags, p.opened.close name, close + 1⟩)

/-- An opening tag: it ends an element whose own closing tag is left out, and opens one unless it
closes itself or is void. -/
def openingRound : ScriptRound := do
  let bytes := utf8 source.toList
  let nameStop := nameEnd bytes (lt + 1) bytes.length
  match ← tagEnd bytes nameStop with
  | none => .ok (.done (.ok p.tags))
  | some close => do
    let name ← cut source (lt + 1) nameStop
    let outer := p.opened.endOmitted name
    let before ← bytesUpTo bytes close
    if before.getLast?.any (fun byte => Char.ofUInt8 byte = '/') || isVoid name then
      .ok (.again ⟨p.tags, outer, close + 1⟩)
    else .ok (.again ⟨p.tags, outer.push name, close + 1⟩)

/-- The scripts found so far, with the one that begins at an offset if no element contains it. A
script's opening tag that is not closed is a failure. -/
def scriptAt : Reading Scripts :=
  let bytes := utf8 source.toList
  if isTagNamed bytes (lt + 1) RawTag.script.name then
    match closingAngle bytes (lt + 1 + byteLength RawTag.script.name) with
    | none => .ok (.error (.malformedScript file))
    | some close =>
      if p.opened.isEmpty then do
        let attributes ← cut source (lt + 1 + byteLength RawTag.script.name) close
        let isModule ← marksModule attributes
        .ok (.ok (p.tags ++ [⟨close + 1, isModule⟩]))
      else .ok (.ok p.tags)
  else .ok (.ok p.tags)

/-- What begins at a `<` that begins neither a comment nor a closing tag. -/
def elementRound : ScriptRound := do
  let bytes := utf8 source.toList
  match ← scriptAt source file p lt with
  | .error failure => .ok (.done (.error failure))
  | .ok tags => do
    match ← skipRaw bytes lt with
    | some stop => .ok (.again ⟨tags, p.opened, stop⟩)
    | none =>
      if hasAt Char.isAlpha bytes (lt + 1) then openingRound source ⟨tags, p.opened, p.offset⟩ lt
      else .ok (.again ⟨tags, p.opened, lt + 1⟩)

/-- What begins at a `<`. -/
def angleRound : ScriptRound := do
  let bytes := utf8 source.toList
  let rest ← bytesFrom bytes lt
  if (utf8 commentStart).isPrefixOf rest then do
    let said ← bytesFrom bytes (lt + byteLength commentStart)
    match findBytes (utf8 commentEnd) said with
    | some length =>
      .ok (.again { p with
        offset := lt + byteLength commentStart + length + byteLength commentEnd })
    | none => .ok (.done (.ok p.tags))
  else if (utf8 ['<', '/']).isPrefixOf rest && hasAt Char.isAlpha bytes (lt + 2) then
    closingRound source p lt
  else elementRound source file p lt

/-- One tag, comment or expression further. -/
def scriptRound : ScriptRound :=
  let bytes := utf8 source.toList
  if p.offset < bytes.length then do
    let ahead ← bytesFrom bytes p.offset
    match findByte (fun c => c = '<' || c = '{') ahead with
    | none => .ok (.done (.ok p.tags))
    | some length => do
      let byte ← byteAt bytes (p.offset + length)
      if byte = '{' then do
        let next ← skipExpression bytes (p.offset + length)
        .ok (.again { p with offset := next })
      else angleRound source file p (p.offset + length)
  else .ok (.done (.ok p.tags))

end Rounds

section Advance

variable {source : String} {file : Path} {p : ScriptPlace} {lt : Nat}

/-- A search that goes on does so behind this offset. -/
def GoesOnBehind (lt : Nat) : Round ScriptPlace Scripts → Prop
  | .again next => lt < next.offset
  | .done _ => True

theorem le_nameEnd (bytes : List UInt8) {start stop : Nat} (h : start ≤ stop) :
    start ≤ nameEnd bytes start stop := by
  unfold nameEnd
  split
  · exact Nat.le_add_right _ _
  · exact h

theorem closingRound_advances : Yields (closingRound source p lt) (GoesOnBehind lt) := by
  refine (le_of_tagEnd _ _).bind fun found hfound => ?_
  cases found with
  | none => exact yields_ok trivial
  | some close =>
    have hle := (hfound close rfl).1
    exact (yields_true _).bind fun name _ => yields_ok (show lt < close + 1 by omega)

theorem openingRound_advances (h : lt < (utf8 source.toList).length) :
    Yields (openingRound source p lt) (GoesOnBehind lt) := by
  have hname : lt + 1 ≤ nameEnd _ (lt + 1) _ := le_nameEnd (utf8 source.toList) h
  refine (le_of_tagEnd _ _).bind fun found hfound => ?_
  cases found with
  | none => exact yields_ok trivial
  | some close =>
    have hle := (hfound close rfl).1
    have hnext : lt < close + 1 := by omega
    refine (yields_true _).bind fun name _ => (yields_true _).bind fun before _ => ?_
    split
    · exact yields_ok hnext
    · exact yields_ok hnext

theorem elementRound_advances (h : lt < (utf8 source.toList).length) :
    Yields (elementRound source file p lt) (GoesOnBehind lt) := by
  refine (yields_true _).bind fun scripts _ => ?_
  cases scripts with
  | error failure => exact yields_ok trivial
  | ok tags =>
    refine (lt_of_skipRaw h).bind fun found hfound => ?_
    cases found with
    | some stop => exact yields_ok (hfound stop rfl).1
    | none =>
      dsimp only
      split
      · exact openingRound_advances h
      · exact yields_ok (Nat.lt_succ_self lt)

theorem angleRound_advances (h : lt < (utf8 source.toList).length) :
    Yields (angleRound source file p lt) (GoesOnBehind lt) := by
  refine (yields_true _).bind fun rest _ => ?_
  split
  · refine (yields_true _).bind fun said _ => ?_
    split
    · next length _ =>
      have hstart : byteLength commentStart = 4 := rfl
      refine yields_ok ?_
      show lt < lt + byteLength commentStart + length + byteLength commentEnd
      omega
    · exact yields_ok trivial
  split
  · exact closingRound_advances
  · exact elementRound_advances h

/-- A round of the search goes on from a later offset. -/
theorem scriptRound_advances (source : String) (file : Path) (p : ScriptPlace) :
    Yields (scriptRound source file p) fun
      | .again next => p.offset < (utf8 source.toList).length ∧ p.offset < next.offset
      | .done _ => True := by
  unfold scriptRound
  dsimp only
  split
  · next hin =>
    refine (yields_bytesFrom _ _).bind fun ahead hahead => ?_
    split
    · exact yields_ok trivial
    · next length hlength =>
      have hlt : p.offset + length < (utf8 source.toList).length := by
        have := lt_of_findByte hlength
        omega
      refine (yields_true _).bind fun byte _ => ?_
      split
      · refine (lt_of_skipExpression hlt).bind fun next hnext => yields_ok ⟨hin, ?_⟩
        dsimp only
        omega
      · refine (angleRound_advances hlt).imp ?_
        rintro (next | result) hround
        · exact ⟨hin, Nat.lt_of_le_of_lt (Nat.le_add_right ..) hround⟩
        · trivial
  · exact yields_ok trivial

end Advance

def scriptLoop (source : String) (file : Path) : Loop ScriptPlace Scripts where
  round := scriptRound source file
  left p := (utf8 source.toList).length - p.offset
  advances p := (scriptRound_advances source file p).imp fun
    | .again _, h => by dsimp only at h ⊢; omega
    | .done _, _ => trivial

/-- The scripts of a source that no element contains. -/
def scriptTags (source : String) (file : Path) : Reading Scripts :=
  (scriptLoop source file).run ⟨[], [], 0⟩

/-- The source with a statement for each import, put in at an offset or in a script of its own. -/
def injectImports (residual : String) (file : Path) (imports : List Import) :
    Reading (Except Failure String) :=
  if imports.isEmpty then .ok (.ok residual)
  else do
    let block := importBlock imports
    match ← scriptTags residual file with
    | .error failure => .ok (.error failure)
    | .ok tags =>
      match (tags.find? fun tag => !tag.isModule).or tags.head? with
      | some tag => do
        let before ← cut residual 0 tag.contentStart
        let after ← cut residual tag.contentStart residual.utf8ByteSize
        .ok (.ok (before ++ block ++ after))
      | none => .ok (.ok ("<script>" ++ block ++ "\n</script>\n" ++ residual))

end InlineComponents.Offsets
