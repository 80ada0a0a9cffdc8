import InlineComponents.Text.Cut

namespace InlineComponents

/-- What ends the name of a tag. -/
def isBoundary (c : Char) : Bool :=
  c = ' ' || c = '\t' || c = '\n' || c = '\r' || c = '>' || c = '/'

/-- Whether the text begins with `name` and a boundary after it. -/
def beginsTag (name : List Char) (s : List Char) : Bool :=
  name.isPrefixOf s && ((s.drop name.length).head?.any isBoundary)

def isQuote (c : Char) : Bool :=
  c = '"' || c = '\''

/-- The inside of a tag and the text after the `>` that closes it; a `>` in quotes closes
nothing. -/
def closeAngle (s : List Char) : Option (List Char × List Char) :=
  go none [] s
where
  go (quote : Option Char) (seen : List Char) : List Char → Option (List Char × List Char)
    | [] => none
    | c :: cs =>
      match quote with
      | some q => go (if c = q then none else some q) (c :: seen) cs
      | none =>
        if c = '>' then some (seen.reverse, cs)
        else go (if isQuote c then some c else none) (c :: seen) cs

def commentStart : List Char := ['<', '!', '-', '-']

def commentEnd : List Char := ['-', '-', '>']

/-- A comment, given the text after its start: what it says, and the text after its end. -/
def closeComment (s : List Char) : Option (List Char × List Char) :=
  (breakAt (commentEnd.isPrefixOf ·) s).map fun (said, rest) => (said, rest.drop commentEnd.length)

/-- The elements whose content is not markup. -/
inductive RawTag where
  | script
  | style
  deriving DecidableEq, Repr

def RawTag.name : RawTag → List Char
  | .script => ['s', 'c', 'r', 'i', 'p', 't']
  | .style => ['s', 't', 'y', 'l', 'e']

/-- The raw element whose opening tag begins the text. -/
def rawTag? (s : List Char) : Option RawTag :=
  match s with
  | '<' :: rest =>
    if beginsTag RawTag.script.name rest then some .script
    else if beginsTag RawTag.style.name rest then some .style
    else none
  | _ => none

def RawTag.closing (tag : RawTag) : List Char :=
  '<' :: '/' :: tag.name

/-- The content of a raw element with its closing tag, and the text after it. An element that is
not closed, or whose closing tag is not, takes all there is. -/
def closeRaw (tag : RawTag) (s : List Char) : List Char × List Char :=
  match breakAt (beginsTag tag.closing) s with
  | none => (s, [])
  | some (content, rest) =>
    match closeAngle (rest.drop tag.closing.length) with
    | none => (s, [])
    | some (inside, after) => (content ++ tag.closing ++ inside ++ ['>'], after)

theorem closeAngle_go_eq {quote : Option Char} {seen s inside rest : List Char}
    (h : closeAngle.go quote seen s = some (inside, rest)) :
    ∃ m, inside = seen.reverse ++ m ∧ s = m ++ '>' :: rest := by
  induction s generalizing quote seen with
  | nil => simp [closeAngle.go] at h
  | cons c cs ih =>
    unfold closeAngle.go at h
    split at h
    · obtain ⟨m, rfl, rfl⟩ := ih h
      exact ⟨c :: m, by simp, rfl⟩
    · split at h
      · next hc =>
        obtain ⟨rfl, rfl⟩ : seen.reverse = inside ∧ cs = rest := by simpa using h
        exact ⟨[], by simp, by simp [hc]⟩
      · obtain ⟨m, rfl, rfl⟩ := ih h
        exact ⟨c :: m, by simp, rfl⟩

/-- The inside, the `>` and the rest are the text again. -/
theorem closeAngle_append {s inside rest : List Char} (h : closeAngle s = some (inside, rest)) :
    s = inside ++ '>' :: rest := by
  obtain ⟨m, rfl, rfl⟩ := closeAngle_go_eq h
  simp

theorem closeComment_append {s said rest : List Char} (h : closeComment s = some (said, rest)) :
    s = said ++ commentEnd ++ rest := by
  obtain ⟨⟨a, b⟩, hb, he⟩ := Option.map_eq_some_iff.mp h
  obtain ⟨rfl, hp⟩ := breakAt_append hb
  obtain ⟨t, rfl⟩ := List.isPrefixOf_iff_prefix.mp hp
  obtain ⟨rfl, rfl⟩ : a = said ∧ (commentEnd ++ t).drop commentEnd.length = rest := by
    simpa using he
  simp

theorem beginsTag_prefix {name s : List Char} (h : beginsTag name s = true) :
    s = name ++ s.drop name.length := by
  obtain ⟨t, rfl⟩ := List.isPrefixOf_iff_prefix.mp (Bool.and_eq_true_iff.mp h).1
  simp

/-- A raw element's tag begins with `<` and the element's name. -/
theorem rawTag?_prefix {s : List Char} {raw : RawTag} (h : rawTag? s = some raw) :
    s = '<' :: raw.name ++ s.drop ('<' :: raw.name).length := by
  unfold rawTag? at h
  split at h
  · split at h
    · next hb => obtain rfl := Option.some.inj h; simpa using beginsTag_prefix hb
    · split at h
      · next hb => obtain rfl := Option.some.inj h; simpa using beginsTag_prefix hb
      · simp at h
  · simp at h

/-- Nothing of a raw element is lost. -/
theorem closeRaw_append (tag : RawTag) (s : List Char) :
    (closeRaw tag s).1 ++ (closeRaw tag s).2 = s := by
  unfold closeRaw
  split
  · simp
  · next content rest hb =>
    split
    · simp
    · next inside after ha =>
      obtain ⟨rfl, hp⟩ := breakAt_append hb
      have hr := beginsTag_prefix hp
      rw [closeAngle_append ha] at hr
      rw [hr]; simp

end InlineComponents
