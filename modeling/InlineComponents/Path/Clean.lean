import InlineComponents.Path.Tidy

namespace InlineComponents

def PathPart.text : PathPart → List Char
  | .root => []
  | .here => ['.']
  | .up => ['.', '.']
  | .name s => s.toList

namespace Path

/-- One component after those already walked, the last walked first: a parent takes back a name,
stays at the root, and is kept where there is nothing to take back. -/
def walk (walked : List PathPart) (c : PathPart) : List PathPart :=
  match c with
  | .here => walked
  | .up =>
    match walked with
    | .root :: _ => walked
    | .name _ :: before => before
    | _ => .up :: walked
  | c => c :: walked

/-- The components with parents taken back and dots left out. -/
def normalParts (p : Path) : List PathPart :=
  (p.parts.foldl walk []).reverse

/-- The shortest text of a list of components; no component is written as a dot. -/
def ofParts (parts : List PathPart) : Path :=
  match parts with
  | [] => ⟨"."⟩
  | [.root] => ⟨"/"⟩
  | parts => ⟨String.ofList (joinAll '/' (parts.map PathPart.text))⟩

theorem foldl_walk_names (walked : List PathPart) (names : List String) :
    (names.map PathPart.name).foldl walk walked = (names.map PathPart.name).reverse ++ walked := by
  induction names generalizing walked with
  | nil => rfl
  | cons name names ih => simp [walk, ih]

/-- The components of a tidy path are the root, if it begins with a slash, and its names. -/
theorem parts_of_isTidy {p : Path} (h : p.isTidy = true) :
    p.parts = (if (anchor p.text.toList).1 = ['/'] then [.root] else []) ++
      ((splitAll '/' (anchor p.text.toList).2).map String.ofList).map PathPart.name := by
  obtain ⟨ha, hn⟩ := all_isName_of_isTidy h
  have hi : ∀ s ∈ splitAll '/' (anchor p.text.toList).2, isIdle s = false ∧ s ≠ ['.', '.'] := by
    simpa [isName] using hn
  have hd := dropTail_eq_self fun s hs => (hi s hs).1
  have hf : (splitAll '/' (anchor p.text.toList).2).filter (fun s => !isIdle s) =
      splitAll '/' (anchor p.text.toList).2 :=
    List.filter_eq_self.mpr fun s hs => by simp [(hi s hs).1]
  have hm : (splitAll '/' (anchor p.text.toList).2).map segmentPart =
      ((splitAll '/' (anchor p.text.toList).2).map String.ofList).map PathPart.name := by
    rw [List.map_map]
    exact List.map_congr_left fun s hs => by simp [segmentPart, (hi s hs).2]
  simp only [parts, split, hd, hf, hm]
  rcases ha with ha | ha <;> simp [ha]

/-- A tidy path is in normal form. -/
theorem ofParts_normalParts_of_isTidy {p : Path} (h : p.isTidy = true) :
    ofParts p.normalParts = p := by
  have hj := flatMap_splitAll_go '/' [] (anchor p.text.toList).2
  rw [← splitAll] at hj
  have ht : (anchor p.text.toList).1 ++ (anchor p.text.toList).2 = p.text.toList := by
    unfold anchor
    split <;> simp_all
  have hp : p = ⟨String.ofList ((anchor p.text.toList).1 ++ (anchor p.text.toList).2)⟩ := by
    rw [ht, String.ofList_toList]
  obtain ⟨name, names, hs⟩ : ∃ name names, splitAll '/' (anchor p.text.toList).2 = name :: names :=
    List.exists_cons_of_ne_nil fun h => by simp [h] at hj
  have ha := (all_isName_of_isTidy h).1
  rw [normalParts, parts_of_isTidy h, List.foldl_append, foldl_walk_names, hs]
  have hb : (anchor p.text.toList).2 = name ++ names.flatMap ('/' :: ·) := by
    rw [hs] at hj
    simpa using hj.symm
  conv => rhs; rw [hp]
  rcases ha with ha | ha
  · simp [ha, hb, walk, ofParts, PathPart.text, joinAll, Function.comp_def]
  · simp [ha, hb, ofParts, PathPart.text, joinAll, Function.comp_def]

/-- The lexical normal form of a path. -/
def clean (p : Path) : Path :=
  if p.isTidy then p else ofParts p.normalParts

theorem clean_eq (p : Path) : p.clean = ofParts p.normalParts := by
  rw [clean]
  split
  · next h => exact (ofParts_normalParts_of_isTidy h).symm
  · rfl

end Path

end InlineComponents
