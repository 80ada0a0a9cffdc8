import InlineComponents.Path.Clean
import InlineComponents.Path.FileName

namespace InlineComponents

theorem splitAll_go_of_notMem {sep : Char} {s : List Char} (h : sep ∉ s) (part : List Char) :
    splitAll.go sep part [] s = [part.reverse ++ s] := by
  induction s generalizing part with
  | nil => simp [splitAll.go]
  | cons c s ih =>
    have hc : c ≠ sep := by
      rintro rfl
      exact h List.mem_cons_self
    rw [splitAll_go_cons, if_neg hc, ih fun hs => h (List.mem_cons_of_mem c hs)]
    simp

theorem splitAll_of_notMem {sep : Char} {s : List Char} (h : sep ∉ s) : splitAll sep s = [s] :=
  splitAll_go_of_notMem h []

theorem splitAll_go_append (sep : Char) (part s t : List Char) :
    splitAll.go sep part [] (s ++ sep :: t) = splitAll.go sep part [] s ++ splitAll sep t := by
  induction s generalizing part with
  | nil => simp [splitAll_go_cons, splitAll.go, splitAll]
  | cons c s ih =>
    rw [List.cons_append, splitAll_go_cons, splitAll_go_cons, ih, ih]
    split <;> rfl

/-- A separator splits a text wherever it stands. -/
theorem splitAll_append (sep : Char) (s t : List Char) :
    splitAll sep (s ++ sep :: t) = splitAll sep s ++ splitAll sep t :=
  splitAll_go_append sep [] s t

/-- Parts without the separator are got back from where they are joined. -/
theorem splitAll_joinAll {sep : Char} {parts : List (List Char)} (hne : parts ≠ [])
    (h : ∀ part ∈ parts, sep ∉ part) : splitAll sep (joinAll sep parts) = parts := by
  induction parts with
  | nil => exact absurd rfl hne
  | cons part parts ih =>
    have hp := splitAll_of_notMem (h part List.mem_cons_self)
    have hps : ∀ other ∈ parts, sep ∉ other := fun other ho => h other (List.mem_cons_of_mem part ho)
    by_cases hn : parts = []
    · subst hn
      simpa [joinAll] using hp
    · have hj := joinAll_append sep (List.cons_ne_nil part []) hn
      have hone : joinAll sep [part] = part := by simp [joinAll]
      rw [List.singleton_append, hone] at hj
      rw [hj, splitAll_append, hp, ih hn hps]
      rfl

theorem notMem_of_mem_splitAll_go {sep : Char} {seen s part : List Char} (hs : sep ∉ seen)
    (h : part ∈ splitAll.go sep seen [] s) : sep ∉ part := by
  induction s generalizing seen with
  | nil =>
    obtain rfl : part = seen.reverse := by simpa [splitAll.go] using h
    simpa using hs
  | cons c s ih =>
    rw [splitAll_go_cons] at h
    split at h
    · rcases List.mem_cons.mp h with rfl | h
      · simpa using hs
      · exact ih List.not_mem_nil h
    · next hc =>
      refine ih ?_ h
      intro hm
      rcases List.mem_cons.mp hm with rfl | hm
      · exact hc rfl
      · exact hs hm

theorem notMem_of_mem_splitAll {sep : Char} {s part : List Char} (h : part ∈ splitAll sep s) :
    sep ∉ part :=
  notMem_of_mem_splitAll_go List.not_mem_nil h

namespace Path

/-- What stands in front of a path's segments. -/
def leadParts (lead : List Char) : List PathPart :=
  if lead = ['/'] then [.root] else if lead = ['.'] then [.here] else []

def segmentParts (segments : List (List Char)) : List PathPart :=
  (segments.filter fun s => !isIdle s).map segmentPart

theorem segmentParts_append (first second : List (List Char)) :
    segmentParts (first ++ second) = segmentParts first ++ segmentParts second := by
  simp [segmentParts]

theorem segmentParts_of_isIdle {segments : List (List Char)}
    (h : ∀ s ∈ segments, isIdle s = true) : segmentParts segments = [] := by
  simpa [segmentParts] using h

theorem exists_dropTail_append {α : Type} (p : α → Bool) (s : List α) :
    ∃ tail, s = dropTail p s ++ tail ∧ ∀ a ∈ tail, p a = true := by
  refine ⟨(s.reverse.takeWhile p).reverse, ?_, ?_⟩
  · rw [dropTail, ← List.reverse_append, List.takeWhile_append_dropWhile, List.reverse_reverse]
  · intro a ha
    exact List.all_eq_true.mp List.all_takeWhile a (List.mem_reverse.mp ha)

theorem segmentParts_dropTail (segments : List (List Char)) :
    segmentParts (dropTail isIdle segments) = segmentParts segments := by
  obtain ⟨tail, hs, ht⟩ := exists_dropTail_append isIdle segments
  conv => rhs; rw [hs, segmentParts_append, segmentParts_of_isIdle ht, List.append_nil]

theorem parts_eq (p : Path) :
    p.parts = leadParts (anchor p.text.toList).1 ++
      segmentParts (splitAll '/' (anchor p.text.toList).2) := by
  rw [← segmentParts_dropTail]
  rfl

/-- A slash in a path, not in front of it, takes nothing from its anchor. -/
theorem anchor_append {s : List Char} (hs : s ≠ []) (t : List Char) :
    anchor (s ++ '/' :: t) = ((anchor s).1, (anchor s).2 ++ '/' :: t) := by
  fun_cases anchor s with
  | case1 rest => rfl
  | case2 => rfl
  | case3 rest => rfl
  | case4 s hroot hdot hhere =>
    obtain ⟨c, s, rfl⟩ := List.exists_cons_of_ne_nil hs
    rw [List.cons_append, anchor.eq_4]
    · intro rest he
      exact hroot s (congrArg (· :: s) (List.cons.inj he).1)
    · intro he
      simp at he
    · intro rest he
      obtain ⟨rfl, hr⟩ := List.cons.inj he
      cases s with
      | nil => exact hdot rfl
      | cons d s =>
        obtain ⟨rfl, -⟩ := List.cons.inj hr
        exact hhere s rfl

theorem parts_append {s : List Char} (hs : s ≠ []) (t : List Char) :
    parts ⟨String.ofList (s ++ '/' :: t)⟩ =
      parts ⟨String.ofList s⟩ ++ segmentParts (splitAll '/' t) := by
  simp only [parts_eq, String.toList_ofList, anchor_append hs, splitAll_append,
    segmentParts_append, List.append_assoc]

/-- A segment that is a name, and holds no slash. -/
structure IsEntryName (s : List Char) : Prop where
  named : isName s = true
  noSlash : '/' ∉ s

theorem IsEntryName.ne_nil {s : List Char} (h : IsEntryName s) : s ≠ [] := by
  rintro rfl
  exact absurd h.named (by decide)

theorem IsEntryName.anchor_eq {s : List Char} (h : IsEntryName s) (t : List Char) :
    anchor (s ++ t) = ([], s ++ t) := by
  have hn := h.named
  have hs := h.noSlash
  obtain ⟨c, s, rfl⟩ := List.exists_cons_of_ne_nil h.ne_nil
  have hc : c ≠ '/' := fun he => hs (he ▸ List.mem_cons_self)
  rw [List.cons_append, anchor.eq_4]
  · intro rest he
    exact hc (List.cons.inj he).1
  · intro he
    obtain ⟨rfl, hr⟩ := List.cons.inj he
    obtain ⟨rfl, -⟩ := List.append_eq_nil_iff.mp hr
    exact absurd hn (by decide)
  · intro rest he
    obtain ⟨rfl, hr⟩ := List.cons.inj he
    cases s with
    | nil => exact absurd hn (by decide)
    | cons d s =>
      obtain ⟨rfl, -⟩ := List.cons.inj hr
      exact hs (by simp)

theorem IsEntryName.segmentParts_eq {s : List Char} (h : IsEntryName s) :
    segmentParts (splitAll '/' s) = [.name (String.ofList s)] := by
  rw [splitAll_of_notMem h.noSlash]
  have hn := h.named
  simp only [isName, Bool.and_eq_true, Bool.not_eq_true', decide_eq_true_eq] at hn
  simp [segmentParts, segmentPart, hn]

/-- A name that is joined to a path is its last component. -/
theorem parts_join {name : String} (h : IsEntryName name.toList) (p : Path) :
    (p.join name).parts = p.parts ++ [.name name] := by
  have hname : segmentParts (splitAll '/' name.toList) = [.name name] := by
    rw [h.segmentParts_eq, String.ofList_toList]
  have hslash : name.startsWith '/' = false := by
    rw [String.startsWith_char_eq_head?]
    cases hn : name.toList with
    | nil => rfl
    | cons c s =>
      have hc : c ≠ '/' := fun he => h.noSlash (by simp [hn, he])
      simpa using hc
  have halone (lead : List Char) (hl : lead = [] ∨ lead = ['/']) :
      parts ⟨String.ofList (lead ++ name.toList)⟩ = leadParts lead ++ [.name name] := by
    rcases hl with rfl | rfl
    · have ha := h.anchor_eq []
      rw [List.append_nil] at ha
      simp only [parts_eq, String.toList_ofList, List.nil_append, ha, hname]
    · rw [parts_eq, String.toList_ofList, ← hname]
      rfl
  rw [join, if_neg (by simp [hslash])]
  split
  · next hend =>
    have hjoin (s : List Char) (hs : p.text.toList = s) :
        p = ⟨String.ofList s⟩ ∧ p.text ++ name = String.ofList (s ++ name.toList) := by
      subst hs
      exact ⟨by rw [String.ofList_toList], by rw [String.ofList_append]; simp⟩
    rcases Bool.or_eq_true_iff.mp hend with hempty | hend
    · obtain ⟨hp, ht⟩ := hjoin [] (by simpa using hempty)
      rw [ht, halone [] (.inl rfl), hp]
      rfl
    · rw [String.endsWith_char_eq_getLast?, beq_iff_eq, List.getLast?_eq_some_iff] at hend
      obtain ⟨s, hs⟩ := hend
      obtain ⟨hp, ht⟩ := hjoin _ hs
      rw [ht, List.append_assoc, List.singleton_append]
      by_cases hn : s = []
      · rw [hp, hn]
        exact halone ['/'] (.inr rfl)
      · rw [parts_append hn, hname, hp, parts_append hn]
        simp [splitAll, splitAll.go, segmentParts, isIdle]
  · next hend =>
    have hne : p.text.toList ≠ [] := by
      intro hn
      have he : p.text = "" := String.toList_eq_nil_iff.mp hn
      simp [he] at hend
    have ht : p.text ++ "/" ++ name = String.ofList (p.text.toList ++ '/' :: name.toList) := by
      apply String.toList_inj.mp
      simp
    rw [ht, parts_append hne, hname, String.ofList_toList]

theorem anchor_fst_append_snd (s : List Char) : (anchor s).1 ++ (anchor s).2 = s := by
  fun_cases anchor s <;> rfl

/-- The anchor of a text is also that of its first segments. -/
theorem anchor_glue {s : List Char} {segments tail : List (List Char)} (hne : segments ≠ [])
    (h : splitAll '/' (anchor s).2 = segments ++ tail) :
    anchor ((anchor s).1 ++ joinAll '/' segments) = ((anchor s).1, joinAll '/' segments) := by
  have hs := anchor_fst_append_snd s
  have hj := joinAll_splitAll '/' (anchor s).2
  rw [h] at hj
  by_cases ht : tail = []
  · rw [ht, List.append_nil] at hj
    rw [hj, hs]
  · rw [joinAll_append '/' hne ht] at hj
    by_cases hempty : (anchor s).1 ++ joinAll '/' segments = []
    · obtain ⟨hl, hg⟩ := List.append_eq_nil_iff.mp hempty
      rw [hl, hg]
      rfl
    · have ha := anchor_append hempty (joinAll '/' tail)
      rw [List.append_assoc, hj, hs] at ha
      have hl : (anchor ((anchor s).1 ++ joinAll '/' segments)).1 = (anchor s).1 :=
        (congrArg Prod.fst ha).symm
      have hr : (anchor s).2 = _ := congrArg Prod.snd ha
      rw [← hj] at hr
      exact Prod.ext hl (List.append_cancel_right hr).symm

theorem parts_glue {p : Path} {segments tail : List (List Char)}
    (h : splitAll '/' (anchor p.text.toList).2 = segments ++ tail) :
    parts ⟨glue (anchor p.text.toList).1 segments⟩ =
      leadParts (anchor p.text.toList).1 ++ segmentParts segments := by
  by_cases hne : segments = []
  · subst hne
    have hl : (anchor p.text.toList).1 = [] ∨ (anchor p.text.toList).1 = ['/'] ∨
        (anchor p.text.toList).1 = ['.'] := by
      fun_cases anchor p.text.toList <;> simp
    rcases hl with hl | hl | hl <;> rw [hl] <;> rfl
  · have hsplit : splitAll '/' (joinAll '/' segments) = segments := by
      apply splitAll_joinAll hne
      intro s hs
      exact notMem_of_mem_splitAll (h ▸ List.mem_append_left tail hs)
    rw [parts_eq, glue, String.toList_ofList, anchor_glue hne h, hsplit]

theorem isIdle_getLast?_dropTail (segments : List (List Char)) :
    (dropTail isIdle segments).getLast?.any isIdle = false := by
  have hd := head?_dropWhile_isIdle segments.reverse
  rw [← List.getLast?_reverse] at hd
  exact hd

/-- A path that ends in a name is the place where it lies, and that name. -/
theorem parts_of_fileName {p : Path} {name : String} (h : p.fileName = some name) :
    IsEntryName name.toList ∧ p.parts = p.place.parts ++ [.name name] := by
  let segments := splitAll '/' (anchor p.text.toList).2
  have hsplit : p.split = ((anchor p.text.toList).1, dropTail isIdle segments) := rfl
  obtain ⟨last, hlast, hname⟩ : ∃ last, (dropTail isIdle segments).getLast? = some last ∧
      last ≠ ['.', '.'] ∧ String.ofList last = name := by
    unfold fileName at h
    rw [hsplit] at h
    split at h
    · simp at h
    · next last hl =>
      split at h
      · simp at h
      · next hn => exact ⟨last, hl, hn, Option.some.inj h⟩
  obtain ⟨hup, rfl⟩ := hname
  obtain ⟨init, hinit⟩ := List.getLast?_eq_some_iff.mp hlast
  have hidle : isIdle last = false := by
    have hd := isIdle_getLast?_dropTail segments
    rw [hlast] at hd
    exact hd
  have hentry : IsEntryName last := by
    refine ⟨by simp [Path.isName, hidle, hup], ?_⟩
    apply notMem_of_mem_splitAll
    exact ( dropTail_prefix isIdle segments).subset (by simp [hinit])
  refine ⟨by rwa [String.toList_ofList], ?_⟩
  have hplace : p.place = ⟨glue (anchor p.text.toList).1 (dropTail isIdle init)⟩ := by
    rw [place, if_pos (by simp [h]), parent, hsplit, hinit, List.reverse_append]
    simp [nextAbove, hidle, dropTail]
  obtain ⟨tail, htail⟩ := ( dropTail_prefix isIdle init).trans
    ((List.prefix_append init [last]).trans (hinit ▸ dropTail_prefix isIdle segments))
  rw [hplace, parts_glue htail.symm, segmentParts_dropTail, parts_eq, ← segmentParts_dropTail,
    List.append_assoc]
  change _ ++ segmentParts (dropTail isIdle segments) = _
  rw [hinit, segmentParts_append]
  have hone := hentry.segmentParts_eq
  rw [splitAll_of_notMem hentry.noSlash] at hone
  rw [hone]

/-- The last component of a path is its file name, if it is a name. -/
theorem fileName_of_parts {p : Path} {front : List PathPart} {name : String}
    (h : p.parts = front ++ [.name name]) : p.fileName = some name := by
  have hparts : p.parts = leadParts p.split.1 ++ segmentParts p.split.2 := rfl
  cases hlast : p.split.2.getLast? with
  | none =>
    have hnil : p.split.2 = [] := List.getLast?_eq_none_iff.mp hlast
    have hlead : (leadParts p.split.1).getLast? = some (.name name) := by
      rw [hparts, hnil, segmentParts, List.filter_nil, List.map_nil, List.append_nil] at h
      simp [h]
    unfold leadParts at hlead
    split at hlead
    · simp at hlead
    · split at hlead <;> simp at hlead
  | some last =>
    obtain ⟨init, hinit⟩ := List.getLast?_eq_some_iff.mp hlast
    have hidle : isIdle last = false := by
      have hd := isIdle_getLast?_dropTail (splitAll '/' (anchor p.text.toList).2)
      change p.split.2.getLast?.any isIdle = false at hd
      rw [hlast] at hd
      exact hd
    have hone : segmentParts [last] = [segmentPart last] := by simp [segmentParts, hidle]
    rw [hparts, hinit, segmentParts_append, hone, ← List.append_assoc] at h
    obtain ⟨-, hname⟩ := List.append_inj' h rfl
    rw [List.singleton_inj, segmentPart] at hname
    rw [fileName, hlast]
    dsimp only
    split at hname
    · cases hname
    · next hup => rw [if_neg hup, PathPart.name.inj hname]

end Path

end InlineComponents
