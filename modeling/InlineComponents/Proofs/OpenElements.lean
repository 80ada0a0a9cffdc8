import InlineComponents.Imports
import InlineComponents.Proofs.Documents

namespace InlineComponents

/-- The elements that are open after some tokens. -/
def OpenElements.afterAll (opened : OpenElements) (ts : List Token) : OpenElements :=
  ts.foldl OpenElements.after opened

theorem OpenElements.afterAll_cons (opened : OpenElements) (t : Token) (ts : List Token) :
    opened.afterAll (t :: ts) = (opened.after t).afterAll ts :=
  rfl

theorem OpenElements.afterAll_append (opened : OpenElements) (ts us : List Token) :
    opened.afterAll (ts ++ us) = (opened.afterAll ts).afterAll us :=
  List.foldl_append

/-- Each token with the elements that are open before it, where some are open at the start. -/
def placedFrom (opened : OpenElements) : List Token → List (OpenElements × Token)
  | [] => []
  | t :: ts => (opened, t) :: placedFrom (opened.after t) ts

theorem placed_go_eq (opened : OpenElements) (found : List (OpenElements × Token))
    (ts : List Token) : placed.go opened found ts = found.reverse ++ placedFrom opened ts := by
  induction ts generalizing opened found with
  | nil => simp [placed.go, placedFrom]
  | cons t ts ih => simp [placed.go, placedFrom, ih]

theorem placed_eq (ts : List Token) : placed ts = placedFrom [] ts :=
  placed_go_eq [] [] ts

theorem placedFrom_append (opened : OpenElements) (ts us : List Token) :
    placedFrom opened (ts ++ us) = placedFrom opened ts ++ placedFrom (opened.afterAll ts) us := by
  induction ts generalizing opened with
  | nil => rfl
  | cons t ts ih => simp [placedFrom, ih, OpenElements.afterAll]

theorem map_snd_placedFrom (opened : OpenElements) (ts : List Token) :
    (placedFrom opened ts).map Prod.snd = ts := by
  induction ts generalizing opened with
  | nil => rfl
  | cons t ts ih => simp [placedFrom, ih]

/-- The scripts among tokens that no element contains. -/
def topScripts (opened : OpenElements) (ts : List Token) : List (OpenElements × Token) :=
  (placedFrom opened ts).filter isTopScript

theorem topScripts_append (opened : OpenElements) (ts us : List Token) :
    topScripts opened (ts ++ us) =
      topScripts opened ts ++ topScripts (opened.afterAll ts) us := by
  rw [topScripts, placedFrom_append, List.filter_append]
  rfl

theorem topScripts_cons (opened : OpenElements) (t : Token) (ts : List Token) :
    topScripts opened (t :: ts) =
      [(opened, t)].filter isTopScript ++ topScripts (opened.after t) ts :=
  topScripts_append opened [t] ts

theorem topScripts_cons_of_ne_script (opened : OpenElements) {t : Token}
    (h : ∀ inside content, t ≠ .script inside content) (ts : List Token) :
    topScripts opened (t :: ts) = topScripts (opened.after t) ts := by
  have hno : isTopScript (opened, t) = false := by
    cases t with
    | script inside content => exact absurd rfl (h inside content)
    | _ => cases opened <;> rfl
  exact List.filter_cons_of_neg (by simp [hno])

/-- Text opens and closes nothing. -/
theorem filter_isTag (opened : OpenElements) (ts : List Token) :
    opened.afterAll (ts.filter Token.isTag) = opened.afterAll ts ∧
      topScripts opened (ts.filter Token.isTag) = topScripts opened ts := by
  induction ts generalizing opened with
  | nil => exact ⟨rfl, rfl⟩
  | cons t ts ih =>
    obtain ⟨hafter, hscripts⟩ := ih (opened.after t)
    by_cases ht : t.isTag = true
    · rw [List.filter_cons_of_pos ht]
      refine ⟨hafter, ?_⟩
      rw [topScripts_cons, hscripts, topScripts_cons]
    · rw [List.filter_cons_of_neg ht]
      cases t with
      | text chars =>
        have hcons : topScripts opened (.text chars :: ts) = topScripts opened ts :=
          topScripts_cons_of_ne_script opened (fun _ _ => Token.noConfusion) ts
        exact ⟨hafter, hscripts.trans hcons.symm⟩
      | _ => exact absurd rfl ht

namespace OpenElements

/-- The open elements with one more inside them, if there is one. -/
def pushAny (opened : OpenElements) (name? : Option ElementName) : OpenElements :=
  name?.elim opened opened.push

theorem endOmitted_push_of_notMem (opened : OpenElements) {name next : ElementName}
    (h : next ∉ endedBy name) : (opened.push name).endOmitted next = opened.push name := by
  simp [push, endOmitted, h]

/-- An opening tag ends the element that is left to be ended, and no other. -/
theorem endOmitted_pushAny {opened : OpenElements} {pending : Option ElementName}
    {next : ElementName} (hkept : opened.endOmitted next = opened)
    (hp : ∀ name ∈ pending, next ∈ endedBy name) :
    (opened.pushAny pending).endOmitted next = opened := by
  cases pending with
  | none => exact hkept
  | some name => simp [pushAny, push, endOmitted, hp name rfl]

/-- A closing tag ends its own element, and the one in it that is left to be ended. -/
theorem close_push_pushAny {opened : OpenElements} {name : ElementName}
    {pending : Option ElementName} (hp : ∀ inner ∈ pending, name ≠ inner) :
    ((opened.push name).pushAny pending).close name = opened := by
  cases pending with
  | none => exact close_push opened name
  | some inner =>
    have hopen : ((opened.push name).push inner).isOpen name = true := by simp
    have hne : (inner != name) = true := by simpa using Ne.symm (hp inner rfl)
    rw [pushAny, Option.elim_some, close, if_pos hopen]
    simp [push, hne]

end OpenElements

namespace Node

variable {parent : Option ElementName} {n : Node} {ns : List Node}

/-- What is no element ends none. -/
theorem endedBy_cons_of_not_isElement (h : n.isElement = false) {name : ElementName} :
    EndedBy parent name (n :: ns) ↔ EndedBy parent name ns := by
  simp [EndedBy, h]

theorem endedBy_cons_of_isElement (h : n.isElement = true) {name : ElementName} :
    EndedBy parent name (n :: ns) ↔ ∃ other ∈ n.opened?, other ∈ endedBy name := by
  simp [EndedBy, h]

/-- A script among the nodes, as a token. -/
def script? : Node → Option Token
  | .raw .script inside content ending =>
    some (.script inside (content ++ RawTag.script.closing ++ ending ++ ['>']))
  | _ => none

/-- The tags of nodes leave the elements open that were open before them, but for one that the
closing tag of their parent ends. The scripts that no element contains are those among the nodes
themselves, if no element contains the nodes. -/
structure Passes (parent : Option ElementName) (opened : OpenElements)
    (pending : Option ElementName) (ns : List Node) : Prop where
  left : ∃ left, (opened.pushAny pending).afterAll (tagsAll ns) = opened.pushAny left ∧
    ∀ name ∈ left, ∃ outer ∈ parent, outer ≠ name
  scripts : topScripts (opened.pushAny pending) (tagsAll ns) =
    if opened = [] then (ns.filterMap script?).map (([], ·)) else []

theorem Passes.cons {opened : OpenElements} {pending next : Option ElementName}
    (h : Passes parent opened next ns)
    (hafter : (opened.pushAny pending).afterAll n.tags = opened.pushAny next)
    (hscripts : topScripts (opened.pushAny pending) n.tags =
      if opened = [] then n.script?.toList.map (([], ·)) else []) :
    Passes parent opened pending (n :: ns) where
  left := by
    rw [tagsAll, OpenElements.afterAll_append, hafter]
    exact h.left
  scripts := by
    rw [tagsAll, topScripts_append, hafter, hscripts, h.scripts]
    split
    · cases hs : n.script? <;> simp [hs]
    · rfl

/-- The opening tag of an element ends the one that is left to be ended. -/
theorem endOmitted_of_endedBy {opened : OpenElements} {pending : Option ElementName}
    {next : ElementName} (hn : n.isElement = true) (hnext : n.opened? = some next)
    (hkept : ∀ m ∈ n :: ns, ∀ name ∈ m.opened?, opened.endOmitted name = opened)
    (hp : ∀ name ∈ pending, EndedBy parent name (n :: ns)) :
    (opened.pushAny pending).endOmitted next = opened := by
  apply OpenElements.endOmitted_pushAny
  · exact hkept n List.mem_cons_self next hnext
  · intro name hname
    obtain ⟨other, ho, hended⟩ := (endedBy_cons_of_isElement hn).mp (hp name hname)
    obtain rfl := Option.some.inj (hnext.symm.trans ho)
    exact hended

theorem afterAll_element {name inside : List Char} {children : List Node}
    {ending : Option (List Char)} {opened : OpenElements} {pending : Option ElementName}
    (hopens : endsWithSlash inside = false ∧ isVoid (String.ofList name) = false)
    (hout : (opened.pushAny pending).endOmitted (String.ofList name) = opened)
    (hchildren : Passes (ending.map fun _ => String.ofList name)
      (opened.push (String.ofList name)) none children) :
    (opened.pushAny pending).afterAll (Node.element name inside children ending).tags =
        opened.pushAny (Node.element name inside children ending).unclosed? ∧
      topScripts (opened.pushAny pending) (Node.element name inside children ending).tags = [] := by
  obtain ⟨left, hleft, hended⟩ := hchildren.left
  have hafter : (opened.pushAny pending).after (.opening name inside) =
      opened.push (String.ofList name) := by
    simp [OpenElements.after, hout, hopens]
  have hscripts : topScripts (opened.push (String.ofList name)) (tagsAll children) = [] :=
    hchildren.scripts.trans (if_neg (List.cons_ne_nil _ _))
  have hopening (ts : List Token) : topScripts (opened.pushAny pending) (.opening name inside :: ts) =
      topScripts (opened.push (String.ofList name)) ts := by
    rw [topScripts_cons_of_ne_script _ fun _ _ => Token.noConfusion, hafter]
  rw [tags, OpenElements.afterAll_cons, hafter, hopening, OpenElements.afterAll_append,
    topScripts_append, hscripts]
  rw [OpenElements.pushAny, Option.elim_none] at hleft
  rw [hleft]
  cases ending with
  | none =>
    obtain rfl : left = none := by
      cases left with
      | none => rfl
      | some inner =>
        obtain ⟨outer, ho, -⟩ := hended inner rfl
        cases ho
    exact ⟨rfl, rfl⟩
  | some ending =>
    have hne : ∀ inner ∈ left, String.ofList name ≠ inner := by
      intro inner hi
      obtain ⟨outer, ho, hne⟩ := hended inner hi
      obtain rfl := Option.some.inj ho
      exact hne
    have hclosed : ((opened.push (String.ofList name)).pushAny left).close (String.ofList name) =
        opened := OpenElements.close_push_pushAny hne
    refine ⟨hclosed, ?_⟩
    exact topScripts_cons_of_ne_script _ (fun _ _ => Token.noConfusion) []

theorem passes (ns : List Node) (hw : AllWellFormed ns) (he : AllEnded parent ns)
    {opened : OpenElements}
    (hkept : ∀ n ∈ ns, ∀ name ∈ n.opened?, opened.endOmitted name = opened)
    {pending : Option ElementName} (hp : ∀ name ∈ pending, EndedBy parent name ns) :
    Passes parent opened pending ns := by
  induction ns using list_induction generalizing parent opened pending with
  | nil => exact ⟨⟨pending, rfl, hp⟩, by split <;> rfl⟩
  | text chars ns ih =>
    refine (ih hw.2 he.2 (fun n hn => hkept n (List.mem_cons_of_mem _ hn)) ?_).cons rfl ?_
    · exact fun name hname => (endedBy_cons_of_not_isElement rfl).mp (hp name hname)
    · split <;> rfl
  | expression said ns ih =>
    refine (ih hw.2 he.2 (fun n hn => hkept n (List.mem_cons_of_mem _ hn)) ?_).cons rfl ?_
    · exact fun name hname => (endedBy_cons_of_not_isElement rfl).mp (hp name hname)
    · split <;> rfl
  | comment said ns ih =>
    refine (ih hw.2 he.2 (fun n hn => hkept n (List.mem_cons_of_mem _ hn)) ?_).cons rfl ?_
    · exact fun name hname => (endedBy_cons_of_not_isElement rfl).mp (hp name hname)
    · split <;> rfl
  | raw tag inside content ending ns ih =>
    -- nothing is left to be ended, as a raw element ends nothing
    obtain rfl : pending = none := by
      cases pending with
      | none => rfl
      | some name =>
        obtain ⟨other, ho, -⟩ := (endedBy_cons_of_isElement rfl).mp (hp name rfl)
        cases ho
    have hrest : Passes parent opened none ns :=
      ih hw.2 he.2 (fun n hn => hkept n (List.mem_cons_of_mem _ hn)) (by simp)
    refine hrest.cons ?_ ?_
    · cases tag <;> rfl
    · cases tag <;> cases opened <;> rfl
  | childless name inside ns ih =>
    have hout := endOmitted_of_endedBy rfl rfl hkept hp
    have hafter : (opened.pushAny pending).after (.opening name inside) = opened := by
      simp [OpenElements.after, hout, hw.1.2.2]
    have hrest : Passes parent opened none ns :=
      ih hw.2 he.2 (fun n hn => hkept n (List.mem_cons_of_mem _ hn)) (by simp)
    have hscripts : topScripts (opened.pushAny pending) [.opening name inside] = [] :=
      topScripts_cons_of_ne_script _ (fun _ _ => Token.noConfusion) []
    refine hrest.cons hafter ?_
    rw [tags, hscripts]
    split <;> rfl
  | element name inside children ending ns ihchildren ih =>
    obtain ⟨⟨-, hopens, hkeeps, hended, hchildren⟩, hns⟩ := hw
    have hout := endOmitted_of_endedBy rfl rfl hkept hp
    have hinner : Passes (ending.map fun _ => String.ofList name)
        (opened.push (String.ofList name)) none children :=
      ihchildren hchildren hended (fun child hc other ho =>
        OpenElements.endOmitted_push_of_notMem opened (hkeeps child hc other ho)) (by simp)
    obtain ⟨hafter, hscripts⟩ := afterAll_element hopens hout hinner
    refine (ih hns he.2 (fun n hn => hkept n (List.mem_cons_of_mem _ hn)) he.1).cons hafter ?_
    rw [hscripts]
    split <;> rfl

end Node

end InlineComponents
