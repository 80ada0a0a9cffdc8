import InlineComponents.FileSystem.Tree.Files
import InlineComponents.Proofs.Contents

namespace InlineComponents

namespace Table

variable {κ υ : Type} [DecidableEq κ] {t : Table κ υ} {k : κ}

theorem find?_modify (t : Table κ υ) (k l : κ) (change : υ → υ) :
    (t.modify k change).find? l = if l = k then (t.find? l).map change else t.find? l := by
  have hkeys : ((fun entry : κ × υ => decide (entry.1 = l)) ∘ fun entry : κ × υ =>
      if entry.1 = k then (entry.1, change entry.2) else entry) =
        fun entry : κ × υ => decide (entry.1 = l) := by
    funext entry
    by_cases he : entry.1 = k <;> simp [he]
  rw [find?, modify, List.find?_map, hkeys, find?]
  cases hfound : List.find? (fun entry => decide (entry.1 = l)) t with
  | none => simp
  | some entry =>
    have hl : entry.1 = l := by simpa using List.find?_some hfound
    by_cases hk : l = k <;> simp [hl, hk]

theorem modify_modify (t : Table κ υ) (k : κ) (first second : υ → υ) :
    (t.modify k first).modify k second = t.modify k (second ∘ first) := by
  simp only [modify, List.map_map]
  congr 1
  funext entry
  by_cases he : entry.1 = k <;> simp [he]

/-- A change that leaves the value of its key as it is changes nothing. -/
theorem modify_eq_self (hn : t.keys.Nodup) {v : υ} (hv : t.find? k = some v) {change : υ → υ}
    (hc : change v = v) : t.modify k change = t := by
  rw [modify]
  conv => rhs; rw [← List.map_id t]
  refine List.map_congr_left fun entry he => ?_
  split
  · next hk =>
    have hentry : t.find? entry.1 = some entry.2 := find?_of_mem hn he
    obtain rfl : entry.2 = v := Option.some.inj (hentry.symm.trans (hk ▸ hv))
    rw [hc]
    rfl
  · rfl

/-- What is put under a new key and erased again leaves nothing behind. -/
theorem erase_put_of_none (hk : t.find? k = none) (v : υ) : (t.put k v).erase k = t := by
  rw [find?, Option.map_eq_none_iff, List.find?_eq_none] at hk
  have hkept : t.erase k = t := List.filter_eq_self.mpr fun entry he => by simpa using hk entry he
  rw [put, hkept, erase, List.filter_cons_of_neg (by simp)]
  exact hkept

end Table

namespace TreeEntries

/-- What the directory with these names holds. -/
def inside? (entries : TreeEntries) : List String → Option TreeEntries
  | [] => some entries
  | name :: names =>
    match entries.find? name with
    | some (.directory inner) => inside? inner names
    | _ => none

/-- What there is at these names below a directory. -/
def node? (entries : TreeEntries) (names : List String) : Option TreeNode :=
  (at? entries names).map TreeEntry.node

variable {top inner : TreeEntries} {dir : List String} {name : String}
  {change : TreeEntries → String → TreeEntries}

theorem at?_cons_cons (top : TreeEntries) (a b : String) (names : List String) :
    at? top (a :: b :: names) =
      match top.find? a with
      | some (.directory inner) => at? inner (b :: names)
      | _ => none := rfl

theorem edit_cons_cons (change : TreeEntries → String → TreeEntries) (top : TreeEntries)
    (a b : String) (names : List String) :
    edit change top (a :: b :: names) =
      top.modify a fun
        | .directory inner => .directory (edit change inner (b :: names))
        | file => file := rfl

theorem at?_append_singleton (top : TreeEntries) (dir : List String) (name : String) :
    at? top (dir ++ [name]) = (inside? top dir).bind fun entries => entries.find? name := by
  induction dir generalizing top with
  | nil => rfl
  | cons first dir ih =>
    obtain ⟨second, rest, hrest⟩ : ∃ second rest, dir ++ [name] = second :: rest :=
      List.exists_cons_of_ne_nil (by simp)
    rw [List.cons_append, hrest, at?_cons_cons, ← hrest, inside?]
    split
    · exact ih _
    · rfl

theorem inside?_append_singleton (top : TreeEntries) (dir : List String) (name : String) :
    inside? top (dir ++ [name]) =
      match (inside? top dir).bind fun entries => entries.find? name with
      | some (.directory inner) => some inner
      | _ => none := by
  induction dir generalizing top with
  | nil => rfl
  | cons first dir ih =>
    rw [List.cons_append, inside?, inside?]
    split
    · exact ih _
    · rfl

/-- Whether an entry is there and is a directory. -/
def IsDirectory (entry : Option TreeEntry) : Prop :=
  entry.map TreeEntry.node = some .directory

theorem at?_cons_of_not_isDirectory {a : String} (h : ¬ IsDirectory (top.find? a)) (b : String)
    (names : List String) : at? top (a :: b :: names) = none := by
  rw [at?_cons_cons]
  split
  · next hfound => exact absurd (by rw [IsDirectory, hfound]; rfl) h
  · rfl

/-- Entries that differ at one name, where neither has a directory, have the same nodes but
there. -/
theorem node?_of_find? {changed : TreeEntries} {entry : Option TreeEntry}
    (hfind : ∀ a, changed.find? a = if a = name then entry else top.find? a)
    (hold : ¬ IsDirectory (top.find? name)) (hnew : ¬ IsDirectory entry) (names : List String) :
    changed.node? names = if names = [name] then entry.map TreeEntry.node else top.node? names := by
  match names with
  | [] => rfl
  | [a] =>
    simp only [node?, at?, hfind, List.cons.injEq, and_true]
    split <;> rfl
  | a :: b :: rest =>
    rw [if_neg (by simp), node?, node?]
    by_cases ha : a = name
    · subst ha
      rw [at?_cons_of_not_isDirectory hold,
        at?_cons_of_not_isDirectory (by rwa [hfind, if_pos rfl])]
    · rw [at?_cons_cons, at?_cons_cons, hfind, if_neg ha]

/-- A change in one directory that sets the node at one name sets it in the tree. -/
theorem node?_edit (hdir : inside? top dir = some inner) {new : Option TreeNode}
    (hset : ∀ names, (change inner name).node? names =
      if names = [name] then new else inner.node? names) (names : List String) :
    (edit change top (dir ++ [name])).node? names =
      if names = dir ++ [name] then new else top.node? names := by
  induction dir generalizing top names with
  | nil =>
    obtain rfl := Option.some.inj hdir
    exact hset names
  | cons first dir ih =>
    obtain ⟨second, rest, hrest⟩ : ∃ second rest, dir ++ [name] = second :: rest :=
      List.exists_cons_of_ne_nil (by simp)
    rw [inside?] at hdir
    split at hdir
    · next below hbelow =>
      rw [List.cons_append, hrest, edit_cons_cons, ← hrest]
      match names with
      | [] => rfl
      | [a] =>
        rw [if_neg (by simp [hrest])]
        simp only [node?, at?, Table.find?_modify]
        split
        · next ha =>
          rw [ha, hbelow]
          rfl
        · rfl
      | a :: b :: others =>
        simp only [node?, at?_cons_cons, Table.find?_modify]
        by_cases ha : a = first
        · subst ha
          simp only [if_true, hbelow, Option.map_some, List.cons.injEq, true_and]
          exact ih hdir (b :: others)
        · simp [ha]
    · cases hdir

/-- Two changes at the same place are one. -/
theorem edit_edit (first second : TreeEntries → String → TreeEntries) (top : TreeEntries)
    (names : List String) :
    edit second (edit first top names) names =
      edit (fun entries name => second (first entries name) name) top names := by
  match names with
  | [] => rfl
  | [name] => rfl
  | a :: b :: names =>
    rw [edit_cons_cons, edit_cons_cons, edit_cons_cons, Table.modify_modify]
    congr 1
    funext entry
    cases entry with
    | file content => rfl
    | directory inner => exact congrArg _ (edit_edit first second inner (b :: names))

end TreeEntries

/-- In no directory is a name there twice. -/
inductive TreeEntry.HasDistinctNames : TreeEntry → Prop where
  | file (content : ByteArray) : HasDistinctNames (.file content)
  | directory {entries : TreeEntries} (nodup : entries.keys.Nodup)
      (below : ∀ entry ∈ entries, HasDistinctNames entry.2) : HasDistinctNames (.directory entries)

/-- A change that leaves a directory as it is leaves the tree as it is. -/
theorem TreeEntries.edit_eq_self {top inner : TreeEntries} {dir : List String} {name : String}
    {change : TreeEntries → String → TreeEntries}
    (htop : (TreeEntry.directory top).HasDistinctNames) (hdir : inside? top dir = some inner)
    (hchange : change inner name = inner) : edit change top (dir ++ [name]) = top := by
  induction dir generalizing top with
  | nil =>
    obtain rfl := Option.some.inj hdir
    exact hchange
  | cons first dir ih =>
    obtain ⟨second, rest, hrest⟩ : ∃ second rest, dir ++ [name] = second :: rest :=
      List.exists_cons_of_ne_nil (by simp)
    obtain ⟨hnodup, hbelow⟩ : top.keys.Nodup ∧ ∀ entry ∈ top, entry.2.HasDistinctNames := by
      cases htop with
      | directory nodup below => exact ⟨nodup, below⟩
    rw [inside?] at hdir
    split at hdir
    · next below hfound =>
      rw [List.cons_append, hrest, edit_cons_cons, ← hrest]
      refine Table.modify_eq_self hnodup hfound ?_
      exact congrArg _ (ih (hbelow _ (Table.mem_of_find? hfound)) hdir)
    · cases hdir

namespace Tree

variable {t u : Tree} {dir names : List String} {name : String} {content : ByteArray} {q : Path}

theorem node?_nil (t : Tree) : t.node? [] = some .directory := rfl

theorem node?_append_singleton (t : Tree) (dir : List String) (name : String) :
    t.node? (dir ++ [name]) =
      ((TreeEntries.inside? t.entries dir).bind fun entries => entries.find? name).map
        TreeEntry.node := by
  rw [node?, if_neg (by simp), TreeEntries.at?_append_singleton]

/-- The directories are those whose entries can be had. -/
theorem node?_eq_directory_iff :
    t.node? names = some .directory ↔
      ∃ entries, TreeEntries.inside? t.entries names = some entries := by
  rcases List.eq_nil_or_concat names with rfl | ⟨dir, name, rfl⟩
  · exact ⟨fun _ => ⟨_, rfl⟩, fun _ => rfl⟩
  · rw [List.concat_eq_append, node?_append_singleton, TreeEntries.inside?_append_singleton]
    cases (TreeEntries.inside? t.entries dir).bind fun entries => entries.find? name with
    | none => simp
    | some entry => cases entry <;> simp [TreeEntry.node]

theorem node?_edit_of_find? (change : TreeEntries → String → TreeEntries)
    (entry : Option TreeEntry) (hdir : t.node? dir = some .directory)
    (hold : t.node? (dir ++ [name]) ≠ some .directory)
    (hfind : ∀ (entries : TreeEntries) a,
      (change entries name).find? a = if a = name then entry else entries.find? a)
    (hnew : ¬ TreeEntries.IsDirectory entry) (names : List String) :
    (Tree.mk (TreeEntries.edit change t.entries (dir ++ [name]))).node? names =
      if names = dir ++ [name] then entry.map TreeEntry.node else t.node? names := by
  obtain ⟨inner, hinner⟩ := node?_eq_directory_iff.mp hdir
  rw [node?_append_singleton, hinner] at hold
  have hset := TreeEntries.node?_of_find? (hfind inner) hold hnew
  by_cases hn : names = []
  · subst hn
    rw [if_neg (by simp)]
    rfl
  · rw [node?, node?, if_neg hn, if_neg hn]
    exact TreeEntries.node?_edit hinner hset names

/-- A file put where no directory is sets the node there and no other. -/
theorem node?_putFile (hdir : t.node? dir = some .directory)
    (hold : t.node? (dir ++ [name]) ≠ some .directory) (content : ByteArray)
    (names : List String) :
    (t.putFile (dir ++ [name]) content).node? names =
      if names = dir ++ [name] then some (.file content) else t.node? names :=
  node?_edit_of_find? (fun entries name => entries.put name (.file content))
    (some (.file content)) hdir hold
    (fun entries a => Table.find?_put entries name a _)
    (by simp [TreeEntries.IsDirectory, TreeEntry.node]) names

theorem node?_erase (hdir : t.node? dir = some .directory)
    (hold : t.node? (dir ++ [name]) ≠ some .directory) (names : List String) :
    (t.erase (dir ++ [name])).node? names =
      if names = dir ++ [name] then none else t.node? names :=
  node?_edit_of_find? Table.erase none hdir hold
    (fun entries a => Table.find?_erase entries name a) (by simp [TreeEntries.IsDirectory]) names

def HasDistinctNames (t : Tree) : Prop :=
  (TreeEntry.directory t.entries).HasDistinctNames

/-- A file put where nothing was and erased again leaves the tree as it was. -/
theorem erase_putFile (ht : t.HasDistinctNames) (hdir : t.node? dir = some .directory)
    (hnew : t.node? (dir ++ [name]) = none) (content : ByteArray) :
    (t.putFile (dir ++ [name]) content).erase (dir ++ [name]) = t := by
  obtain ⟨inner, hinner⟩ := node?_eq_directory_iff.mp hdir
  rw [node?_append_singleton, hinner, Option.map_eq_none_iff] at hnew
  have hrestored : (inner.put name (.file content)).erase name = inner :=
    Table.erase_put_of_none hnew _
  rw [erase, putFile, TreeEntries.edit_edit, TreeEntries.edit_eq_self ht hinner hrestored]

/-- Where a walk ends, as names from the top. -/
def Target.place : Target → List String
  | .directory names => names
  | .entry dir name _ => dir ++ [name]

/-- The walk along segments, of which every step asks the tree what is at a name. -/
def walkNodes (t : Tree) (here : List String) : List (List Char) → Except TreeError Target
  | [] => .ok (.directory here)
  | segment :: rest =>
    if Path.isIdle segment then walkNodes t here rest
    else if segment = ['.', '.'] then walkNodes t here.dropLast rest
    else
      let name := String.ofList segment
      if maxNameSize < name.utf8ByteSize then .error .nameTooLong
      else if rest.all fun s => s = [] then .ok (.entry here name (rest ≠ []))
      else
        match t.node? (here ++ [name]) with
        | none => .error .noEntry
        | some (.file _) => .error .notDirectory
        | some .directory => walkNodes t (here ++ [name]) rest

namespace Trail

/-- Every directory of a trail is in the one before it. -/
def IsIn (top : TreeEntries) : Trail → Prop
  | [] => True
  | (name, entries) :: outer =>
    IsIn top outer ∧ (Trail.entries top outer).find? name = some (.directory entries)

theorem names_cons (name : String) (entries : TreeEntries) (outer : Trail) :
    Trail.names ((name, entries) :: outer) = Trail.names outer ++ [name] := by
  simp [Trail.names]

theorem names_tail (trail : Trail) : Trail.names trail.tail = (Trail.names trail).dropLast := by
  cases trail with
  | nil => rfl
  | cons first outer => simp [Trail.names]

theorem isIn_tail {top : TreeEntries} {trail : Trail} (h : IsIn top trail) :
    IsIn top trail.tail := by
  cases trail with
  | nil => exact h
  | cons first outer => exact h.1

theorem inside?_of_isIn {top : TreeEntries} {trail : Trail} (h : IsIn top trail) :
    TreeEntries.inside? top trail.names = some (trail.entries top) := by
  induction trail with
  | nil => rfl
  | cons first outer ih =>
    obtain ⟨houter, hfound⟩ := h
    rw [names_cons, TreeEntries.inside?_append_singleton, ih houter, Option.bind_some, hfound]
    rfl

end Trail

theorem walk_eq_walkNodes {here : Trail} (h : Trail.IsIn t.entries here)
    (segments : List (List Char)) :
    walk t.entries here segments = t.walkNodes here.names segments := by
  induction segments generalizing here with
  | nil => rfl
  | cons segment rest ih =>
    rw [walk, walkNodes]
    split
    · exact ih h
    · split
      · rw [ih (Trail.isIn_tail h), Trail.names_tail]
      · have hnode := node?_append_singleton t here.names (String.ofList segment)
        rw [Trail.inside?_of_isIn h, Option.bind_some] at hnode
        dsimp only
        rw [hnode]
        split
        · rfl
        · split
          · rfl
          · cases hfound : (here.entries t.entries).find? (String.ofList segment) with
            | none => rfl
            | some entry =>
              cases entry with
              | file content => rfl
              | directory entries =>
                have hin : Trail.IsIn t.entries ((String.ofList segment, entries) :: here) :=
                  ⟨h, hfound⟩
                rw [← Trail.names_cons _ entries]
                exact ih hin

/-- The names from the top that a path leads to, whether or not anything is there. -/
def place? (t : Tree) (path : Path) : Option (List String) :=
  (t.target path).toOption.map Target.place

/-- The node that a path leads to. -/
def nodeAt? (t : Tree) (path : Path) : Option TreeNode :=
  (t.lookUp path).toOption

/-- Trees with the same directories. -/
def SameDirectories (t u : Tree) : Prop :=
  ∀ names, t.node? names = some .directory ↔ u.node? names = some .directory

theorem SameDirectories.toOption_walkNodes (h : t.SameDirectories u)
    (segments : List (List Char)) (here : List String) :
    (t.walkNodes here segments).toOption = (u.walkNodes here segments).toOption := by
  induction segments generalizing here with
  | nil => rfl
  | cons segment rest ih =>
    rw [walkNodes, walkNodes]
    split
    · exact ih here
    · split
      · exact ih _
      · dsimp only
        split
        · rfl
        · split
          · rfl
          · have hnode := h (here ++ [String.ofList segment])
            split <;> split <;> simp_all [Except.toOption]

theorem SameDirectories.toOption_target (h : t.SameDirectories u) (q : Path) :
    (t.target q).toOption = (u.target q).toOption := by
  rw [target, target]
  split
  · rfl
  · split
    · rfl
    · split
      · rfl
      · have hwalk (tree : Tree) (segments : List (List Char)) :
            walk tree.entries [] segments = tree.walkNodes [] segments :=
          walk_eq_walkNodes (show Trail.IsIn tree.entries [] from trivial) segments
        rw [hwalk, hwalk]
        exact h.toOption_walkNodes _ _

/-- The node where a walk ends; a slash after a file leads nowhere. -/
def nodeOf? (t : Tree) : Target → Option TreeNode
  | .directory _ => some .directory
  | .entry dir name slash =>
    match t.node? (dir ++ [name]) with
    | some (.file content) => if slash then none else some (.file content)
    | node => node

theorem nodeAt?_eq (t : Tree) (q : Path) : t.nodeAt? q = (t.target q).toOption.bind t.nodeOf? := by
  rw [nodeAt?, lookUp]
  cases t.target q with
  | error error => rfl
  | ok target =>
    cases target with
    | directory names => rfl
    | entry dir name slash =>
      show Except.toOption (match t.node? (dir ++ [name]) with
          | none => Except.error TreeError.noEntry
          | some (.file content) =>
            if slash then .error .notDirectory else .ok (TreeNode.file content)
          | some .directory => .ok .directory) = t.nodeOf? (.entry dir name slash)
      rw [nodeOf?]
      cases t.node? (dir ++ [name]) with
      | none => rfl
      | some node =>
        cases node with
        | file content => cases slash <;> rfl
        | directory => rfl

/-- A path leads to the same node in trees with the same directories that have the same node where
it leads. -/
theorem SameDirectories.nodeAt?_eq (h : t.SameDirectories u)
    (hq : ∀ names, t.place? q = some names → t.node? names = u.node? names) :
    t.nodeAt? q = u.nodeAt? q := by
  rw [Tree.nodeAt?_eq, Tree.nodeAt?_eq, ← h.toOption_target]
  refine Option.bind_congr fun target htarget => ?_
  cases target with
  | directory names => rfl
  | entry dir name slash =>
    have hnode : t.node? (dir ++ [name]) = u.node? (dir ++ [name]) :=
      hq _ (by rw [place?, htarget]; rfl)
    rw [nodeOf?, nodeOf?, hnode]

theorem toOption_read (t : Tree) (q : Path) :
    (t.read q).toOption = (t.nodeAt? q).bind fun
      | .file content => some content
      | .directory => none := by
  rw [read, readFile, nodeAt?]
  cases t.lookUp q with
  | error _ => rfl
  | ok node => cases node <;> rfl

end Tree

end InlineComponents
