import InlineComponents.Proofs.Reading
import InlineComponents.Proofs.TreeNodes

namespace InlineComponents

namespace Tree

variable {t u written : Tree} {dir names : List String} {name : String} {slash : Bool}
  {path temp : Path} {content : ByteArray}

theorem node?_of_append_singleton {node : TreeNode} (h : t.node? (dir ++ [name]) = some node) :
    t.node? dir = some .directory := by
  rw [node?_append_singleton, Option.map_eq_some_iff] at h
  obtain ⟨entry, hentry, -⟩ := h
  obtain ⟨entries, hentries, -⟩ := Option.bind_eq_some_iff.mp hentry
  exact node?_eq_directory_iff.mpr ⟨entries, hentries⟩

/-- A walk from a directory that ends at a name ends in a directory. -/
theorem node?_of_walkNodes {here : List String} (hhere : t.node? here = some .directory)
    {segments : List (List Char)} (h : t.walkNodes here segments = .ok (.entry dir name slash)) :
    t.node? dir = some .directory := by
  induction segments generalizing here with
  | nil => cases h
  | cons segment rest ih =>
    rw [walkNodes] at h
    split at h
    · exact ih hhere h
    · split at h
      · refine ih ?_ h
        rcases List.eq_nil_or_concat here with rfl | ⟨outer, last, rfl⟩
        · exact hhere
        · rw [List.concat_eq_append] at hhere ⊢
          rw [List.dropLast_concat]
          exact node?_of_append_singleton hhere
      · dsimp only at h
        split at h
        · cases h
        · split at h
          · cases h
            exact hhere
          · split at h
            · cases h
            · cases h
            · next hnode => exact ih hnode h

theorem node?_of_target (h : t.target path = .ok (.entry dir name slash)) :
    t.node? dir = some .directory := by
  rw [target] at h
  split at h
  · cases h
  · split at h
    · cases h
    · split at h
      · cases h
      · rw [walk_eq_walkNodes (show Trail.IsIn t.entries [] from trivial)] at h
        exact node?_of_walkNodes (node?_nil t) h

theorem SameDirectories.target_eq_ok (h : t.SameDirectories u) {target : Target}
    (ht : t.target path = .ok target) : u.target path = .ok target := by
  have htarget := h.toOption_target path
  rw [ht] at htarget
  cases hu : u.target path with
  | error _ => simp [hu, Except.toOption] at htarget
  | ok other => rw [show target = other by simpa [hu, Except.toOption] using htarget]

theorem read_eq_ok_iff : t.read path = .ok content ↔ t.nodeAt? path = some (.file content) := by
  have hread := toOption_read t path
  cases hr : t.read path with
  | error _ =>
    cases hn : t.nodeAt? path with
    | none => simp
    | some node => cases node <;> simp [hr, hn, Except.toOption] at hread ⊢
  | ok found =>
    cases hn : t.nodeAt? path with
    | none => simp [hr, hn, Except.toOption] at hread
    | some node => cases node <;> simp_all [Except.toOption]

theorem pathExists_eq_false_iff : t.pathExists path = false ↔ t.nodeAt? path = none := by
  rw [pathExists, nodeAt?, Option.isSome_eq_false_iff, Option.isNone_iff_eq_none]

deriving instance DecidableEq for Target

/-- A path that the system can take is walked through from the top. -/
theorem target_eq_walk (hnul : '\x00' ∉ path.text.toList) (hempty : path.text ≠ "")
    (hsize : path.text.utf8ByteSize ≤ maxPathSize) :
    t.target path = walk t.entries [] (splitAll '/' path.text.toList) := by
  have hcontains : ¬ path.text.contains '\x00' = true := by
    simpa [String.contains_char_eq] using hnul
  rw [target, if_neg hcontains, if_neg hempty, if_neg (Nat.not_lt.mpr hsize)]

/-- The second tree has this node at a place, and at all other names the nodes of the first. -/
def SetAt (t u : Tree) (place : List String) (node : Option TreeNode) : Prop :=
  ∀ names, u.node? names = if names = place then node else t.node? names

theorem SetAt.sameDirectories {place : List String} {node : Option TreeNode}
    (h : t.SetAt u place node) (hold : t.node? place ≠ some .directory)
    (hnew : node ≠ some .directory) : t.SameDirectories u := by
  intro names
  rw [h names]
  split
  · next hn =>
    subst hn
    simp [hold, hnew]
  · rfl

/-- A file is created at a name in a directory, where no directory is. -/
theorem create_eq_ok (h : t.create path content = .ok u) :
    ∃ dir name, t.target path = .ok (.entry dir name false) ∧
      t.node? (dir ++ [name]) ≠ some .directory ∧ u = t.putFile (dir ++ [name]) content := by
  rw [create] at h
  cases ht : t.target path with
  | error error =>
    rw [ht] at h
    cases h
  | ok target =>
    rw [ht] at h
    cases target with
    | directory names => cases h
    | entry dir name slash =>
      cases slash with
      | true => cases h
      | false =>
        refine ⟨dir, name, rfl, ?_⟩
        dsimp only [bind, Except.bind] at h
        rw [if_neg Bool.false_ne_true] at h
        split at h
        · cases h
        · next hnode => exact ⟨hnode, (Except.ok.inj h).symm⟩

theorem rename_eq_ok {source : Path} (h : t.rename source path = .ok u) :
    ∃ sourceDir sourceName sourceSlash dir name content,
      t.target source = .ok (.entry sourceDir sourceName sourceSlash) ∧
      t.node? (sourceDir ++ [sourceName]) = some (.file content) ∧
      t.target path = .ok (.entry dir name false) ∧
      t.node? (dir ++ [name]) ≠ some .directory ∧
      u = (t.erase (sourceDir ++ [sourceName])).putFile (dir ++ [name]) content := by
  rw [rename] at h
  cases hs : t.target source with
  | error error =>
    rw [hs] at h
    cases h
  | ok sourceTarget =>
    cases ht : t.target path with
    | error error =>
      rw [hs, ht] at h
      cases h
    | ok target =>
      rw [hs, ht] at h
      cases sourceTarget with
      | directory names => cases h
      | entry sourceDir sourceName sourceSlash =>
        cases target with
        | directory names => cases h
        | entry dir name slash =>
          dsimp only [bind, Except.bind] at h
          split at h
          · cases h
          · cases h
          · next content hfile =>
            cases slash with
            | true => cases h
            | false =>
              split at h
              · next himpossible => cases himpossible
              · split at h
                · cases h
                · next hnode =>
                  exact ⟨_, _, _, _, _, content, rfl, hfile, rfl, hnode, (Except.ok.inj h).symm⟩

theorem create_file (h : t.target path = .ok (.entry dir name false))
    (hnode : t.node? (dir ++ [name]) ≠ some .directory) :
    t.create path content = .ok (t.putFile (dir ++ [name]) content) := by
  rw [create, h]
  dsimp only [bind, Except.bind]
  rw [if_neg Bool.false_ne_true]
  split
  · next hdirectory => exact absurd hdirectory hnode
  · rfl

theorem rename_file {source : Path} {sourceDir : List String} {sourceName : String}
    (hsource : t.target source = .ok (.entry sourceDir sourceName slash))
    (hfile : t.node? (sourceDir ++ [sourceName]) = some (.file content))
    (h : t.target path = .ok (.entry dir name false))
    (hnode : t.node? (dir ++ [name]) ≠ some .directory) :
    t.rename source path =
      .ok ((t.erase (sourceDir ++ [sourceName])).putFile (dir ++ [name]) content) := by
  rw [rename, hsource, h]
  dsimp only [bind, Except.bind]
  rw [hfile]
  dsimp only
  rw [if_neg Bool.false_ne_true]
  split
  · next hdirectory => exact absurd hdirectory hnode
  · rfl

theorem unlink_file (h : t.target path = .ok (.entry dir name false))
    (hfile : t.node? (dir ++ [name]) = some (.file content)) :
    t.unlink path = .ok (t.erase (dir ++ [name])) := by
  rw [unlink, h]
  dsimp only [bind, Except.bind]
  rw [hfile]
  rfl

/-- A tree after a content has replaced what a path leads to, and nothing else. -/
structure Replaced (t u : Tree) (path : Path) (content : ByteArray) : Prop where
  read : u.read path = .ok content
  node? {names : List String} : t.place? path ≠ some names → u.node? names = t.node? names
  nodeAt? {other : Path} : t.place? other ≠ t.place? path → u.nodeAt? other = t.nodeAt? other

/-- A tree after nothing has been changed; where the names in a directory are distinct, as they are
in a file tree, it is the tree that it was. -/
structure Unchanged (t u : Tree) : Prop where
  node? (names : List String) : u.node? names = t.node? names
  nodeAt? (other : Path) : u.nodeAt? other = t.nodeAt? other
  eq : t.HasDistinctNames → u = t

theorem SetAt.replaced {place : List String} (h : t.SetAt u place (some (.file content)))
    (hplace : t.place? path = some place) (hold : t.node? place ≠ some .directory)
    (hread : u.read path = .ok content) : t.Replaced u path content where
  read := hread
  node? {names} hnames := by
    rw [h names, if_neg]
    rintro rfl
    exact hnames hplace
  nodeAt? hother := by
    refine ((h.sameDirectories hold (by simp)).nodeAt?_eq fun names hnames => ?_).symm
    rw [h names, if_neg]
    rintro rfl
    exact hother (hnames.trans hplace.symm)

theorem unchanged_of_node? (h : ∀ names, u.node? names = t.node? names)
    (heq : t.HasDistinctNames → u = t) : t.Unchanged u where
  node? := h
  nodeAt? other := by
    have hdirs : t.SameDirectories u := fun names => by rw [h names]
    exact (hdirs.nodeAt?_eq fun names _ => (h names).symm).symm
  eq := heq

/-- A path leads to a name in a directory at which nothing is. -/
structure Vacant (t : Tree) (path : Path) (dir : List String) (name : String) : Prop where
  target : t.target path = .ok (.entry dir name false)
  directory : t.node? dir = some .directory
  fresh : t.node? (dir ++ [name]) = none

theorem exists_vacant (h : t.create temp content = .ok written) (hfresh : t.nodeAt? temp = none) :
    ∃ dir name, t.Vacant temp dir name ∧ written = t.putFile (dir ++ [name]) content := by
  obtain ⟨dir, name, htarget, -, rfl⟩ := create_eq_ok h
  refine ⟨dir, name, ⟨htarget, node?_of_target htarget, ?_⟩, rfl⟩
  rw [nodeAt?_eq, htarget] at hfresh
  change t.nodeOf? (.entry dir name false) = none at hfresh
  rw [nodeOf?] at hfresh
  split at hfresh
  · cases hfresh
  · exact hfresh

namespace Vacant

theorem setAt (h : t.Vacant temp dir name) (content : ByteArray) :
    t.SetAt (t.putFile (dir ++ [name]) content) (dir ++ [name]) (some (.file content)) :=
  node?_putFile h.directory (by simp [h.fresh]) content

theorem sameDirectories (h : t.Vacant temp dir name) (content : ByteArray) :
    t.SameDirectories (t.putFile (dir ++ [name]) content) :=
  (h.setAt content).sameDirectories (by simp [h.fresh]) (by simp)

/-- A file put there and erased again leaves the nodes as they were. -/
theorem node?_erase_putFile (h : t.Vacant temp dir name) (content : ByteArray)
    (names : List String) :
    ((t.putFile (dir ++ [name]) content).erase (dir ++ [name])).node? names = t.node? names := by
  have hset := h.setAt content
  rw [Tree.node?_erase ((h.sameDirectories content dir).mp h.directory)
    (by simp [hset (dir ++ [name])]), hset names]
  split
  · next hn => rw [hn, h.fresh]
  · rfl

/-- A file put there can be removed. -/
theorem unlink_putFile (h : t.Vacant temp dir name) (content : ByteArray) :
    (t.putFile (dir ++ [name]) content).unlink temp =
      .ok ((t.putFile (dir ++ [name]) content).erase (dir ++ [name])) := by
  have hfile := h.setAt content (dir ++ [name])
  rw [if_pos rfl] at hfile
  exact unlink_file ((h.sameDirectories content).target_eq_ok h.target) hfile

theorem create_putFile (h : t.Vacant temp dir name) (content : ByteArray) :
    t.create temp content = .ok (t.putFile (dir ++ [name]) content) :=
  create_file h.target (by simp [h.fresh])

/-- A file put there can be renamed over what a path leads to, if that is no directory. -/
theorem exists_rename (h : t.Vacant temp dir name) {dest : List String} {last : String}
    (ht : t.target path = .ok (.entry dest last false))
    (hnode : t.node? (dest ++ [last]) ≠ some .directory) (content : ByteArray) :
    ∃ renamed, (t.putFile (dir ++ [name]) content).rename temp path = .ok renamed := by
  have hdirs := h.sameDirectories content
  have hfile := h.setAt content (dir ++ [name])
  rw [if_pos rfl] at hfile
  exact ⟨_, rename_file (hdirs.target_eq_ok h.target) hfile (hdirs.target_eq_ok ht)
    fun hd => hnode ((hdirs _).mpr hd)⟩

theorem pathExists (h : t.Vacant temp dir name) : t.pathExists temp = false := by
  rw [pathExists_eq_false_iff, nodeAt?_eq, h.target]
  show t.nodeOf? (.entry dir name false) = none
  rw [nodeOf?, h.fresh]

/-- A file put there and renamed over what a path leads to takes that place, and all other nodes
are as they were before. -/
theorem replaced_of_rename (h : t.Vacant temp dir name) {renamed : Tree}
    (hr : (t.putFile (dir ++ [name]) content).rename temp path = .ok renamed) :
    t.Replaced renamed path content := by
  have hdirs := h.sameDirectories content
  have herase := h.node?_erase_putFile content
  obtain ⟨_, _, _, dest, last, moved, hsource, hfile, htarget, hdest, rfl⟩ := rename_eq_ok hr
  cases hsource.symm.trans (hdirs.target_eq_ok h.target)
  have hmoved : moved = content := by
    have hnode := hfile.symm.trans (h.setAt content (dir ++ [name]))
    rw [if_pos rfl] at hnode
    cases hnode
    rfl
  have hback : t.SameDirectories ((t.putFile (dir ++ [name]) content).erase (dir ++ [name])) :=
    fun names => by rw [herase]
  have hold : t.target path = .ok (.entry dest last false) :=
    SameDirectories.target_eq_ok (fun names => (hdirs names).symm) htarget
  have hfree : t.node? (dest ++ [last]) ≠ some .directory := fun hd => hdest ((hdirs _).mp hd)
  have hset : t.SetAt (((t.putFile (dir ++ [name]) content).erase (dir ++ [name])).putFile
      (dest ++ [last]) moved) (dest ++ [last]) (some (.file content)) := by
    intro names
    rw [node?_putFile ((hback dest).mp (node?_of_target hold)) (by rwa [herase]), herase, hmoved]
  refine hset.replaced (by rw [place?, hold]; rfl) hfree ?_
  have hnew := (hset.sameDirectories hfree (by simp)).target_eq_ok hold
  rw [read_eq_ok_iff, nodeAt?_eq, hnew]
  show nodeOf? _ (.entry dest last false) = _
  rw [nodeOf?, hset (dest ++ [last]), if_pos rfl]
  rfl

/-- With a file put there, a path leads to what it led to before, or to that file. -/
theorem nodeAt?_putFile (h : t.Vacant temp dir name) (content : ByteArray) (path : Path) :
    let written := t.putFile (dir ++ [name]) content
    written.nodeAt? path = t.nodeAt? path ∨ written.nodeAt? path = some (.file content) := by
  intro written
  by_cases hplace : t.place? path = some (dir ++ [name])
  · rw [nodeAt?_eq, nodeAt?_eq, ← (h.sameDirectories content).toOption_target]
    obtain ⟨target, htarget, hnames⟩ := Option.map_eq_some_iff.mp hplace
    rw [htarget]
    cases target with
    | directory names => exact .inl rfl
    | entry outer last slash =>
      have hplace : outer ++ [last] = dir ++ [name] := hnames
      have hnode : written.node? (outer ++ [last]) = some (.file content) := by
        rw [h.setAt content, if_pos hplace]
      have hnone : t.node? (outer ++ [last]) = none := by rw [hplace, h.fresh]
      rw [Option.bind_some, Option.bind_some, nodeOf?, nodeOf?, hnode, hnone]
      cases slash
      · exact .inr rfl
      · exact .inl rfl
  · refine .inl ((h.sameDirectories content).nodeAt?_eq fun names hnames => ?_).symm
    rw [h.setAt content names, if_neg]
    rintro rfl
    exact hplace hnames

end Vacant

/-- The three things that a write of a file does, as the system carries them out: each gives the
tree with its full effect, or fails and leaves the tree as it is. -/
structure WriteSteps where
  create : Tree → Path → ByteArray → Except FileError Tree
  rename : Tree → Path → Path → Except FileError Tree
  unlink : Tree → Path → Except FileError Tree

/-- How a write ended, the trees that it went through in between, and the tree that it left. -/
structure WriteCourse where
  result : Except FileError Unit
  between : List Tree
  tree : Tree

namespace WriteSteps

/-- A step that succeeds has the effect that it has on the tree. -/
structure TakeEffect (steps : WriteSteps) : Prop where
  create {t u : Tree} {path : Path} {content : ByteArray} :
    steps.create t path content = .ok u → t.create path content = .ok u
  rename {t u : Tree} {source path : Path} :
    steps.rename t source path = .ok u → t.rename source path = .ok u
  unlink {t u : Tree} {path : Path} : steps.unlink t path = .ok u → t.unlink path = .ok u

/-- The steps that nothing but the tree itself refuses. -/
def unhindered : WriteSteps where
  create t path content := (t.create path content).mapError (·.toFileError "write" path)
  rename t source path := (t.rename source path).mapError (·.toFileError "replace" path)
  unlink t path := (t.unlink path).mapError (·.toFileError "remove" path)

/-- The content is written beside its destination and then renamed over it. -/
def write (steps : WriteSteps) (token : String) (t : Tree) (path : Path) (content : ByteArray) :
    WriteCourse :=
  let temp := temporary path token
  match steps.create t temp content with
  | .error e => ⟨.error e, [], t⟩
  | .ok written =>
    match steps.rename written temp path with
    | .ok renamed => ⟨.ok (), [written], renamed⟩
    | .error e =>
      match steps.unlink written temp with
      | .ok cleared => ⟨.error e, [written], cleared⟩
      | .error _ => ⟨.error e, [written], written⟩

theorem write_unhindered (token : String) (t : Tree) (path : Path) (content : ByteArray) :
    ((unhindered.write token t path content).result, (unhindered.write token t path content).tree) =
      t.write token path content := by
  rw [write, Tree.write]
  dsimp only [unhindered]
  cases hc : t.create (temporary path token) content with
  | error e => rfl
  | ok written =>
    dsimp only [Except.mapError]
    cases hr : written.rename (temporary path token) path with
    | ok renamed => rfl
    | error e =>
      dsimp only
      cases hu : written.unlink (temporary path token) with
      | ok cleared => rfl
      | error e' => rfl

theorem mapError_eq_ok_iff {ε ε' α : Type} {f : ε → ε'} {x : Except ε α} {a : α} :
    x.mapError f = .ok a ↔ x = .ok a := by
  cases x with
  | error e => exact ⟨nofun, nofun⟩
  | ok b => exact ⟨fun h => congrArg _ (Except.ok.inj h), fun h => congrArg _ (Except.ok.inj h)⟩

theorem takeEffect_unhindered : unhindered.TakeEffect where
  create := mapError_eq_ok_iff.mp
  rename := mapError_eq_ok_iff.mp
  unlink := mapError_eq_ok_iff.mp

theorem exists_unlink_unhindered (hfresh : t.nodeAt? temp = none)
    (h : unhindered.create t temp content = .ok written) :
    ∃ cleared, unhindered.unlink written temp = .ok cleared := by
  obtain ⟨dir, name, hvacant, rfl⟩ := exists_vacant (takeEffect_unhindered.create h) hfresh
  refine ⟨(t.putFile (dir ++ [name]) content).erase (dir ++ [name]), ?_⟩
  exact mapError_eq_ok_iff.mpr (hvacant.unlink_putFile content)

variable {steps : WriteSteps} {token : String}

theorem write_of_rename_error {error : FileError}
    (hc : steps.create t (temporary path token) content = .ok written)
    (hr : steps.rename written (temporary path token) path = .error error) :
    (steps.write token t path content).result = .error error ∧
      (steps.write token t path content).between = [written] := by
  rw [write, hc]
  dsimp only
  rw [hr]
  dsimp only
  cases steps.unlink written (temporary path token) with
  | ok cleared => exact ⟨rfl, rfl⟩
  | error _ => exact ⟨rfl, rfl⟩

/-- A write goes through where a path leads to a name that is no directory's. -/
theorem result_unhindered (h : t.Vacant (temporary path token) dir name) {dest : List String}
    {last : String} (ht : t.target path = .ok (.entry dest last false))
    (hnode : t.node? (dest ++ [last]) ≠ some .directory) (content : ByteArray) :
    (unhindered.write token t path content).result = .ok () := by
  obtain ⟨renamed, hrenamed⟩ := h.exists_rename ht hnode content
  have hcreate : unhindered.create t (temporary path token) content = .ok _ :=
    mapError_eq_ok_iff.mpr (h.create_putFile content)
  have hrename : unhindered.rename _ (temporary path token) path = .ok renamed :=
    mapError_eq_ok_iff.mpr hrenamed
  rw [write, hcreate]
  dsimp only
  rw [hrename]

/-- How a write can go: it stops before anything is there, it replaces what its path leads to, or
it takes back what it has begun. -/
theorem TakeEffect.write_cases (hsteps : steps.TakeEffect)
    (hfresh : t.nodeAt? (temporary path token) = none)
    (hremoved : ∀ written, steps.create t (temporary path token) content = .ok written →
      ∃ cleared, steps.unlink written (temporary path token) = .ok cleared) :
    (∃ error, steps.write token t path content = ⟨.error error, [], t⟩) ∨
      ∃ dir name, t.Vacant (temporary path token) dir name ∧
        let written := t.putFile (dir ++ [name]) content
        (∃ renamed, written.rename (temporary path token) path = .ok renamed ∧
          steps.write token t path content = ⟨.ok (), [written], renamed⟩) ∨
        ∃ error, steps.write token t path content =
          ⟨.error error, [written], written.erase (dir ++ [name])⟩ := by
  rw [write]
  cases hc : steps.create t (temporary path token) content with
  | error error => exact .inl ⟨error, rfl⟩
  | ok written =>
    obtain ⟨dir, name, hvacant, rfl⟩ := exists_vacant (hsteps.create hc) hfresh
    refine .inr ⟨dir, name, hvacant, ?_⟩
    dsimp only
    cases hr : steps.rename (t.putFile (dir ++ [name]) content) (temporary path token) path with
    | ok renamed => exact .inl ⟨renamed, hsteps.rename hr, rfl⟩
    | error error =>
      obtain ⟨cleared, hcleared⟩ := hremoved _ hc
      have herased := (hvacant.unlink_putFile content).symm.trans (hsteps.unlink hcleared)
      obtain rfl := Except.ok.inj herased
      exact .inr ⟨error, by rw [hcleared]⟩

/-- A write that succeeds puts the content where its path leads and changes nothing else, and a
write that fails changes nothing at all. In between there is nothing where its path leads but what
was there before, or the whole content. -/
theorem write_allOrNothing (hsteps : steps.TakeEffect)
    (hfresh : t.pathExists (temporary path token) = false)
    (hremoved : ∀ written, steps.create t (temporary path token) content = .ok written →
      ∃ cleared, steps.unlink written (temporary path token) = .ok cleared) :
    let course := steps.write token t path content
    (steps = unhindered → t.write token path content = (course.result, course.tree)) ∧
      (course.result = .ok () → t.Replaced course.tree path content) ∧
      (∀ error, course.result = .error error →
        t.Unchanged course.tree ∧ course.tree.pathExists (temporary path token) = false) ∧
      ∀ u ∈ course.between, u.nodeAt? path = t.nodeAt? path ∨ u.read path = .ok content := by
  intro course
  refine ⟨by rintro rfl; exact (write_unhindered token t path content).symm, ?_⟩
  have hnone : t.nodeAt? (temporary path token) = none := pathExists_eq_false_iff.mp hfresh
  rcases hsteps.write_cases hnone hremoved with
    ⟨error, hcourse⟩ | ⟨dir, name, hvacant, ⟨renamed, hrenamed, hcourse⟩ | ⟨error, hcourse⟩⟩
  · rw [show course = _ from hcourse]
    refine ⟨by simp, fun _ _ => ⟨unchanged_of_node? (fun _ => rfl) fun _ => rfl, hfresh⟩, ?_⟩
    simp
  · rw [show course = _ from hcourse]
    refine ⟨fun _ => hvacant.replaced_of_rename hrenamed, by simp, ?_⟩
    intro u hu
    obtain rfl := List.mem_singleton.mp hu
    exact (hvacant.nodeAt?_putFile content path).imp_right read_eq_ok_iff.mpr
  · rw [show course = _ from hcourse]
    refine ⟨by simp, fun _ _ => ?_, ?_⟩
    · have hunchanged := unchanged_of_node? (hvacant.node?_erase_putFile content) fun ht =>
        erase_putFile ht hvacant.directory hvacant.fresh content
      refine ⟨hunchanged, pathExists_eq_false_iff.mpr ?_⟩
      rw [hunchanged.nodeAt?, hnone]
    · intro u hu
      obtain rfl := List.mem_singleton.mp hu
      exact (hvacant.nodeAt?_putFile content path).imp_right read_eq_ok_iff.mpr

/-- Over a file that there is, with a system that refuses to rename and with one that does not. -/
theorem write_allOrNothing_not_renamed :
    let t : Tree := ⟨[("a", .directory [("f", .file "old".toUTF8)]), ("b", .file "b".toUTF8)]⟩
    let path : Path := ⟨"/a/./f"⟩
    let content := "new é".toUTF8
    let refusal : FileError := .io "Operation not permitted"
    let refusing : WriteSteps := { unhindered with rename := fun _ _ _ => .error refusal }
    let refused := refusing.write "0" t path content
    let done := unhindered.write "0" t path content
    (refusing.TakeEffect ∧ t.pathExists (temporary path "0") = false ∧ t.HasDistinctNames) ∧
      (refused.result = .error refusal ∧ refused.between.length = 1 ∧ refused.tree = t ∧
        ∀ u ∈ refused.between, u.nodeAt? path = t.nodeAt? path ∨ u.read path = .ok content) ∧
      t.write "0" path content = (.ok (), done.tree) ∧ done.tree.read path = .ok content ∧
      done.tree.nodeAt? ⟨"/b"⟩ = t.nodeAt? ⟨"/b"⟩ := by
  intro t path content refusal refusing refused done
  have hrefusing : refusing.TakeEffect := by
    refine ⟨takeEffect_unhindered.create, ?_, takeEffect_unhindered.unlink⟩
    intro _ _ _ _ h
    cases h
  have htemp : temporary path "0" = ⟨"/a/.f.0.tmp"⟩ := by decide +kernel
  have hpath : t.target path = .ok (.entry ["a"] "f" false) := by
    rw [target_eq_walk (by decide) (by decide) (by decide)]
    exact toOption_eq_some_iff.mp (by decide +kernel)
  have hb : t.target ⟨"/b"⟩ = .ok (.entry [] "b" false) := by
    rw [target_eq_walk (by decide) (by decide) (by decide)]
    exact toOption_eq_some_iff.mp (by decide +kernel)
  have hvacant : t.Vacant (temporary path "0") ["a"] ".f.0.tmp" := by
    rw [htemp]
    refine ⟨?_, rfl, rfl⟩
    rw [target_eq_walk (by decide) (by decide) (by decide)]
    exact toOption_eq_some_iff.mp (by decide +kernel)
  have hfresh : t.pathExists (temporary path "0") = false := hvacant.pathExists
  have hdistinct : t.HasDistinctNames := by
    have hinner : (TreeEntry.directory [("f", .file "old".toUTF8)]).HasDistinctNames :=
      .directory (by decide) fun entry h => List.mem_singleton.mp h ▸ .file _
    refine .directory (by decide) fun entry h => ?_
    rcases List.mem_cons.mp h with rfl | h
    · exact hinner
    · exact List.mem_singleton.mp h ▸ .file _
  have hremoved (written : Tree)
      (h : unhindered.create t (temporary path "0") content = .ok written) :
      ∃ cleared, unhindered.unlink written (temporary path "0") = .ok cleared :=
    exists_unlink_unhindered (pathExists_eq_false_iff.mp hfresh) h
  have hcreate : refusing.create t (temporary path "0") content = .ok _ :=
    mapError_eq_ok_iff.mpr (hvacant.create_putFile content)
  have hrename (u : Tree) : refusing.rename u (temporary path "0") path = .error refusal := rfl
  obtain ⟨hresult, hthrough⟩ := write_of_rename_error hcreate (hrename _)
  have hold : t.node? (["a"] ++ ["f"]) ≠ some .directory := nofun
  have hwritten : WriteCourse.result (unhindered.write "0" t path content) = .ok () :=
    result_unhindered hvacant hpath hold content
  have hother : t.place? ⟨"/b"⟩ = some ["b"] ∧ t.place? path = some ["a", "f"] := by
    rw [place?, place?, hb, hpath]
    exact ⟨rfl, rfl⟩
  obtain ⟨-, -, hfailed, hbetween⟩ := write_allOrNothing hrefusing hfresh hremoved
  obtain ⟨hsame, hdone, -, -⟩ := write_allOrNothing takeEffect_unhindered hfresh hremoved
  have hreplaced : t.Replaced done.tree path content := hdone hwritten
  refine ⟨⟨hrefusing, hfresh, hdistinct⟩, ⟨hresult, ?_, ?_, hbetween⟩, ?_, hreplaced.read, ?_⟩
  · rw [hthrough]
    rfl
  · exact (hfailed refusal hresult).1.eq hdistinct
  · rw [hsame rfl, hwritten]
  · exact hreplaced.nodeAt? (by simp [hother])

end WriteSteps

end Tree

end InlineComponents
