import InlineComponents.Proofs.Resolutions
import InlineComponents.Proofs.Stylesheets
import Mathlib.Data.List.TakeWhile
import Mathlib.Data.String.Basic

namespace InlineComponents

namespace Session

theorem mem_insertName {names : List String} {name other : String} :
    other ∈ insertName names name ↔ other = name ∨ other ∈ names := by
  unfold insertName
  split
  · next h =>
    constructor
    · exact .inr
    · rintro (rfl | h')
      · exact h
      · exact h'
  · have hsplit := List.takeWhile_append_dropWhile (p := (· < name)) (l := names)
    constructor
    · intro h
      rcases List.mem_append.mp h with h | h
      · exact .inr ((List.takeWhile_prefix _).subset h)
      · rcases List.mem_cons.mp h with h | h
        · exact .inl h
        · exact .inr ((List.dropWhile_suffix _).subset h)
    · rintro (rfl | h)
      · simp
      · rw [← hsplit] at h
        rcases List.mem_append.mp h with h | h
        · exact List.mem_append_left _ h
        · exact List.mem_append_right _ (List.mem_cons_of_mem name h)

/-- What does not come before a name in an ascending list without it comes after it. -/
theorem lt_of_mem_dropWhile {names : List String} {name other : String}
    (hs : names.Pairwise (· < ·)) (hn : name ∉ names)
    (ho : other ∈ names.dropWhile (· < name)) : name < other := by
  induction names with
  | nil => cases ho
  | cons first names ih =>
    obtain ⟨hfirst, hrest⟩ := List.pairwise_cons.mp hs
    by_cases hlt : first < name
    · rw [List.dropWhile_cons_of_pos (by simpa using hlt)] at ho
      exact ih hrest (fun h => hn (List.mem_cons_of_mem first h)) ho
    · have hne : name ≠ first := fun h => hn (h ▸ List.mem_cons_self)
      have hgt : name < first := lt_of_le_of_ne (not_lt.mp hlt) hne
      rw [List.dropWhile_cons_of_neg (by simpa using hlt)] at ho
      rcases List.mem_cons.mp ho with rfl | ho
      · exact hgt
      · exact hgt.trans (hfirst other ho)

/-- A name is put where the list stays ascending. -/
theorem pairwise_insertName {names : List String} (hs : names.Pairwise (· < ·)) (name : String) :
    (insertName names name).Pairwise (· < ·) := by
  unfold insertName
  split
  · exact hs
  · next hn =>
    have hbefore : ∀ other ∈ names.takeWhile (· < name), other < name := by
      intro other ho
      simpa using List.mem_takeWhile_imp ho
    have hafter : ∀ other ∈ names.dropWhile (· < name), name < other :=
      fun other => lt_of_mem_dropWhile hs hn
    refine List.pairwise_append.mpr ⟨hs.sublist (List.takeWhile_sublist _),
      List.pairwise_cons.mpr ⟨hafter, hs.sublist (List.dropWhile_sublist _)⟩, ?_⟩
    intro low hlow high hhigh
    rcases List.mem_cons.mp hhigh with rfl | hhigh
    · exact hbefore low hlow
    · exact (hbefore low hlow).trans (hafter high hhigh)

variable {σ : Type} {s : Session σ} {specifier : String} {importer : Option String}

theorem hidden_settle {request : PackageRequest} {lookup : Lookup}
    (h : ∀ name, lookup ≠ .hidden name) :
    (s.settle specifier request lookup).2.hidden = s.hidden := by
  cases lookup with
  | found package =>
    unfold settle
    dsimp only
    split
    · split
      · rfl
      · rfl
    · rfl
  | missing => rfl
  | hidden name => exact absurd rfl (h name)
  | failed failure => rfl

/-- The advice names all packages met so far, and they are forgotten. -/
theorem flushHidden_eq (s : Session σ) :
    s.flushHidden.1 = (if s.hidden = [] then none
      else some (hiddenPackagesAdvice ++ String.join (s.hidden.map ("\n- " ++ ·)))) ∧
    s.flushHidden.2.hidden = [] := by
  unfold flushHidden takeHidden hiddenPackagesWarning
  cases s.hidden with
  | nil => exact ⟨rfl, rfl⟩
  | cons name names => exact ⟨rfl, rfl⟩

variable [FileSystem σ]

/-- An import meets a package whose metadata is hidden: it asks for something in the package, and
the nearest metadata can be read and is not among what the package exports. -/
def Meets (s : Session σ) (specifier : String) (importer : Option String) (name : String) : Prop :=
  ∃ subpath dir above package, s.Asks specifier importer name subpath dir ∧
    Package.IsNearest s.files name dir above ∧
    Package.load s.files (Package.installedIn above name) = .ok package ∧
    package.hidesMetadata = true

theorem hidden_resolve_of_meets {name : String} (h : s.Meets specifier importer name) :
    (s.resolve specifier importer).2.hidden = insertName s.hidden name := by
  obtain ⟨subpath, dir, above, package, hasks, hnearest, hload, hhides⟩ := h
  obtain ⟨file, hresolve⟩ := resolve_of_nearest hasks hnearest
  rw [hresolve, Package.lookUpIn, hload]
  dsimp only
  rw [if_pos hhides]
  rfl

theorem hidden_resolve_of_not_meets (h : ∀ name, ¬ s.Meets specifier importer name) :
    (s.resolve specifier importer).2.hidden = s.hidden := by
  by_cases hfound : ∃ name subpath dir above, s.Asks specifier importer name subpath dir ∧
    Package.IsNearest s.files name dir above
  · obtain ⟨name, subpath, dir, above, hasks, hnearest⟩ := hfound
    obtain ⟨file, hresolve⟩ := resolve_of_nearest hasks hnearest
    rw [hresolve]
    apply hidden_settle
    intro other hother
    obtain ⟨package, hload, hhides⟩ := Package.hides_of_lookUpIn hother
    exact h name ⟨subpath, dir, above, package, hasks, hnearest, hload, hhides⟩
  · refine (resolve_of_not_nearest ?_).2
    intro name subpath dir above hasks hnearest
    exact hfound ⟨name, subpath, dir, above, hasks, hnearest⟩

theorem Meets.unique {name other : String} (h : s.Meets specifier importer name)
    (h' : s.Meets specifier importer other) : name = other := by
  obtain ⟨_, _, _, _, hasks, -⟩ := h
  obtain ⟨_, _, _, _, hasks', -⟩ := h'
  exact (hasks.unique hasks').1

theorem mem_hidden_resolve {name : String} : name ∈ (s.resolve specifier importer).2.hidden ↔
    name ∈ s.hidden ∨ s.Meets specifier importer name := by
  by_cases hmet : ∃ other, s.Meets specifier importer other
  · obtain ⟨other, hother⟩ := hmet
    have hname : name = other ↔ s.Meets specifier importer name :=
      ⟨fun h => h ▸ hother, fun h => h.unique hother⟩
    rw [hidden_resolve_of_meets hother, mem_insertName, hname, or_comm]
  · have hnone : ∀ other, ¬ s.Meets specifier importer other := fun other h => hmet ⟨other, h⟩
    rw [hidden_resolve_of_not_meets hnone, or_iff_left (hnone name)]

theorem pairwise_hidden_resolve (h : s.hidden.Pairwise (· < ·)) (specifier : String)
    (importer : Option String) : (s.resolve specifier importer).2.hidden.Pairwise (· < ·) := by
  by_cases hmet : ∃ name, s.Meets specifier importer name
  · obtain ⟨name, hname⟩ := hmet
    rw [hidden_resolve_of_meets hname]
    exact pairwise_insertName h name
  · rwa [hidden_resolve_of_not_meets fun name hname => hmet ⟨name, hname⟩]

end Session

namespace Plugin

open Session

variable {σ : Type} [FileSystem σ] {p : Plugin} {s : Session σ} {run : List (Turn σ)}
  {name : String}

theorem hidden_onResolveId (s : Session σ) (specifier : String) (importer : Option String) :
    (onResolveId specifier importer s).2.hidden = (s.resolve specifier importer).2.hidden := by
  unfold onResolveId
  split
  · next hasset =>
    have hnone : ∀ name, ¬ s.Meets specifier importer name := by
      rintro name ⟨_, _, _, _, hasks, -⟩
      rw [hasks.noAsset] at hasset
      cases hasset
    exact (hidden_resolve_of_not_meets hnone).symm
  · rfl

/-- Nothing but an import and the advice has to do with hidden packages. -/
theorem hidden_turn_of_happen (p : Plugin) (s : Session σ) (happening : Happening σ) :
    (p.turn s (.happen happening)).hidden = s.hidden := by
  cases happening with
  | build step =>
    cases step with
    | transform code id =>
      obtain ⟨-, hsame⟩ | ⟨_, _, -, -, -, -, hhidden⟩ := transform_cases p code id s
      · exact hsame.hidden
      · exact hhidden
    | moduleParsed id =>
      show (p.moduleParsed id s).2.hidden = s.hidden
      unfold moduleParsed
      split
      · exact (sameBeside_release s _).hidden
      · rfl
    | buildStart => exact (sameBeside_materializeAll s).hidden
  | files change => rfl

theorem mem_hidden_turn {turn : Turn σ} : name ∈ (p.turn s turn).hidden ↔
    (turn ≠ .flush ∧ name ∈ s.hidden) ∨
      ∃ specifier importer, turn = .resolve specifier importer ∧
        s.Meets specifier importer name := by
  cases turn with
  | happen happening =>
    rw [hidden_turn_of_happen]
    simp
  | resolve specifier importer =>
    rw [turn, hidden_onResolveId, mem_hidden_resolve]
    simp
  | flush =>
    have hnone : (onGenerateBundle s).hidden = [] := s.flushHidden_eq.2
    rw [turn, hnone]
    simp

theorem pairwise_hidden_turn (h : s.hidden.Pairwise (· < ·)) (turn : Turn σ) :
    (p.turn s turn).hidden.Pairwise (· < ·) := by
  cases turn with
  | happen happening => rwa [hidden_turn_of_happen]
  | resolve specifier importer =>
    rw [Plugin.turn, hidden_onResolveId]
    exact pairwise_hidden_resolve h specifier importer
  | flush =>
    have hnone : (onGenerateBundle s).hidden = [] := s.flushHidden_eq.2
    rw [Plugin.turn, hnone]
    exact .nil

/-- Some import in a run has met a hidden package, and there was no advice since then. -/
def MetSinceFlush (p : Plugin) (s : Session σ) (run : List (Turn σ)) (name : String) : Prop :=
  ∃ before specifier importer after, run = before ++ .resolve specifier importer :: after ∧
    .flush ∉ after ∧ (before.foldl p.turn s).Meets specifier importer name

theorem metSinceFlush_concat {turn : Turn σ} : p.MetSinceFlush s (run ++ [turn]) name ↔
    (turn ≠ .flush ∧ p.MetSinceFlush s run name) ∨
      ∃ specifier importer, turn = .resolve specifier importer ∧
        (run.foldl p.turn s).Meets specifier importer name := by
  constructor
  · rintro ⟨before, specifier, importer, after, hsplit, hflush, hmeets⟩
    rcases List.eq_nil_or_concat after with rfl | ⟨after, last, rfl⟩
    · obtain ⟨rfl, hturn⟩ := List.append_inj' hsplit rfl
      exact .inr ⟨specifier, importer, List.singleton_inj.mp hturn, hmeets⟩
    · rw [List.concat_eq_append, ← List.cons_append, ← List.append_assoc] at hsplit
      obtain ⟨hrun, hlast⟩ := List.append_inj' hsplit rfl
      obtain rfl := List.singleton_inj.mp hlast
      rw [List.concat_eq_append, List.mem_append, not_or] at hflush
      refine .inl ⟨?_, before, specifier, importer, after, hrun, hflush.1, hmeets⟩
      rintro rfl
      exact hflush.2 List.mem_cons_self
  · rintro (⟨hturn, before, specifier, importer, after, rfl, hflush, hmeets⟩ |
      ⟨specifier, importer, rfl, hmeets⟩)
    · refine ⟨before, specifier, importer, after ++ [turn], by simp, ?_, hmeets⟩
      rw [List.mem_append, List.mem_singleton, not_or]
      exact ⟨hflush, hturn.symm⟩
    · exact ⟨run, specifier, importer, [], rfl, List.not_mem_nil, hmeets⟩

/-- In any run, the hidden packages are those met since the last advice, in ascending order. -/
theorem hidden_foldl_turn (p : Plugin) (files : σ) (run : List (Turn σ)) :
    (run.foldl p.turn (.start files)).hidden.Pairwise (· < ·) ∧
      ∀ name, name ∈ (run.foldl p.turn (.start files)).hidden ↔
        p.MetSinceFlush (.start files) run name := by
  induction run using List.reverseRecOn with
  | nil =>
    refine ⟨.nil, ?_⟩
    intro name
    constructor
    · intro h
      cases h
    · rintro ⟨before, _, _, _, hsplit, -⟩
      simp at hsplit
  | append_singleton run turn ih =>
    rw [List.foldl_append, List.foldl_cons, List.foldl_nil]
    refine ⟨pairwise_hidden_turn ih.1 turn, ?_⟩
    intro name
    rw [mem_hidden_turn, metSinceFlush_concat, ih.2 name]

/-- Whatever happens while a bundle is made, the advice is about the packages that imports met since
it was given last, each once and in ascending order, and there is none if they met none. -/
theorem flushHidden_of_run (p : Plugin) (files : σ) (run : List (Turn σ)) :
    let s := run.foldl p.turn (.start files)
    (∃ names : List String, names.Pairwise (· < ·) ∧
      (∀ name, name ∈ names ↔ p.MetSinceFlush (.start files) run name) ∧
      s.flushHidden.1 = if names = [] then none
        else some (hiddenPackagesAdvice ++ String.join (names.map ("\n- " ++ ·)))) ∧
    s.flushHidden.2.hidden = [] ∧
    ∀ happening : Happening σ, (p.turn s (.happen happening)).hidden = s.hidden := by
  intro s
  obtain ⟨hsorted, hmem⟩ := hidden_foldl_turn p files run
  obtain ⟨hadvice, hforgotten⟩ := s.flushHidden_eq
  exact ⟨⟨s.hidden, hsorted, hmem, hadvice⟩, hforgotten, hidden_turn_of_happen p s⟩

/-- A first import that meets a hidden package is followed by advice about this one. -/
theorem flushHidden_of_meets (p : Plugin) {files : σ} {specifier : String}
    {importer : Option String} (h : (Session.start files).Meets specifier importer name) :
    (p.turn (.start files) (.resolve specifier importer)).flushHidden.1 =
      some (hiddenPackagesAdvice ++ "\n- " ++ name) := by
  have hhidden : (p.turn (.start files) (.resolve specifier importer)).hidden = [name] := by
    rw [turn, hidden_onResolveId, hidden_resolve_of_meets h]
    rfl
  rw [(flushHidden_eq _).1, hhidden]
  simp [String.join, String.append_assoc]

/-- A package exports its entry alone, so that its metadata is hidden. The import of it is followed
by advice, and then the package is not due to be named again. -/
theorem metSinceFlush_until_flush (p : Plugin) :
    let text := "\x7b\"exports\": \"./index.js\"\x7d"
    let files : Memory := .insert .empty ⟨"/app/node_modules/ui/package.json"⟩ text.toUTF8
    let first : Turn Memory := .resolve "ui" (some "/app/App.svelte")
    p.MetSinceFlush (.start files) [first] "ui" ∧
      (p.turn (.start files) first).flushHidden.1 = some (hiddenPackagesAdvice ++ "\n- ui") ∧
      ¬ p.MetSinceFlush (.start files) [first, .flush] "ui" := by
  intro text files first
  have hasks : (Session.start files).Asks "ui" (some "/app/App.svelte") "ui" "" ⟨"/app"⟩ :=
    ⟨by decide, rfl, by decide +kernel, ⟨_, rfl, by decide, by decide +kernel⟩, by decide⟩
  have hinstalled : Package.installedIn ⟨"/app"⟩ "ui" = ⟨"/app/node_modules/ui"⟩ :=
    Package.installedIn_eq (by decide) (by decide) (by decide)
  have hcandidate : Package.candidate "ui" ⟨"/app"⟩ = ⟨"/app/node_modules/ui/package.json"⟩ :=
    Package.candidate_eq (by decide) (by decide) (by decide) (by decide)
  have hcontents : files.contents (Package.candidate "ui" ⟨"/app"⟩) = some text.toUTF8 := by
    rw [hcandidate]
    exact Table.find?_put_self _ _ _
  have hnearest : Package.IsNearest files "ui" ⟨"/app"⟩ ⟨"/app"⟩ :=
    .self (Memory.pathExists_of_contents hcontents)
  let package : Package := ⟨⟨"/app/node_modules/ui"⟩, none, none, some (.string "./index.js")⟩
  have hparse : Package.parse ⟨"/app/node_modules/ui"⟩ text = .ok package :=
    toOption_eq_some_iff.mp (by decide +kernel)
  have hload : Package.load files (Package.installedIn ⟨"/app"⟩ "ui") = .ok package :=
    Package.load_of_offers ⟨text, hcontents, by decide, by rw [hinstalled, hparse]⟩
  have hmeets : (Session.start files).Meets "ui" (some "/app/App.svelte") "ui" :=
    ⟨"", ⟨"/app"⟩, ⟨"/app"⟩, package, hasks, hnearest, hload, rfl⟩
  have hline : "\n- " ++ "ui" = "\n- ui" := rfl
  refine ⟨⟨[], "ui", some "/app/App.svelte", [], rfl, List.not_mem_nil, hmeets⟩, ?_, ?_⟩
  · rw [flushHidden_of_meets p hmeets, String.append_assoc, hline]
  · rw [← List.singleton_append, metSinceFlush_concat]
    simp

end Plugin

end InlineComponents
