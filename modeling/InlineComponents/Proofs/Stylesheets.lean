import InlineComponents.Proofs.Emission
import InlineComponents.Proofs.Leftovers
import InlineComponents.Proofs.StylesheetIds

namespace InlineComponents

/-- What happens while a bundle is made: besides what happens in its build, imports are resolved,
and the advice about hidden packages is given. -/
inductive Turn (σ : Type) where
  | happen (happening : Happening σ)
  | resolve (specifier : String) (importer : Option String)
  | flush

namespace Session

variable {σ : Type}

theorem assets_settle (s : Session σ) (specifier : String) (request : PackageRequest)
    (lookup : Lookup) : (s.settle specifier request lookup).2.assets = s.assets := by
  cases lookup with
  | found package =>
    unfold settle
    dsimp only
    split
    · split
      · rfl
      · rfl
    · rfl
  | missing => rfl
  | hidden name => rfl
  | failed failure => rfl

theorem assets_flushHidden (s : Session σ) : s.flushHidden.2.assets = s.assets := by
  unfold flushHidden
  dsimp only
  split
  · rfl
  · rfl

variable [FileSystem σ]

theorem assets_resolve (s : Session σ) (specifier : String) (importer : Option String) :
    (s.resolve specifier importer).2.assets = s.assets := by
  unfold resolve
  split
  · rfl
  · split
    · rfl
    · exact assets_settle s specifier _ _

end Session

namespace Plugin

open Session

variable {σ : Type} [FileSystem σ]

theorem assets_onResolveId (s : Session σ) (specifier : String) (importer : Option String) :
    (onResolveId specifier importer s).2.assets = s.assets := by
  unfold onResolveId
  split
  · rfl
  · exact s.assets_resolve specifier importer

def turn (p : Plugin) (s : Session σ) : Turn σ → Session σ
  | .happen happening => p.happen s happening
  | .resolve specifier importer => (onResolveId specifier importer s).2
  | .flush => onGenerateBundle s

/-- The stylesheet that is kept by a turn, under its id. -/
def emission? (p : Plugin) (s : Session σ) : Turn σ → Option (String × String)
  | .happen (.build (.transform code id)) =>
    match (p.transform code id s).1 with
    | .ok (some _) =>
      ((p.compiled? code id).bind p.emittedStylesheet).map fun css => (stylesheetId id, css)
    | _ => none
  | _ => none

/-- The stylesheets that are kept in a run, one after the other. -/
def emissions (p : Plugin) (s : Session σ) : List (Turn σ) → List (String × String)
  | [] => []
  | turn :: run => (p.emission? s turn).toList ++ p.emissions (p.turn s turn) run

/-- The stylesheet that was kept last under an id. -/
def lastEmitted (p : Plugin) (s : Session σ) (run : List (Turn σ)) (key : String) :
    Option String :=
  (p.emissions s run).reverse.lookup key

variable {p : Plugin}

theorem assets_transform (code id : String) (s : Session σ) :
    (p.transform code id s).2.assets =
      match p.emission? s (.happen (.build (.transform code id))) with
      | none => s.assets
      | some (key, css) => s.assets.put key css := by
  obtain ⟨hnone, hsame⟩ | ⟨out, output, hout, houtput, -, hassets, -⟩ :=
    transform_cases p code id s
  · have hemission : p.emission? s (.happen (.build (.transform code id))) = none := by
      unfold emission?
      dsimp only
      split
      · next out hout => exact absurd hout (hnone out)
      · rfl
    rw [hemission]
    exact hsame.assets
  · rw [hassets, emission?, hout, houtput, emittedAssets, Option.bind_some]
    cases p.emittedStylesheet output with
    | none => rfl
    | some css => rfl

/-- The stylesheets are changed by what a turn keeps, and by nothing else. -/
theorem assets_turn (s : Session σ) (turn : Turn σ) :
    (p.turn s turn).assets =
      match p.emission? s turn with
      | none => s.assets
      | some (key, css) => s.assets.put key css := by
  cases turn with
  | happen happening =>
    cases happening with
    | build step =>
      cases step with
      | transform code id => exact assets_transform code id s
      | moduleParsed id =>
        show (p.moduleParsed id s).2.assets = s.assets
        unfold moduleParsed
        split
        · exact (sameBeside_release s _).assets
        · rfl
      | buildStart => exact (sameBeside_materializeAll s).assets
    | files change => rfl
  | resolve specifier importer => exact assets_onResolveId s specifier importer
  | flush => exact s.assets_flushHidden

/-- An id leads to the stylesheet that was kept under it last. -/
theorem asset?_foldl_turn (s : Session σ) (run : List (Turn σ)) (key : String) :
    (run.foldl p.turn s).asset? key = (p.lastEmitted s run key).or (s.asset? key) := by
  induction run generalizing s with
  | nil => rfl
  | cons turn run ih =>
    -- the last one kept is looked up first, and the turn at the front last
    have hturn : (p.turn s turn).asset? key =
        ((p.emission? s turn).toList.reverse.lookup key).or (s.asset? key) := by
      rw [asset?, assets_turn]
      cases p.emission? s turn with
      | none => rfl
      | some entry =>
        obtain ⟨id, css⟩ := entry
        show (s.assets.put id css).find? key =
          ([(id, css)].lookup key).or (s.assets.find? key)
        rw [Table.find?_put]
        by_cases hk : key = id
        · simp [hk]
        · have hne : (key == id) = false := by simpa using hk
          simp [List.lookup_cons, hne, hk]
    rw [List.foldl_cons, ih, hturn, lastEmitted, lastEmitted, emissions, List.reverse_append,
      List.lookup_append, Option.or_assoc]

theorem eq_of_emission? {s : Session σ} {turn : Turn σ} {key css : String}
    (h : p.emission? s turn = some (key, css)) :
    ∃ code id, turn = .happen (.build (.transform code id)) ∧ stylesheetId id = key ∧
      (p.compiled? code id).bind p.emittedStylesheet = some css := by
  unfold emission? at h
  split at h
  · next code id =>
    split at h
    · obtain ⟨css', hcss, he⟩ := Option.map_eq_some_iff.mp h
      obtain ⟨rfl, rfl⟩ := Prod.mk.inj he
      exact ⟨code, id, rfl, rfl, hcss⟩
    · cases h
  · cases h

/-- What is kept in a run is the stylesheet of a component that is transformed in it. -/
theorem exists_transform_of_mem_emissions {s : Session σ} {run : List (Turn σ)}
    {key css : String} (h : (key, css) ∈ p.emissions s run) :
    ∃ code id, .happen (.build (.transform code id)) ∈ run ∧ stylesheetId id = key ∧
      (p.compiled? code id).bind p.emittedStylesheet = some css := by
  induction run generalizing s with
  | nil => cases h
  | cons turn run ih =>
    rcases List.mem_append.mp h with hfirst | hrest
    · obtain ⟨code, id, rfl, hid⟩ := eq_of_emission? (Option.mem_toList.mp hfirst)
      exact ⟨code, id, List.mem_cons_self, hid⟩
    · obtain ⟨code, id, hmem, hid⟩ := ih hrest
      exact ⟨code, id, List.mem_cons_of_mem turn hmem, hid⟩

theorem mem_emissions_of_lastEmitted {s : Session σ} {run : List (Turn σ)} {key css : String}
    (h : p.lastEmitted s run key = some css) : (key, css) ∈ p.emissions s run := by
  obtain ⟨before, after, he, -⟩ := List.lookup_eq_some_iff.mp h
  have hmem : (key, css) ∈ (p.emissions s run).reverse := by simp [he]
  exact List.mem_reverse.mp hmem

theorem asset?_of_transform {s t : Session σ} {code id css : String} {out : TransformOutput}
    (h : p.transform code id s = (.ok (some out), t))
    (hcss : (p.compiled? code id).bind p.emittedStylesheet = some css) :
    t.asset? (stylesheetId id) = some css := by
  obtain ⟨output, houtput, -, hassets⟩ := emitted_of_transform h
  rw [houtput, Option.bind_some] at hcss
  rw [asset?, hassets, emittedAssets, hcss]
  exact Table.find?_put_self _ _ _

/-- After a component was transformed, its stylesheet is what its import leads to as long as no
other stylesheet is kept under the same id, which is none of a component with another front. -/
theorem onLoad_of_transform (p : Plugin) {s t : Session σ} {code id css : String}
    {out : TransformOutput} (h : p.transform code id s = (.ok (some out), t))
    (hcss : (p.compiled? code id).bind p.emittedStylesheet = some css) (run : List (Turn σ)) :
    let u := run.foldl p.turn t
    (∃ js, out.code = js ++ "\nimport " ++ jsonString (stylesheetId id) ++ ";") ∧
    (onLoad (stylesheetId id) u = some (css, .css) ↔
      ∀ css', p.lastEmitted t run (stylesheetId id) = some css' → css' = css) ∧
    ∀ {front extension}, IsSpelled id front extension →
      (∀ code' id', .happen (.build (.transform code' id')) ∈ run →
        ∃ front' extension', IsSpelled id' front' extension' ∧ front' ≠ front) →
      onLoad (stylesheetId id) u = some (css, .css) := by
  intro u
  have hasset : u.asset? (stylesheetId id) =
      (p.lastEmitted t run (stylesheetId id)).or (some css) := by
    rw [← asset?_of_transform h hcss]
    exact asset?_foldl_turn t run (stylesheetId id)
  have hload : onLoad (stylesheetId id) u = some (css, .css) ↔
      ∀ css', p.lastEmitted t run (stylesheetId id) = some css' → css' = css := by
    rw [onLoad, hasset]
    cases p.lastEmitted t run (stylesheetId id) with
    | none => simp
    | some css' => simp
  refine ⟨?_, hload, ?_⟩
  · obtain ⟨output, houtput, hcode, -⟩ := emitted_of_transform h
    rw [houtput, Option.bind_some] at hcss
    rw [emittedCode, hcss] at hcode
    exact ⟨output.js, hcode⟩
  · intro front extension hid hothers
    -- whatever was kept under the same id is of a component with the same front
    refine hload.mpr ?_
    intro css' hlast
    obtain ⟨code', id', hmem, hkey, -⟩ :=
      exists_transform_of_mem_emissions (mem_emissions_of_lastEmitted hlast)
    obtain ⟨front', extension', hid', hne⟩ := hothers code' id' hmem
    exact absurd (hid'.front_eq hid hkey) hne

theorem onLoad_of_transform_two :
    let p : Plugin := ⟨.default, none, none, fun source options =>
      .ok ⟨source, none, some options.filename, [], []⟩⟩
    let s : Session Memory := .start .empty
    let run : List (Turn Memory) := [.happen (.build (.transform "" "/B.svelte"))]
    ((p.transform "" "/A.svelte" s).1 = .ok (some ⟨"\nimport \"/A.css\";", none, []⟩) ∧
      (p.compiled? "" "/A.svelte").bind p.emittedStylesheet = some "/A.svelte" ∧
      IsSpelled "/A.svelte" "/A" "svelte" ∧ IsSpelled "/B.svelte" "/B" "svelte") ∧
    onLoad (stylesheetId "/A.svelte") (run.foldl p.turn (p.transform "" "/A.svelte" s).2) =
      some ("/A.svelte", .css) := by
  intro p s run
  have hout : (p.transform "" "/A.svelte" s).1 =
      .ok (some ⟨"\nimport \"/A.css\";", none, []⟩) :=
    toOption_eq_some_iff.mp (by decide +kernel)
  have hcss : (p.compiled? "" "/A.svelte").bind p.emittedStylesheet = some "/A.svelte" := by
    decide +kernel
  have ha : IsSpelled "/A.svelte" "/A" "svelte" := ⟨by decide, by decide, by decide +kernel⟩
  have hb : IsSpelled "/B.svelte" "/B" "svelte" := ⟨by decide, by decide, by decide +kernel⟩
  refine ⟨⟨hout, hcss, ha, hb⟩, ?_⟩
  refine (onLoad_of_transform p (Prod.ext hout rfl) hcss run).2.2 ha ?_
  intro code' id' hmem
  obtain ⟨rfl, rfl⟩ : code' = "" ∧ id' = "/B.svelte" := by simpa [run] using hmem
  exact ⟨"/B", "svelte", hb, by decide⟩

/-- Two components that differ in their extensions alone have one stylesheet between them. -/
theorem onLoad_overwritten_of_front :
    let o : Options := { Options.default with extensions := [".svelte", ".svx"] }
    let p : Plugin := ⟨o, none, none, fun source options =>
      .ok ⟨source, none, some options.filename, [], []⟩⟩
    let s : Session Memory := .start .empty
    let t := (p.transform "" "/B.svelte" s).2
    (p.transform "" "/B.svelte" s).1 = .ok (some ⟨"\nimport \"/B.css\";", none, []⟩) ∧
      (p.compiled? "" "/B.svelte").bind p.emittedStylesheet = some "/B.svelte" ∧
      (p.transform "" "/B.svx" t).1 = .ok (some ⟨"\nimport \"/B.css\";", none, []⟩) ∧
      onLoad "/B.css" (p.transform "" "/B.svx" t).2 = some ("/B.svx", .css) := by
  refine ⟨?_, ?_, ?_, ?_⟩
  · exact toOption_eq_some_iff.mp (by decide +kernel)
  · decide +kernel
  · exact toOption_eq_some_iff.mp (by decide +kernel)
  · decide +kernel

end Plugin

end InlineComponents
