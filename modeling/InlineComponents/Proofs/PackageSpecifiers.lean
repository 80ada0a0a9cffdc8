import InlineComponents.Proofs.PathParts
import InlineComponents.Proofs.Reading
import InlineComponents.Specifier

namespace InlineComponents

/-- The name of a package, which may be in a scope. The scope's own name may be empty. -/
inductive IsPackageName : String → Prop where
  | unscoped {name : String} (hne : name ≠ "") (hslash : '/' ∉ name.toList)
      (hat : name.toList.head? ≠ some '@') : IsPackageName name
  | inScope {scope name : String} (hscope : '/' ∉ scope.toList) (hname : '/' ∉ name.toList)
      (hne : name ≠ "") : IsPackageName ("@" ++ scope ++ "/" ++ name)

def slashes (count : Nat) : String :=
  String.ofList (List.replicate count '/')

/-- A specifier that is written as the name of a package, with what is asked for inside it behind a
slash, and slashes at the end that say nothing. -/
inductive SplitsInto : String → String → String → Prop where
  | root {name : String} (hname : IsPackageName name) (count : Nat) :
      SplitsInto (name ++ slashes count) name ""
  | inside {name rest : String} (hname : IsPackageName name)
      (hrest : rest.toList.getLast? ≠ some '/') (count : Nat) :
      SplitsInto (name ++ "/" ++ rest ++ slashes count) name rest

theorem toSlash_append {s t : List Char} (hs : '/' ∉ s) (ht : t.head?.all (· = '/') = true) :
    toSlash (s ++ t) = (s, t) := by
  have hinside : ∀ c ∈ s, decide (c ≠ '/') = true := by
    intro c hc
    simpa using fun he : c = '/' => hs (he ▸ hc)
  have hstop : t.head?.all (fun c => !decide (c ≠ '/')) = true := by simpa using ht
  rw [toSlash, takeWhile_append_stop hinside hstop, dropWhile_append_stop hinside hstop]

theorem toSlash_eq {s first rest : List Char} (h : toSlash s = (first, rest)) :
    s = first ++ rest ∧ '/' ∉ first ∧ rest.head?.all (· = '/') = true := by
  obtain ⟨rfl, rfl⟩ := Prod.mk.inj h
  refine ⟨List.takeWhile_append_dropWhile.symm, ?_, ?_⟩
  · intro hm
    simpa using List.all_eq_true.mp List.all_takeWhile '/' hm
  · have hhead := List.head?_dropWhile_not (fun c => decide (c ≠ '/')) s
    cases hd : (s.dropWhile (· ≠ '/')).head? with
    | none => rfl
    | some c =>
      rw [hd] at hhead
      simpa using hhead

/-- A package's name is split off where it ends or a slash follows it. -/
theorem splitSpecifier_append {name : String} (hname : IsPackageName name) {t : List Char}
    (ht : t.head?.all (· = '/') = true) :
    splitSpecifier (String.ofList (name.toList ++ t)) = some (name, String.ofList (subpath t)) := by
  cases hname with
  | unscoped hne hslash hat =>
    have hempty : name.toList ≠ [] := by simpa using hne
    rw [splitSpecifier, String.toList_ofList, toSlash_append hslash ht]
    simp only [if_neg hat, if_neg hempty, String.ofList_toList]
  | @inScope scope name hscope hname hne =>
    have hempty : name.toList ≠ [] := by simpa using hne
    have hat : '/' ∉ '@' :: scope.toList := by simpa using hscope
    have hshape : ("@" ++ scope ++ "/" ++ name).toList ++ t =
        ('@' :: scope.toList) ++ '/' :: (name.toList ++ t) := by
      simp
    have hwhole : String.ofList (('@' :: scope.toList) ++ '/' :: name.toList) =
        "@" ++ scope ++ "/" ++ name := by
      rw [← String.toList_inj]
      simp
    rw [splitSpecifier, String.toList_ofList, hshape, toSlash_append hat rfl]
    simp only [List.head?_cons, ↓reduceIte, toSlash_append hname ht, if_neg hempty, hwhole]

/-- What is split off is the name of a package, and ends where the specifier ends or goes on with a
slash. -/
theorem exists_of_splitSpecifier {specifier name rest : String}
    (h : splitSpecifier specifier = some (name, rest)) :
    IsPackageName name ∧ ∃ t, specifier = String.ofList (name.toList ++ t) ∧
      t.head?.all (· = '/') = true ∧ rest = String.ofList (subpath t) := by
  unfold splitSpecifier at h
  rcases hfirst : toSlash specifier.toList with ⟨first, behind⟩
  obtain ⟨hspecifier, hslash, hbehind⟩ := toSlash_eq hfirst
  rw [hfirst] at h
  dsimp only at h
  split at h
  · next hat =>
    obtain ⟨scope, rfl⟩ := List.head?_eq_some_iff.mp hat
    cases behind with
    | nil => cases h
    | cons slash inner =>
      obtain rfl : slash = '/' := by simpa using hbehind
      dsimp only at h
      rcases hinner : toSlash inner with ⟨inside, t⟩
      obtain ⟨rfl, hinside, ht⟩ := toSlash_eq hinner
      rw [hinner] at h
      dsimp only at h
      split at h
      · cases h
      · next hne =>
        cases h
        have hwhole : String.ofList ('@' :: scope ++ '/' :: inside) =
            "@" ++ String.ofList scope ++ "/" ++ String.ofList inside := by
          rw [← String.toList_inj]
          simp
        refine ⟨?_, t, ?_, ht, rfl⟩
        · rw [hwhole]
          refine .inScope ?_ ?_ ?_
          · simp only [List.mem_cons, not_or] at hslash
            simpa using hslash.2
          · simpa using hinside
          · simpa using hne
        · rw [← String.toList_inj, hspecifier]
          simp
  · next hat =>
    split at h
    · cases h
    · next hne =>
      cases h
      refine ⟨.unscoped ?_ ?_ ?_, behind, ?_, hbehind, rfl⟩
      · simpa using hne
      · simpa using hslash
      · simpa using hat
      · rw [← String.toList_inj, hspecifier]
        simp

theorem dropTail_append_replicate {s : List Char} (hs : s.getLast? ≠ some '/') (count : Nat) :
    dropTail (· = '/') (s ++ List.replicate count '/') = s := by
  have hslash : ∀ c ∈ List.replicate count '/', decide (c = '/') = true := by
    intro c hc
    simpa using List.eq_of_mem_replicate hc
  have hstop : s.reverse.head?.all (fun c => !decide (c = '/')) = true := by
    rw [List.head?_reverse]
    cases hlast : s.getLast? with
    | none => rfl
    | some c =>
      rw [hlast] at hs
      simpa using hs
  rw [dropTail, List.reverse_append, List.reverse_replicate, dropWhile_append_stop hslash hstop,
    List.reverse_reverse]

/-- A text is what is left without the slashes at its end, and those. -/
theorem exists_dropTail_slashes (s : List Char) :
    (dropTail (· = '/') s).getLast? ≠ some '/' ∧
      ∃ count, s = dropTail (· = '/') s ++ List.replicate count '/' := by
  constructor
  · rw [dropTail, List.getLast?_reverse]
    intro hlast
    have hhead := List.head?_dropWhile_not (fun c => decide (c = '/')) s.reverse
    rw [hlast] at hhead
    simp at hhead
  · obtain ⟨tail, hs, htail⟩ := Path.exists_dropTail_append (fun c => decide (c = '/')) s
    have hslashes : tail = List.replicate tail.length '/' :=
      List.eq_replicate_iff.mpr ⟨rfl, fun c hc => by simpa using htail c hc⟩
    exact ⟨tail.length, hslashes ▸ hs⟩

/-- Specifiers are split as they are written. -/
theorem splitSpecifier_eq_some_iff {specifier name rest : String} :
    splitSpecifier specifier = some (name, rest) ↔ SplitsInto specifier name rest := by
  constructor
  · intro h
    obtain ⟨hname, t, rfl, ht, rfl⟩ := exists_of_splitSpecifier h
    cases t with
    | nil =>
      have hroot := SplitsInto.root hname 0
      simpa [slashes, subpath, dropTail] using hroot
    | cons c t =>
      obtain rfl : c = '/' := by simpa using ht
      obtain ⟨hlast, count, hsplit⟩ := exists_dropTail_slashes t
      have hinside : SplitsInto
          (name ++ "/" ++ String.ofList (subpath ('/' :: t)) ++ slashes count) name
          (String.ofList (subpath ('/' :: t))) := .inside hname (by simpa [subpath]) count
      have hwritten : name ++ "/" ++ String.ofList (subpath ('/' :: t)) ++ slashes count =
          String.ofList (name.toList ++ '/' :: t) := by
        rw [← String.toList_inj]
        simp [subpath, slashes, ← hsplit]
      rwa [hwritten] at hinside
  · intro h
    cases h with
    | root hname count =>
      have hsplit := @splitSpecifier_append _ hname (List.replicate count '/')
        (by cases count <;> rfl)
      have hsubpath : subpath (List.replicate count '/') = [] := by
        have hnil := @dropTail_append_replicate [] (by simp) (count - 1)
        rw [List.nil_append] at hnil
        rw [subpath, List.drop_replicate, hnil]
      rw [hsubpath] at hsplit
      rw [← hsplit, slashes, String.ofList_append, String.ofList_toList]
    | inside hname hrest count =>
      have hsplit := @splitSpecifier_append _ hname
        ('/' :: (rest.toList ++ List.replicate count '/')) rfl
      have hsubpath : subpath ('/' :: (rest.toList ++ List.replicate count '/')) = rest.toList :=
        dropTail_append_replicate hrest count
      rw [hsubpath, String.ofList_toList] at hsplit
      rw [← hsplit]
      congr 1
      rw [← String.toList_inj]
      simp [slashes]

/-- A specifier is split into the name of a package and what is asked for inside it, if it is
written so; then there is no other way to split it, and the parts give it back up to the slashes at
its end. -/
theorem splitSpecifier_written :
    (∀ name, IsPackageName name → ∀ count,
      (∀ rest : String, rest.toList.getLast? ≠ some '/' →
        splitSpecifier (name ++ "/" ++ rest ++ slashes count) = some (name, rest)) ∧
      splitSpecifier (name ++ slashes count) = some (name, "")) ∧
    (∀ specifier, (∀ name rest, ¬ SplitsInto specifier name rest) →
      splitSpecifier specifier = none) ∧
    (∀ specifier name rest name' rest', SplitsInto specifier name rest →
      SplitsInto specifier name' rest' → name = name' ∧ rest = rest') ∧
    (∀ specifier name rest, splitSpecifier specifier = some (name, rest) →
      IsPackageName name ∧ rest.toList.getLast? ≠ some '/' ∧
        ∃ count, specifier = name ++ "/" ++ rest ++ slashes count ∨
          rest = "" ∧ specifier = name ++ slashes count) := by
  refine ⟨?_, ?_, ?_, ?_⟩
  · intro name hname count
    exact ⟨fun rest hrest => splitSpecifier_eq_some_iff.mpr (.inside hname hrest count),
      splitSpecifier_eq_some_iff.mpr (.root hname count)⟩
  · intro specifier hnone
    rw [Option.eq_none_iff_forall_not_mem]
    rintro ⟨name, rest⟩ hsplit
    exact hnone name rest (splitSpecifier_eq_some_iff.mp hsplit)
  · intro specifier name rest name' rest' h h'
    rw [← splitSpecifier_eq_some_iff] at h h'
    simpa using h.symm.trans h'
  · intro specifier name rest hsplit
    cases splitSpecifier_eq_some_iff.mp hsplit with
    | root hname count => exact ⟨hname, by simp, count, .inr ⟨rfl, rfl⟩⟩
    | inside hname hrest count => exact ⟨hname, hrest, count, .inl rfl⟩

/-- A scope without a name of its own, a slash too many, and a scope alone. -/
theorem splitSpecifier_written_empty_scope :
    (IsPackageName "@/ui" ∧ "/é".toList.getLast? ≠ some '/' ∧
      splitSpecifier "@/ui//é//" = some ("@/ui", "/é") ∧
      splitSpecifier "@/ui//" = some ("@/ui", "")) ∧
    (∀ name rest, ¬ SplitsInto "@acme/" name rest) ∧ splitSpecifier "@acme/" = none := by
  obtain ⟨hwritten, hnone, -⟩ := splitSpecifier_written
  have hname : IsPackageName "@/ui" :=
    @IsPackageName.inScope "" "ui" (by decide) (by decide) (by decide)
  have hrest : "/é".toList.getLast? ≠ some '/' := by decide
  have halone : ∀ name rest, ¬ SplitsInto "@acme/" name rest := by
    intro name rest h
    have hsplit := splitSpecifier_eq_some_iff.mpr h
    cases hsplit.symm.trans (by decide : splitSpecifier "@acme/" = none)
  obtain ⟨hinside, hroot⟩ := hwritten "@/ui" hname 2
  exact ⟨⟨hname, hrest, hinside "/é" hrest, hroot⟩, halone, hnone "@acme/" halone⟩

end InlineComponents
