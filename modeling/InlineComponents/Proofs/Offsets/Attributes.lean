import InlineComponents.Imports
import InlineComponents.Proofs.AttributeLookup
import InlineComponents.Proofs.Offsets.Bytes
import Mathlib.Data.List.TakeWhile

namespace InlineComponents.Offsets

/-- The offset of the first such character of a text. -/
def findChar (p : Char → Bool) (text : String) : Option Nat :=
  if text.toList.any p then some (byteLength (text.toList.takeWhile fun c => !p c)) else none

def trimStart (text : String) : String :=
  String.ofList (dropBlanks text.toList)

/-- What a text goes on with from an offset, or nothing where that is no place in it. -/
def restOrEmpty (text : String) (start : Nat) : String :=
  match cut text start text.utf8ByteSize with
  | .ok rest => rest
  | .error _ => ""

/-- What comes after an attribute's key: its value, if an equals sign begins the text, and the text
behind it. -/
def readValue (text : String) : Reading (Option String × String) :=
  match text.toList with
  | '=' :: after =>
    let after := trimStart (String.ofList after)
    match after.toList with
    | [] => .ok (some "", "")
    | c :: _ =>
      if isQuote c then do
        let inner ← cut after 1 after.utf8ByteSize
        let stop := (findChar (· = c) inner).getD inner.utf8ByteSize
        let value ← cut inner 0 stop
        .ok (some value, restOrEmpty inner (stop + 1))
      else do
        let stop := (findChar isBlank after).getD after.utf8ByteSize
        let value ← cut after 0 stop
        let rest ← cut after stop after.utf8ByteSize
        .ok (some value, rest)
  | _ => .ok (none, text)

/-- One attribute of a tag: it ends the search if it has the key. -/
def attributeRound (key text : String) : Reading (Round String (Option String)) :=
  let text := trimStart text
  if text.isEmpty then .ok (.done none)
  else do
    let stop := (findChar endsKey text).getD text.utf8ByteSize
    let found ← cut text 0 stop
    let behind ← cut text stop text.utf8ByteSize
    let (value, rest) ← readValue (trimStart behind)
    if found = key then .ok (.done value) else .ok (.again rest)

section Cuts

variable {source : String} {offset : Nat} {s : List Char}

theorem RestAt.cut_rest (h : RestAt source.toList offset s) :
    cut source offset source.utf8ByteSize = .ok (String.ofList s) := by
  rw [← length_utf8_toList, ← h.length_eq]
  rw [← List.append_nil s] at h
  exact h.cut_eq

theorem restAt_ofList (s t : List Char) : RestAt (String.ofList (s ++ t)).toList (byteLength s) t :=
  ⟨s, String.toList_ofList, rfl⟩

theorem cut_front (s t : List Char) :
    cut (String.ofList (s ++ t)) 0 (byteLength s) = .ok (String.ofList s) := by
  have h : RestAt (String.ofList (s ++ t)).toList 0 (s ++ t) := ⟨[], String.toList_ofList, rfl⟩
  have hcut := h.cut_eq
  rwa [Nat.zero_add] at hcut

theorem cut_back (s t : List Char) :
    cut (String.ofList (s ++ t)) (byteLength s) (String.ofList (s ++ t)).utf8ByteSize =
      .ok (String.ofList t) :=
  (restAt_ofList s t).cut_rest

theorem findChar_getD (p : Char → Bool) (s : List Char) :
    (findChar p (String.ofList s)).getD (String.ofList s).utf8ByteSize =
      byteLength (s.takeWhile fun c => !p c) := by
  rw [findChar, utf8ByteSize_eq_byteLength, String.toList_ofList]
  split
  · rfl
  · next hnone =>
    rw [Option.getD_none, List.takeWhile_eq_self_iff.mpr]
    simpa using hnone

/-- A text taken apart at its first such character, or taken as a whole. -/
theorem cut_findChar (p : Char → Bool) (s : List Char) :
    cut (String.ofList s) 0 (byteLength (s.takeWhile fun c => !p c)) =
        .ok (String.ofList (s.takeWhile fun c => !p c)) ∧
      cut (String.ofList s) (byteLength (s.takeWhile fun c => !p c))
          (String.ofList s).utf8ByteSize =
        .ok (String.ofList (s.dropWhile fun c => !p c)) := by
  have hfront := cut_front (s.takeWhile fun c => !p c) (s.dropWhile fun c => !p c)
  have hback := cut_back (s.takeWhile fun c => !p c) (s.dropWhile fun c => !p c)
  rw [List.takeWhile_append_dropWhile] at hfront hback
  exact ⟨hfront, hback⟩

/-- Behind the quote that ends a value goes on what is behind it; without one, nothing does. -/
theorem restOrEmpty_quote {c : Char} (hc : IsAscii c) (s : List Char) :
    restOrEmpty (String.ofList s) (byteLength (s.takeWhile (· ≠ c)) + 1) =
      String.ofList ((s.dropWhile (· ≠ c)).drop 1) := by
  have hs : s.takeWhile (· ≠ c) ++ s.dropWhile (· ≠ c) = s := List.takeWhile_append_dropWhile
  rw [restOrEmpty]
  cases hd : s.dropWhile (· ≠ c) with
  | nil =>
    rw [hd, List.append_nil] at hs
    have hout : ¬ byteLength s + 1 ≤ (String.ofList s).utf8ByteSize := by
      rw [utf8ByteSize_eq_byteLength, String.toList_ofList]
      omega
    rw [hs, cut, if_neg fun h => hout h.1]
    rfl
  | cons d t =>
    have hquote : d = c := by
      have hhead := List.head?_dropWhile_not (· ≠ c) s
      rw [hd] at hhead
      simpa using hhead
    subst hquote
    rw [hd] at hs
    have hback := cut_back (s.takeWhile (· ≠ d) ++ [d]) t
    rw [List.append_assoc, List.singleton_append, hs, byteLength_append, byteLength_cons,
      byteLength_nil, utf8Size_of_isAscii hc] at hback
    rw [hback]
    rfl

end Cuts

section Attributes

theorem readValue_ofList (s : List Char) :
    readValue (String.ofList s) = .ok (match s with
      | '=' :: after =>
        (some (String.ofList (readAttributeValue (dropBlanks after)).1),
          String.ofList (readAttributeValue (dropBlanks after)).2)
      | _ => (none, String.ofList s)) := by
  rw [readValue, String.toList_ofList]
  split
  · next after =>
    simp only [trimStart, String.toList_ofList]
    cases hafter : dropBlanks after with
    | nil => rfl
    | cons c t =>
      dsimp only
      cases hquote : isQuote c with
      | true =>
        have hc : IsAscii c := isAscii_of_isQuote hquote
        have hinner : cut (String.ofList (c :: t)) 1 (String.ofList (c :: t)).utf8ByteSize =
            .ok (String.ofList t) := by
          have hback := cut_back [c] t
          rwa [List.singleton_append, byteLength_cons, byteLength_nil, utf8Size_of_isAscii hc]
            at hback
        have hclass : (fun d => !decide (d = c)) = fun d => decide (d ≠ c) := by
          funext d
          exact (decide_not).symm
        have hvalue := (cut_findChar (· = c) t).1
        rw [hclass] at hvalue
        rw [if_pos rfl, hinner, ok_bind, findChar_getD, hclass, hvalue, ok_bind,
          restOrEmpty_quote hc, readAttributeValue]
        simp [hquote]
      | false =>
        obtain ⟨hvalue, hrest⟩ := cut_findChar isBlank (c :: t)
        rw [if_neg Bool.false_ne_true, findChar_getD, hvalue, ok_bind, hrest, ok_bind,
          readAttributeValue]
        simp [hquote]
  · rfl

/-- A round reads an attribute as it is written. -/
theorem attributeRound_eq (key text : String) :
    attributeRound key text = .ok (match dropBlanks text.toList with
      | [] => .done none
      | c :: cs =>
        let read := readAttribute (c :: cs)
        if read.1.key = key.toList then .done (read.1.value.map String.ofList)
        else .again (String.ofList read.2)) := by
  rw [attributeRound, trimStart]
  cases h : dropBlanks text.toList with
  | nil => rfl
  | cons c cs =>
    have hsome : (String.ofList (c :: cs)).isEmpty = false := by
      rw [Bool.eq_false_iff, ne_eq, String.isEmpty_iff, ← String.toList_inj]
      simp
    obtain ⟨hkey, hbehind⟩ := cut_findChar endsKey (c :: cs)
    dsimp only
    rw [hsome, if_neg Bool.false_ne_true, findChar_getD, hkey, ok_bind, hbehind, ok_bind, trimStart,
      String.toList_ofList, readValue_ofList, ok_bind, readAttribute]
    have hsame : String.ofList ((c :: cs).takeWhile fun d => !endsKey d) = key ↔
        ((c :: cs).takeWhile fun d => !endsKey d) = key.toList := by
      rw [← String.toList_inj, String.toList_ofList]
    dsimp only
    split
    · split <;> split <;> simp_all
    · split <;> split <;> simp_all

def attributeLoop (key : String) : Loop String (Option String) where
  round := attributeRound key
  left text := text.toList.length
  advances text := by
    rw [attributeRound_eq]
    cases h : dropBlanks text.toList with
    | nil => exact yields_ok trivial
    | cons c cs =>
      dsimp only
      by_cases hkey : (readAttribute (c :: cs)).1.key = key.toList
      · rw [if_pos hkey]
        exact yields_ok trivial
      · rw [if_neg hkey]
        exact yields_ok (by simpa using readAttribute_shorter h)

/-- The value of the first attribute of a tag that has the key. -/
def findAttribute (attributes key : String) : Reading (Option String) :=
  (attributeLoop key).run attributes

theorem findAttribute_eq (attributes key : String) :
    findAttribute attributes key =
      .ok ((attributeValue attributes.toList key.toList).map String.ofList) := by
  rw [findAttribute]
  induction hn : attributes.toList.length using Nat.strong_induction_on generalizing attributes with
  | _ n ih =>
  subst hn
  have hround := attributeRound_eq key attributes
  cases h : dropBlanks attributes.toList with
  | nil =>
    rw [h] at hround
    rw [attributeValue_of_dropBlanks_eq_nil h]
    exact Loop.run_of_done hround
  | cons c cs =>
    rw [h] at hround
    rw [attributeValue_of_dropBlanks_eq_cons h]
    dsimp only at hround
    split at hround
    · next hkey =>
      rw [if_pos hkey]
      exact Loop.run_of_done hround
    · next hkey =>
      have hrest := ih _ (by simpa using readAttribute_shorter h)
        (String.ofList (readAttribute (c :: cs)).2) rfl
      rw [String.toList_ofList] at hrest
      rw [if_neg hkey, ← hrest]
      exact Loop.run_of_again hround

/-- Whether a script's opening tag marks it as one of the module. -/
def marksModule (attributes : String) : Reading Bool := do
  let context ← findAttribute attributes "context"
  .ok (context = some "module" ||
    (words isBlank attributes.toList).any fun word => dropTail (· = '/') word = "module".toList)

theorem marksModule_eq (attributes : String) :
    marksModule attributes = .ok (isModuleScript attributes.toList) := by
  have hsame (value : Option (List Char)) :
      (value.map String.ofList = some "module") ↔ value = some "module".toList := by
    cases value with
    | none => simp
    | some value =>
      rw [Option.map_some, Option.some.injEq, Option.some.injEq, ← String.toList_inj,
        String.toList_ofList]
  rw [marksModule, findAttribute_eq, ok_bind, isModuleScript]
  simp only [hsame]

/-- The name that the inside of a template's opening tag declares. -/
def readName (attributes : String) : Reading (Option String) :=
  findAttribute (String.ofList (dropTail (· = '/') attributes.toList)) "name"

end Attributes

end InlineComponents.Offsets
