import InlineComponents.Proofs.TagReading

namespace InlineComponents

namespace Standing

variable {first mid last : Standing} {s t seen : List Char}

/-- The text is read from one standing to the other, and nothing in it leads out of the
expression. -/
def Leads : Standing → List Char → Standing → Prop
  | first, [], last => first = last
  | first, c :: s, last => (first.next c).isWithin = true ∧ (first.next c).Leads s last

theorem Leads.append (hs : first.Leads s mid) (ht : mid.Leads t last) :
    first.Leads (s ++ t) last := by
  induction s generalizing first with
  | nil => exact hs ▸ ht
  | cons c s ih => exact ⟨hs.1, ih hs.2⟩

theorem leads_singleton {c : Char} (h : first.next c = last) (hw : last.isWithin = true) :
    first.Leads [c] last :=
  ⟨h ▸ hw, h⟩

theorem Leads.cons {c : Char} (h : first.next c = mid) (hw : mid.isWithin = true)
    (hs : mid.Leads s last) : first.Leads (c :: s) last :=
  (leads_singleton h hw).append hs

/-- What does not end an expression is read to somewhere in it. -/
theorem leads_of_closeBrace_go (hw : first.isWithin = true)
    (h : closeBrace.go first seen s = none) : first.Leads s (s.foldl Standing.next first) := by
  induction s generalizing first seen with
  | nil => rfl
  | cons c s ih =>
    unfold closeBrace.go at h
    rcases Standing.next_isWithin (c := c) hw with hn | ⟨hn, -⟩
    · refine ⟨hn, ?_⟩
      split at h
      · cases h
      · exact ih hn h
    · rw [hn] at h
      cases h

theorem closeBrace_go_leads (h : first.Leads s last) (seen t : List Char) :
    closeBrace.go first seen (s ++ t) = closeBrace.go last (s.reverse ++ seen) t := by
  induction s generalizing first seen with
  | nil => rw [h]; rfl
  | cons c s ih =>
    obtain ⟨hn, hs⟩ := h
    have hrest := ih hs (c :: seen)
    rw [List.cons_append, List.reverse_cons, List.append_assoc, List.singleton_append, ← hrest,
      closeBrace.go]
    split
    · next hplain => simp [hplain, isWithin] at hn
    · rfl

theorem ne_plain_of_isWithin (hw : first.isWithin = true) : first ≠ .plain := by
  rintro rfl
  cases hw

theorem closeTag_go_leads (hw : first.isWithin = true) (h : first.Leads s last)
    (seen t : List Char) :
    closeTag.go first seen (s ++ t) = closeTag.go last (s.reverse ++ seen) t := by
  induction s generalizing first seen with
  | nil => rw [h]; rfl
  | cons c s ih =>
    obtain ⟨hn, hs⟩ := h
    have hstay : ¬ (first = .plain && c = '>') = true := by simp [ne_plain_of_isWithin hw]
    rw [List.cons_append, closeTag.go, if_neg hstay, ih hn hs, List.reverse_cons,
      List.append_assoc, List.singleton_append]

theorem next_braces (depth : Nat) (c : Char) : (braces depth).next c =
    if c = '{' then .braces (depth + 1)
    else if c = '}' then (if depth = 0 then .plain else .braces (depth - 1))
    else if beginsLiteral c then .literal depth c else .braces depth := by
  cases depth <;> rfl

/-- A string is in quotes. -/
def IsQuoted : Standing → Prop
  | .literal _ quote | .escaped _ quote => beginsLiteral quote = true
  | .plain | .quoted _ | .braces _ => True

theorem isQuoted_next {standing : Standing} (h : standing.IsQuoted) (c : Char) :
    (standing.next c).IsQuoted := by
  cases standing with
  | plain =>
    simp only [Standing.next]
    split
    · trivial
    · split <;> trivial
  | quoted quote =>
    simp only [Standing.next]
    split <;> trivial
  | braces depth =>
    rw [next_braces]
    split
    · trivial
    · split
      · split <;> trivial
      · split
        · assumption
        · trivial
  | literal depth quote =>
    simp only [Standing.next]
    split
    · exact h
    · split
      · trivial
      · exact h
  | escaped depth quote => exact h

/-- What can be reached from the beginning of an expression is in it, and in quotes if it is in a
string. -/
theorem Leads.isQuoted (h : first.Leads s last) (hw : first.isWithin = true)
    (hq : first.IsQuoted) : last.isWithin = true ∧ last.IsQuoted := by
  induction s generalizing first with
  | nil => exact h ▸ ⟨hw, hq⟩
  | cons c s ih => exact ih h.2 h.1 (isQuoted_next hq c)

/-- The standing in an expression that has so many more braces around it. -/
def deepen (n : Nat) : Standing → Standing
  | .plain => .plain
  | .quoted quote => .quoted quote
  | .braces depth => .braces (depth + n)
  | .literal depth quote => .literal (depth + n) quote
  | .escaped depth quote => .escaped (depth + n) quote

theorem isWithin_deepen (n : Nat) (standing : Standing) :
    (standing.deepen n).isWithin = standing.isWithin := by
  cases standing <;> rfl

/-- What stays in an expression is read in the same way where there are more braces around it. -/
theorem next_deepen (n : Nat) {standing : Standing} {c : Char} (hw : standing.isWithin = true)
    (hn : (standing.next c).isWithin = true) :
    (standing.deepen n).next c = (standing.next c).deepen n := by
  cases standing with
  | plain => cases hw
  | quoted => cases hw
  | braces depth =>
    rw [next_braces] at hn
    rw [deepen, next_braces, next_braces]
    by_cases hopen : c = '{'
    · simp only [hopen, ↓reduceIte, deepen]
      congr 1
      omega
    · by_cases hclose : c = '}'
      · cases depth with
        | zero => simp [hclose, isWithin] at hn
        | succ depth =>
          have hless : depth + 1 + n - 1 = depth + n := by omega
          simp [hclose, hless, deepen]
      · simp only [hopen, hclose, ↓reduceIte]
        split <;> rfl
  | literal depth quote =>
    simp only [deepen, Standing.next]
    split
    · rfl
    · split <;> rfl
  | escaped depth quote => rfl

theorem Leads.deepen (n : Nat) (hw : first.isWithin = true) (h : first.Leads s last) :
    (first.deepen n).Leads s (last.deepen n) := by
  induction s generalizing first with
  | nil => exact congrArg (Standing.deepen n) h
  | cons c s ih =>
    obtain ⟨hn, hs⟩ := h
    have hnext := next_deepen n hw hn
    have hwithin : (first.next c |>.deepen n).isWithin = true := by rw [isWithin_deepen, hn]
    exact Leads.cons hnext hwithin (ih hn hs)

end Standing

/-- What begins no string and no group in an expression and ends none. -/
def isNeutral (c : Char) : Bool :=
  !beginsLiteral c && c ≠ '{' && c ≠ '}'

theorem leads_of_isNeutral {s : List Char} (h : s.all isNeutral = true) (depth : Nat) :
    (Standing.braces depth).Leads s (.braces depth) := by
  induction s with
  | nil => rfl
  | cons c s ih =>
    rw [List.all_cons, Bool.and_eq_true] at h
    obtain ⟨⟨hquote, hopen⟩, hclose⟩ : (beginsLiteral c = false ∧ c ≠ '{') ∧ c ≠ '}' := by
      simpa [isNeutral] using h.1
    refine .cons ?_ rfl (ih h.2)
    rw [Standing.next_braces, if_neg hopen, if_neg hclose, hquote]
    rfl

/-- What the strings in an expression are made of. -/
inductive LiteralChar where
  | plain (c : Char)
  | escaped (c : Char)
  deriving DecidableEq

def LiteralChar.render : LiteralChar → List Char
  | .plain c => [c]
  | .escaped c => ['\\', c]

def LiteralChar.WellFormed (quote : Char) : LiteralChar → Prop
  | .plain c => c ≠ quote ∧ c ≠ '\\'
  | .escaped _ => True

/-- What an expression is made of: characters, strings, and groups in braces. -/
inductive ExpressionToken where
  | plain (c : Char)
  | literal (quote : Char) (content : List LiteralChar)
  | group (inner : List ExpressionToken)

namespace ExpressionToken

mutual

def render : ExpressionToken → List Char
  | .plain c => [c]
  | .literal quote content => quote :: (content.flatMap LiteralChar.render ++ [quote])
  | .group inner => '{' :: (renderAll inner ++ ['}'])

def renderAll : List ExpressionToken → List Char
  | [] => []
  | t :: ts => t.render ++ renderAll ts

end

mutual

/-- The characters are neutral, and strings end at their own quote. -/
def WellFormed : ExpressionToken → Prop
  | .plain c => isNeutral c = true
  | .literal quote content => beginsLiteral quote = true ∧ ∀ c ∈ content, c.WellFormed quote
  | .group inner => AllWellFormed inner

def AllWellFormed : List ExpressionToken → Prop
  | [] => True
  | t :: ts => t.WellFormed ∧ AllWellFormed ts

end

theorem list_induction {motive : List ExpressionToken → Prop} (nil : motive [])
    (plain : ∀ c ts, motive ts → motive (.plain c :: ts))
    (literal : ∀ quote content ts, motive ts → motive (.literal quote content :: ts))
    (group : ∀ inner ts, motive inner → motive ts → motive (.group inner :: ts))
    (ts : List ExpressionToken) : motive ts :=
  @ExpressionToken.rec_1 (fun t => ∀ ts, motive ts → motive (t :: ts)) motive plain literal
    (fun inner ih ts => group inner ts ih) nil (fun _ ts iht ihts => iht ts ihts) ts

theorem ne_of_beginsLiteral {c : Char} (h : beginsLiteral c = true) :
    c ≠ '{' ∧ c ≠ '}' ∧ c ≠ '\\' := by
  simp only [beginsLiteral, isQuote, Bool.or_eq_true, decide_eq_true_eq] at h
  rcases h with (rfl | rfl) | rfl <;> decide

theorem leads_content {quote : Char} {content : List LiteralChar} (depth : Nat)
    (h : ∀ c ∈ content, c.WellFormed quote) :
    (Standing.literal depth quote).Leads (content.flatMap LiteralChar.render)
      (.literal depth quote) := by
  induction content with
  | nil => rfl
  | cons c content ih =>
    have hrest := ih fun d hd => h d (List.mem_cons_of_mem c hd)
    rw [List.flatMap_cons]
    refine Standing.Leads.append ?_ hrest
    cases c with
    | plain c =>
      obtain ⟨hquote, hbackslash⟩ := h _ List.mem_cons_self
      refine Standing.leads_singleton ?_ rfl
      rw [Standing.next, if_neg hbackslash, if_neg hquote]
    | escaped c => exact ⟨rfl, rfl, rfl⟩

/-- A string goes on over what begins no string and escapes nothing. -/
theorem leads_of_not_beginsLiteral {quote : Char} (hquote : beginsLiteral quote = true)
    {s : List Char} (h : s.all (fun c => !beginsLiteral c && c ≠ '\\') = true) (depth : Nat) :
    (Standing.literal depth quote).Leads s (.literal depth quote) := by
  have hcontent : ∀ c ∈ s.map LiteralChar.plain, c.WellFormed quote := by
    simp only [List.mem_map]
    rintro c ⟨d, hd, rfl⟩
    obtain ⟨hinert, hbackslash⟩ : beginsLiteral d = false ∧ d ≠ '\\' := by
      simpa using List.all_eq_true.mp h d hd
    refine ⟨?_, hbackslash⟩
    rintro rfl
    rw [hinert] at hquote
    cases hquote
  have hrender : (s.map LiteralChar.plain).flatMap LiteralChar.render = s := by
    simp [List.flatMap_map, LiteralChar.render]
  exact hrender ▸ leads_content depth hcontent

theorem leads_literal {quote : Char} {content : List LiteralChar}
    (h : (ExpressionToken.literal quote content).WellFormed) (depth : Nat) :
    (Standing.braces depth).Leads (ExpressionToken.literal quote content).render
      (.braces depth) := by
  obtain ⟨hquote, hcontent⟩ := h
  obtain ⟨hopen, hclose, hbackslash⟩ := ne_of_beginsLiteral hquote
  have hbegins : (Standing.braces depth).next quote = .literal depth quote := by
    rw [Standing.next_braces, if_neg hopen, if_neg hclose, if_pos hquote]
  have hends : (Standing.literal depth quote).next quote = .braces depth := by
    rw [Standing.next, if_neg hbackslash, if_pos rfl]
  rw [render]
  exact .cons hbegins rfl
    ((leads_content depth hcontent).append (Standing.leads_singleton hends rfl))

/-- An expression's tokens are read in it, however deep, and the reader is left where it was. -/
theorem leads_renderAll {ts : List ExpressionToken} (h : AllWellFormed ts) (depth : Nat) :
    (Standing.braces depth).Leads (renderAll ts) (.braces depth) := by
  induction ts using list_induction generalizing depth with
  | nil => rfl
  | plain c ts ih =>
    have hc : [c].all isNeutral = true := by simpa using show isNeutral c = true from h.1
    exact (leads_of_isNeutral hc depth).append (ih h.2 depth)
  | literal quote content ts ih => exact (leads_literal h.1 depth).append (ih h.2 depth)
  | group inner ts ihinner ih =>
    have hopens : (Standing.braces depth).next '{' = .braces (depth + 1) := by
      rw [Standing.next_braces, if_pos rfl]
    have hinner := ihinner h.1 (depth + 1)
    have hgroup : (Standing.braces depth).Leads (ExpressionToken.group inner).render
        (.braces depth) := by
      rw [render]
      exact .cons hopens rfl (hinner.append (Standing.leads_singleton rfl rfl))
    exact hgroup.append (ih h.2 depth)

end ExpressionToken

/-- What is read in an expression and leaves the reader where it was is closed by the next brace. -/
theorem closeBrace_of_leads {s : List Char} (h : (Standing.braces 0).Leads s (.braces 0))
    (t : List Char) : closeBrace (s ++ '}' :: t) = some (s, t) := by
  have hclosed : closeBrace.go (.braces 0) (s.reverse ++ []) ('}' :: t) = some (s, t) := by
    simp [closeBrace.go, Standing.next]
  rw [closeBrace, Standing.closeBrace_go_leads h, hclosed]

/-- The text of an expression before and after a place between two of its tokens. -/
inductive Gap : List ExpressionToken → List Char → List Char → Prop
  | here (ts : List ExpressionToken) : Gap ts [] (ExpressionToken.renderAll ts)
  | later (t : ExpressionToken) {ts : List ExpressionToken} {u v : List Char} (h : Gap ts u v) :
    Gap (t :: ts) (t.render ++ u) v
  | inside (ts : List ExpressionToken) {inner : List ExpressionToken} {u v : List Char}
      (h : Gap inner u v) :
    Gap (.group inner :: ts) ('{' :: u) (v ++ '}' :: ExpressionToken.renderAll ts)

namespace Gap

open ExpressionToken (AllWellFormed renderAll leads_renderAll)

variable {ts : List ExpressionToken} {u v : List Char}

theorem renderAll_eq (h : Gap ts u v) : renderAll ts = u ++ v := by
  induction h with
  | here ts => rfl
  | later t h ih => rw [renderAll, ih, List.append_assoc]
  | inside ts h ih => simp [renderAll, ExpressionToken.render, ih]

/-- Up to the place the reader goes some braces deeper, and after it comes back. -/
theorem exists_leads (h : Gap ts u v) (hw : AllWellFormed ts) (depth : Nat) :
    ∃ inner, (Standing.braces depth).Leads u (.braces inner) ∧
      (Standing.braces inner).Leads v (.braces depth) := by
  induction h generalizing depth with
  | here ts => exact ⟨depth, rfl, leads_renderAll hw depth⟩
  | later t h ih =>
    obtain ⟨inner, hu, hv⟩ := ih hw.2 depth
    have hone : AllWellFormed [t] := ⟨hw.1, trivial⟩
    have ht := leads_renderAll hone depth
    rw [renderAll, renderAll, List.append_nil] at ht
    exact ⟨inner, ht.append hu, hv⟩
  | inside ts h ih =>
    obtain ⟨inner, hu, hv⟩ := ih hw.1 (depth + 1)
    have hopens : (Standing.braces depth).next '{' = .braces (depth + 1) := by
      rw [Standing.next_braces, if_pos rfl]
    have hcloses : (Standing.braces (depth + 1)).next '}' = .braces depth := rfl
    exact ⟨inner, .cons hopens rfl hu,
      hv.append (.cons hcloses rfl (leads_renderAll hw.2 depth))⟩

/-- At the place may stand what leaves the reader where it was. -/
theorem leads_append (h : Gap ts u v) (hw : AllWellFormed ts) {s : List Char}
    (hs : ∀ depth, (Standing.braces depth).Leads s (.braces depth)) :
    (Standing.braces 0).Leads (u ++ (s ++ v)) (.braces 0) := by
  obtain ⟨inner, hu, hv⟩ := h.exists_leads hw 0
  exact hu.append ((hs inner).append hv)

end Gap

end InlineComponents
