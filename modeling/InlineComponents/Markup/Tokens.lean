import InlineComponents.Markup.Token

namespace InlineComponents

@[simp] theorem tokensText_nil : tokensText [] = [] := rfl

@[simp] theorem tokensText_cons (t : Token) (ts : List Token) :
    tokensText (t :: ts) = t.render ++ tokensText ts := rfl

@[simp] theorem tokensText_append (ts us : List Token) :
    tokensText (ts ++ us) = tokensText ts ++ tokensText us := by
  induction ts with
  | nil => rfl
  | cons t ts ih => simp [ih]

theorem closingToken_append (s : List Char) :
    (closingToken s).1.render ++ (closingToken s).2 = '<' :: '/' :: s := by
  unfold closingToken
  split
  · simp [Token.render]
  · next inner rest h =>
    have hn : tagName inner ++ afterName inner = inner := List.takeWhile_append_dropWhile
    rw [closeTag_append h]
    simp only [Token.render, List.cons_append]
    rw [hn]; simp

theorem openingToken_append (s : List Char) :
    (openingToken s).1.render ++ (openingToken s).2 = '<' :: s := by
  unfold openingToken
  split
  · simp [Token.render]
  · next inside rest h =>
    have := closeTag_append h
    simp only [Token.render, List.cons_append, List.append_assoc, List.nil_append]
    rw [← this, tagName, afterName, List.takeWhile_append_dropWhile]

theorem rawToken_append {raw : RawTag} {s : List Char} (h : rawTag? s = some raw) :
    (rawToken raw s).1.render ++ (rawToken raw s).2 = s := by
  have hs := rawTag?_prefix h
  unfold rawToken
  split
  · simp [Token.render]
  · simp [Token.render]
  all_goals
    next inside rest hc =>
      rw [closeAngle_append hc] at hs
      rw [hs]
      simp [Token.render, scriptOpening, styleOpening, closeRaw_append]

theorem angleToken_append (cs : List Char) :
    (angleToken cs).1.render ++ (angleToken cs).2 = '<' :: cs := by
  unfold angleToken
  simp only
  split
  · next hc =>
    obtain ⟨t, ht⟩ := List.isPrefixOf_iff_prefix.mp hc
    rw [← ht]
    split
    · simp [Token.render]
    · next said rest he =>
      have := closeComment_append he
      rw [List.drop_left] at this
      simp [Token.render, this]
  · split
    · next hc =>
      have hh : cs.head? = some '/' := by simpa using (Bool.and_eq_true_iff.mp hc).1
      obtain ⟨t, rfl⟩ := List.head?_eq_some_iff.mp hh
      exact closingToken_append t
    · split
      · next raw hr => exact rawToken_append hr
      · split
        · exact openingToken_append cs
        · simp [Token.render]

/-- A token and the text after it are the text it was read from. -/
theorem nextToken_append (s : List Char) : (nextToken s).1.render ++ (nextToken s).2 = s := by
  unfold nextToken
  split
  · rfl
  · next c cs =>
    split
    · next hc => rw [hc]; exact angleToken_append cs
    · split
      · split
        · simp [Token.render]
        · next said rest h => simp [Token.render, closeBrace_append h]
      · exact List.takeWhile_append_dropWhile

theorem Token.render_ne_nil_of_angle (cs : List Char) : (angleToken cs).1.render ≠ [] := by
  unfold angleToken closingToken openingToken rawToken
  simp only
  repeat' split
  all_goals simp [Token.render, commentStart, styleOpening, scriptOpening]

theorem nextToken_ne_nil (c : Char) (cs : List Char) : (nextToken (c :: cs)).1.render ≠ [] := by
  unfold nextToken
  simp only
  split
  · exact Token.render_ne_nil_of_angle cs
  · next ha =>
    split
    · split <;> simp [Token.render]
    · next hb => simp [Token.render, isPlain, ha, hb]

theorem nextToken_length_lt (c : Char) (cs : List Char) :
    (nextToken (c :: cs)).2.length < (c :: cs).length := by
  have h := congrArg List.length (nextToken_append (c :: cs))
  have hn := List.length_pos_iff.mpr (nextToken_ne_nil c cs)
  rw [List.length_append] at h
  omega

/-- The tokens of a text. -/
def tokens (s : List Char) : List Token :=
  go [] s
where
  go (found : List Token) (s : List Char) : List Token :=
    match s with
    | [] => found.reverse
    | c :: cs =>
      go ((nextToken (c :: cs)).1 :: found) (nextToken (c :: cs)).2
  termination_by s.length
  decreasing_by exact nextToken_length_lt c cs

theorem tokens_go_eq (found : List Token) (s : List Char) :
    tokens.go found s = found.reverse ++ tokens s := by
  cases s with
  | nil => simp [tokens, tokens.go]
  | cons c cs =>
    rw [tokens, tokens.go, tokens.go, tokens_go_eq (_ :: found), tokens_go_eq [_]]
    simp
termination_by s.length
decreasing_by all_goals exact nextToken_length_lt c cs

@[simp] theorem tokens_nil : tokens [] = [] := by
  rw [tokens, tokens.go]; rfl

theorem tokens_cons (c : Char) (cs : List Char) :
    tokens (c :: cs) = (nextToken (c :: cs)).1 :: tokens (nextToken (c :: cs)).2 := by
  rw [tokens, tokens.go, tokens_go_eq]; rfl

/-- The tokens of a text, written one after the other, are the text. -/
theorem tokensText_tokens (s : List Char) : tokensText (tokens s) = s := by
  cases s with
  | nil => simp
  | cons c cs =>
    rw [tokens_cons, tokensText_cons, tokensText_tokens, nextToken_append]
termination_by s.length
decreasing_by exact nextToken_length_lt c cs

end InlineComponents
