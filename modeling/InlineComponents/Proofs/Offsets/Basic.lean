import InlineComponents.Proofs.Slices

namespace InlineComponents.Offsets

/-- What a reader that goes by offsets must not do: read where there is no byte, cut a text across a
character or backwards, count down from zero, or write to a place that a list does not have. -/
inductive Misstep where
  | byte (offset : Nat)
  | cut (start stop : Nat)
  | count
  | entry (index : Nat)
  deriving DecidableEq, Repr

/-- What is read, unless the reader makes a misstep. -/
abbrev Reading : Type → Type :=
  Except Misstep

section Outcomes

variable {α β : Type}

/-- Whatever is read is such. -/
def Yields (x : Reading α) (p : α → Prop) : Prop :=
  ∀ a, x = .ok a → p a

/-- Something is read, without a misstep, and it is such. -/
def Gives (x : Reading α) (p : α → Prop) : Prop :=
  ∃ a, x = .ok a ∧ p a

@[simp] theorem ok_bind (a : α) (f : α → Reading β) : (Except.ok a >>= f) = f a := rfl

theorem yields_ok {a : α} {p : α → Prop} (h : p a) : Yields (.ok a) p := by
  rintro b hb
  obtain rfl := Except.ok.inj hb
  exact h

theorem yields_error {misstep : Misstep} {p : α → Prop} : Yields (.error misstep) p := by
  rintro a ha
  cases ha

theorem Yields.bind {x : Reading α} {f : α → Reading β} {p : α → Prop} {q : β → Prop}
    (hx : Yields x p) (hf : ∀ a, p a → Yields (f a) q) : Yields (x >>= f) q := by
  cases x with
  | error misstep => exact yields_error
  | ok a => exact hf a (hx a rfl)

theorem yields_true (x : Reading α) : Yields x fun _ => True :=
  fun _ _ => trivial

theorem Yields.imp {x : Reading α} {p q : α → Prop} (hx : Yields x p) (h : ∀ a, p a → q a) :
    Yields x q :=
  fun a ha => h a (hx a ha)

theorem gives_ok {a : α} {p : α → Prop} (h : p a) : Gives (.ok a) p :=
  ⟨a, rfl, h⟩

theorem Gives.bind {x : Reading α} {f : α → Reading β} {p : α → Prop} {q : β → Prop}
    (hx : Gives x p) (hf : ∀ a, p a → Gives (f a) q) : Gives (x >>= f) q := by
  obtain ⟨a, rfl, ha⟩ := hx
  exact hf a ha

theorem Gives.imp {x : Reading α} {p q : α → Prop} (hx : Gives x p) (h : ∀ a, p a → q a) :
    Gives x q := by
  obtain ⟨a, ha, hp⟩ := hx
  exact ⟨a, ha, h a hp⟩

end Outcomes

section Checked

/-- The byte at an offset, as the character of its number. -/
def byteAt (bytes : List UInt8) (offset : Nat) : Reading Char :=
  match bytes[offset]? with
  | some byte => .ok (Char.ofUInt8 byte)
  | none => .error (.byte offset)

theorem gives_byteAt {bytes : List UInt8} {offset : Nat} (h : offset < bytes.length) :
    Gives (byteAt bytes offset) fun _ => True := by
  rw [byteAt, List.getElem?_eq_getElem h]
  exact gives_ok trivial

theorem lt_of_byteAt {bytes : List UInt8} {offset : Nat} {c : Char}
    (h : byteAt bytes offset = .ok c) : offset < bytes.length := by
  rw [byteAt] at h
  split at h
  · next hget => exact (List.getElem?_eq_some_iff.mp hget).1
  · cases h

/-- The bytes from an offset on. -/
def bytesFrom (bytes : List UInt8) (offset : Nat) : Reading (List UInt8) :=
  if offset ≤ bytes.length then .ok (bytes.drop offset) else .error (.byte offset)

def countDown : Nat → Reading Nat
  | 0 => .error .count
  | count + 1 => .ok count

/-- A list with another entry at a place. -/
def putAt {α : Type} (l : List α) (index : Nat) (a : α) : Reading (List α) :=
  if index < l.length then .ok (l.set index a) else .error (.entry index)

instance (source : String) (offset : Nat) : Decidable (IsBoundary source offset) :=
  inferInstanceAs (Decidable (String.Pos.Raw.IsValid source ⟨offset⟩))

/-- What a source holds from one byte offset to another, if both lie between characters. -/
def cut (source : String) (start stop : Nat) : Reading String :=
  if start ≤ stop ∧ IsBoundary source start ∧ IsBoundary source stop then
    .ok (slice source start stop)
  else .error (.cut start stop)

end Checked

/-- What a round of a loop comes to: another round, or the end. -/
inductive Round (σ ρ : Type) where
  | again (next : σ)
  | done (result : ρ)

/-- A loop over a text: each round leaves less of the text for the next one. -/
structure Loop (σ ρ : Type) where
  round : σ → Reading (Round σ ρ)
  left : σ → Nat
  advances (s : σ) : Yields (round s) fun
    | .again next => left next < left s
    | .done _ => True

namespace Loop

variable {σ ρ : Type}

def run (l : Loop σ ρ) (s : σ) : Reading ρ :=
  match _h : l.round s with
  | .error misstep => .error misstep
  | .ok (.done result) => .ok result
  | .ok (.again next) => l.run next
termination_by l.left s
decreasing_by exact l.advances s _ _h

variable {l : Loop σ ρ} {s next : σ} {result : ρ} {post : ρ → Prop}

theorem run_of_again (h : l.round s = .ok (.again next)) : l.run s = l.run next := by
  rw [run]
  split <;> simp_all

theorem run_of_done (h : l.round s = .ok (.done result)) : l.run s = .ok result := by
  rw [run]
  split <;> simp_all

theorem run_congr {t : σ} (h : l.round s = l.round t) : l.run s = l.run t := by
  rw [run, run]
  split <;> split <;> simp_all

/-- What each round keeps, and the last one turns into a result, holds of what the loop reads. -/
theorem yields_run (inv : σ → Prop) (step : ∀ s, inv s → Yields (l.round s) fun
    | .again next => inv next
    | .done result => post result) (hs : inv s) : Yields (l.run s) post := by
  induction s using Loop.run.induct l with
  | case1 s misstep h =>
    intro result hr
    rw [run] at hr
    split at hr <;> simp_all
  | case2 s result h => exact run_of_done h ▸ yields_ok (step s hs _ h)
  | case3 s next h ih => exact run_of_again h ▸ ih (step s hs _ h)

/-- A loop of which no round makes a misstep makes none. -/
theorem gives_run (inv : σ → Prop) (step : ∀ s, inv s → Gives (l.round s) fun
    | .again next => inv next
    | .done result => post result) (hs : inv s) : Gives (l.run s) post := by
  induction s using Loop.run.induct l with
  | case1 s misstep h =>
    obtain ⟨round, hround, -⟩ := step s hs
    rw [h] at hround
    cases hround
  | case2 s result h =>
    obtain ⟨round, hround, hpost⟩ := step s hs
    rw [h] at hround
    obtain rfl := Except.ok.inj hround
    exact run_of_done h ▸ gives_ok hpost
  | case3 s next h ih =>
    obtain ⟨round, hround, hinv⟩ := step s hs
    rw [h] at hround
    obtain rfl := Except.ok.inj hround
    exact run_of_again h ▸ ih hinv

end Loop

end InlineComponents.Offsets
