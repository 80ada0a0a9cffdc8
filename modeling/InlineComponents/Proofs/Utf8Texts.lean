import InlineComponents.Text.Utf8
import Mathlib.Data.List.Basic

namespace InlineComponents

section Encoding

variable {n : Nat}

theorem toNat_val_ofNat (h : n.isValidChar) : (Char.ofNat n).val.toNat = n := by
  rw [Char.ofNat, dif_pos h]
  rfl

theorem utf8EncodeChar_one (h : n < 0x80) :
    String.utf8EncodeChar (Char.ofNat n) = [UInt8.ofNat n] := by
  have hn : n.isValidChar := .inl (by omega)
  rw [String.utf8EncodeChar, toNat_val_ofNat hn]
  exact if_pos (by omega)

theorem utf8EncodeChar_two (hlow : 0x80 ≤ n) (hhigh : n < 0x800) :
    String.utf8EncodeChar (Char.ofNat n) =
      [UInt8.ofNat (n / 64 + 0xC0), UInt8.ofNat (n % 64 + 0x80)] := by
  have hn : n.isValidChar := .inl (by omega)
  have hlead : n / 64 % 32 = n / 64 := by omega
  rw [String.utf8EncodeChar, toNat_val_ofNat hn]
  refine (if_neg (by omega)).trans ((if_pos (by omega)).trans ?_)
  rw [hlead]

theorem utf8EncodeChar_three (hn : n.isValidChar) (hlow : 0x800 ≤ n) (hhigh : n < 0x10000) :
    String.utf8EncodeChar (Char.ofNat n) =
      [UInt8.ofNat (n / 4096 + 0xE0), UInt8.ofNat (n / 64 % 64 + 0x80),
        UInt8.ofNat (n % 64 + 0x80)] := by
  have hlead : n / 4096 % 16 = n / 4096 := by omega
  rw [String.utf8EncodeChar, toNat_val_ofNat hn]
  refine (if_neg (by omega)).trans ((if_neg (by omega)).trans ((if_pos (by omega)).trans ?_))
  rw [hlead]

theorem utf8EncodeChar_four (hn : n.isValidChar) (hlow : 0x10000 ≤ n) :
    String.utf8EncodeChar (Char.ofNat n) =
      [UInt8.ofNat (n / 262144 + 0xF0), UInt8.ofNat (n / 4096 % 64 + 0x80),
        UInt8.ofNat (n / 64 % 64 + 0x80), UInt8.ofNat (n % 64 + 0x80)] := by
  have hlead : n / 262144 % 8 = n / 262144 := by
    unfold Nat.isValidChar at hn
    omega
  rw [String.utf8EncodeChar, toNat_val_ofNat hn]
  refine (if_neg (by omega)).trans ((if_neg (by omega)).trans ((if_neg (by omega)).trans ?_))
  rw [hlead]

end Encoding

theorem leadByte_two : ∀ n < 32, 2 ≤ n →
    leadByte (UInt8.ofNat (n + 0xC0)) = .begins ⟨1, 0x80, 0xBF, n, 1⟩ := by
  decide

theorem leadByte_three : ∀ n < 16, leadByte (UInt8.ofNat (n + 0xE0)) =
    .begins ⟨2, if n = 0 then 0xA0 else 0x80, if n = 13 then 0x9F else 0xBF, n, 1⟩ := by
  decide

theorem leadByte_four : ∀ n < 5, leadByte (UInt8.ofNat (n + 0xF0)) =
    .begins ⟨3, if n = 0 then 0x90 else 0x80, if n = 4 then 0x8F else 0xBF, n, 1⟩ := by
  decide

theorem eq_ofNat_of_toNat {b : UInt8} {n : Nat} (h : b.toNat = n) : b = UInt8.ofNat n := by
  rw [← h, UInt8.ofNat_toNat]

/-- A byte is a character, or begins one of two, three or four bytes, or is none of these. -/
theorem leadByte_cases (b : UInt8) :
    (b.toNat < 0x80 ∧ leadByte b = .whole (Char.ofNat b.toNat)) ∨ leadByte b = .stray ∨
      (∃ n < 32, 2 ≤ n ∧ b = UInt8.ofNat (n + 0xC0)) ∨ (∃ n < 16, b = UInt8.ofNat (n + 0xE0)) ∨
      ∃ n < 5, b = UInt8.ofNat (n + 0xF0) := by
  by_cases hone : b.toNat < 0x80
  · exact .inl ⟨hone, if_pos hone⟩
  by_cases hstray : b.toNat < 0xC2
  · exact .inr (.inl ((if_neg hone).trans (if_pos hstray)))
  by_cases htwo : b.toNat < 0xE0
  · exact .inr (.inr (.inl ⟨b.toNat - 0xC0, by omega, by omega, eq_ofNat_of_toNat (by omega)⟩))
  by_cases hthree : b.toNat < 0xF0
  · exact .inr (.inr (.inr (.inl ⟨b.toNat - 0xE0, by omega, eq_ofNat_of_toNat (by omega)⟩)))
  by_cases hfour : b.toNat < 0xF5
  · exact .inr (.inr (.inr (.inr ⟨b.toNat - 0xF0, by omega, eq_ofNat_of_toNat (by omega)⟩)))
  refine .inr (.inl ?_)
  unfold leadByte
  dsimp only
  rw [if_neg hone, if_neg hstray, if_neg htwo, if_neg (by omega), if_neg (by omega),
    if_neg hthree, if_neg (by omega), if_neg (by omega), if_neg (by omega)]

namespace PartialChar

/-- The bytes that complete a sequence, and the character that it then is. -/
inductive Completes : PartialChar → List UInt8 → Nat → Prop
  | last {p q : PartialChar} {b : UInt8} : p.push b = some q → q.missing = 0 →
    Completes p [b] q.bits
  | more {p q : PartialChar} {b : UInt8} {bs : List UInt8} {n : Nat} : p.push b = some q →
    q.missing ≠ 0 → Completes q bs n → Completes p (b :: bs) n

variable {p q : PartialChar} {b : UInt8} {m n : Nat}

theorem push_tail (hm : m < 64) (hlow : p.low ≤ m + 0x80) (hhigh : m + 0x80 ≤ p.high) :
    p.push (UInt8.ofNat (m + 0x80)) =
      some ⟨p.missing - 1, 0x80, 0xBF, p.bits * 64 + m, p.read + 1⟩ := by
  have hb : (UInt8.ofNat (m + 0x80)).toNat = m + 0x80 := by
    rw [UInt8.toNat_ofNat']
    omega
  have hbits : (m + 0x80) % 64 = m := by omega
  rw [push, hb, if_pos (by simp [hlow, hhigh]), hbits]

theorem exists_of_push (h : p.push b = some q) (hlow : 0x80 ≤ p.low) (hhigh : p.high ≤ 0xBF) :
    ∃ m < 64, b = UInt8.ofNat (m + 0x80) ∧ p.low ≤ m + 0x80 ∧ m + 0x80 ≤ p.high ∧
      q = ⟨p.missing - 1, 0x80, 0xBF, p.bits * 64 + m, p.read + 1⟩ := by
  unfold push at h
  dsimp only at h
  split at h
  · next hrange =>
    rw [Bool.and_eq_true, decide_eq_true_eq, decide_eq_true_eq] at hrange
    have hbits : b.toNat % 64 = b.toNat - 0x80 := by omega
    refine ⟨b.toNat - 0x80, by omega, eq_ofNat_of_toNat (by omega), by omega, by omega, ?_⟩
    rw [← hbits]
    exact (Option.some.inj h).symm
  · cases h

section Completion

variable {low high bits read : Nat} {bs : List UInt8} (hl : 0x80 ≤ low) (hh : high ≤ 0xBF)

include hl hh

theorem completes_last : Completes ⟨1, low, high, bits, read⟩ bs n ↔
    ∃ m < 64, bs = [UInt8.ofNat (m + 0x80)] ∧ low ≤ m + 0x80 ∧ m + 0x80 ≤ high ∧
      n = bits * 64 + m := by
  constructor
  · intro h
    cases h with
    | last hpush hmissing =>
      obtain ⟨m, hm, rfl, hlow, hhigh, rfl⟩ := exists_of_push hpush hl hh
      exact ⟨m, hm, rfl, hlow, hhigh, rfl⟩
    | more hpush hmissing h =>
      obtain ⟨m, -, -, -, -, rfl⟩ := exists_of_push hpush hl hh
      exact absurd rfl hmissing
  · rintro ⟨m, hm, rfl, hlow, hhigh, rfl⟩
    exact .last (@push_tail ⟨1, low, high, bits, read⟩ m hm hlow hhigh) rfl

theorem completes_more {k : Nat} : Completes ⟨k + 2, low, high, bits, read⟩ bs n ↔
    ∃ m < 64, ∃ rest, bs = UInt8.ofNat (m + 0x80) :: rest ∧ low ≤ m + 0x80 ∧ m + 0x80 ≤ high ∧
      Completes ⟨k + 1, 0x80, 0xBF, bits * 64 + m, read + 1⟩ rest n := by
  constructor
  · intro h
    cases h with
    | last hpush hmissing =>
      obtain ⟨m, -, -, -, -, rfl⟩ := exists_of_push hpush hl hh
      cases hmissing
    | more hpush hmissing h =>
      obtain ⟨m, hm, rfl, hlow, hhigh, rfl⟩ := exists_of_push hpush hl hh
      exact ⟨m, hm, _, rfl, hlow, hhigh, h⟩
  · rintro ⟨m, hm, rest, rfl, hlow, hhigh, h⟩
    exact .more (@push_tail ⟨k + 2, low, high, bits, read⟩ m hm hlow hhigh) (by simp) h

end Completion

end PartialChar

open PartialChar

/-- Three bytes make a character where the first two leave no doubt that all three are needed and
that it is no surrogate. -/
theorem completes_three {k n : Nat} {bs : List UInt8} (hk : k < 16) :
    Completes ⟨2, if k = 0 then 0xA0 else 0x80, if k = 13 then 0x9F else 0xBF, k, 1⟩ bs n ↔
      n.isValidChar ∧ 0x800 ≤ n ∧ n / 4096 = k ∧
        bs = [UInt8.ofNat (n / 64 % 64 + 0x80), UInt8.ofNat (n % 64 + 0x80)] := by
  have hl : 0x80 ≤ if k = 0 then 0xA0 else 0x80 := by split <;> omega
  have hh : (if k = 13 then 0x9F else 0xBF) ≤ 0xBF := by split <;> omega
  rw [completes_more hl hh]
  simp only [completes_last (Nat.le_refl 0x80) (Nat.le_refl 0xBF)]
  constructor
  · rintro ⟨m, hm, _, rfl, hlow, hhigh, m', hm', rfl, -, -, rfl⟩
    have hfirst : ((k * 64 + m) * 64 + m') / 64 % 64 = m := by omega
    have hsecond : ((k * 64 + m) * 64 + m') % 64 = m' := by omega
    rw [hfirst, hsecond]
    refine ⟨?_, ?_, by omega, rfl⟩
    · unfold Nat.isValidChar
      split at hhigh <;> omega
    · split at hlow <;> omega
  · rintro ⟨hn, hlow, rfl, rfl⟩
    unfold Nat.isValidChar at hn
    refine ⟨n / 64 % 64, by omega, _, rfl, ?_, ?_, n % 64, by omega, rfl, by omega, by omega,
      by omega⟩
    · split <;> omega
    · split <;> omega

theorem completes_four {k n : Nat} {bs : List UInt8} (hk : k < 5) :
    Completes ⟨3, if k = 0 then 0x90 else 0x80, if k = 4 then 0x8F else 0xBF, k, 1⟩ bs n ↔
      n.isValidChar ∧ 0x10000 ≤ n ∧ n / 262144 = k ∧
        bs = [UInt8.ofNat (n / 4096 % 64 + 0x80), UInt8.ofNat (n / 64 % 64 + 0x80),
          UInt8.ofNat (n % 64 + 0x80)] := by
  have hl : 0x80 ≤ if k = 0 then 0x90 else 0x80 := by split <;> omega
  have hh : (if k = 4 then 0x8F else 0xBF) ≤ 0xBF := by split <;> omega
  rw [completes_more hl hh]
  simp only [completes_more (Nat.le_refl 0x80) (Nat.le_refl 0xBF),
    completes_last (Nat.le_refl 0x80) (Nat.le_refl 0xBF)]
  constructor
  · rintro ⟨m, hm, _, rfl, hlow, hhigh, m', hm', _, rfl, -, -, m'', hm'', rfl, -, -, rfl⟩
    have hfirst : (((k * 64 + m) * 64 + m') * 64 + m'') / 4096 % 64 = m := by omega
    have hsecond : (((k * 64 + m) * 64 + m') * 64 + m'') / 64 % 64 = m' := by omega
    have hthird : (((k * 64 + m) * 64 + m') * 64 + m'') % 64 = m'' := by omega
    rw [hfirst, hsecond, hthird]
    have hleast : 0x10000 ≤ ((k * 64 + m) * 64 + m') * 64 + m'' := by split at hlow <;> omega
    have hmost : ((k * 64 + m) * 64 + m') * 64 + m'' < 0x110000 := by split at hhigh <;> omega
    exact ⟨.inr ⟨by omega, hmost⟩, hleast, by omega, rfl⟩
  · rintro ⟨hn, hlow, rfl, rfl⟩
    unfold Nat.isValidChar at hn
    refine ⟨n / 4096 % 64, by omega, _, rfl, ?_, ?_, n / 64 % 64, by omega, _, rfl, by omega,
      by omega, n % 64, by omega, rfl, by omega, by omega, by omega⟩
    · split <;> omega
    · split <;> omega

/-- Bytes that complete what a byte begins encode, with it, their character. -/
theorem encodes_of_completes {b : UInt8} {bs : List UInt8} {p : PartialChar} {n : Nat}
    (hp : leadByte b = .begins p) (h : p.Completes bs n) :
    String.utf8EncodeChar (Char.ofNat n) = b :: bs := by
  obtain ⟨-, hlead⟩ | hlead | ⟨k, hk, hk', rfl⟩ | ⟨k, hk, rfl⟩ | ⟨k, hk, rfl⟩ := leadByte_cases b
  · rw [hlead] at hp
    cases hp
  · rw [hlead] at hp
    cases hp
  · rw [leadByte_two k hk hk'] at hp
    cases hp
    obtain ⟨m, hm, rfl, -, -, rfl⟩ :=
      (completes_last (Nat.le_refl 0x80) (Nat.le_refl 0xBF)).mp h
    have hdiv : (k * 64 + m) / 64 = k := by omega
    have hmod : (k * 64 + m) % 64 = m := by omega
    rw [utf8EncodeChar_two (by omega) (by omega), hdiv, hmod]
  · rw [leadByte_three k hk] at hp
    cases hp
    obtain ⟨hn, hlow, rfl, rfl⟩ := (completes_three hk).mp h
    exact utf8EncodeChar_three hn hlow (by omega)
  · rw [leadByte_four k hk] at hp
    cases hp
    obtain ⟨hn, hlow, rfl, rfl⟩ := (completes_four hk).mp h
    exact utf8EncodeChar_four hn hlow

/-- A character is encoded by a byte alone, or by one that begins it and others that complete it. -/
theorem encoding_cases (c : Char) :
    (∃ b, String.utf8EncodeChar c = [b] ∧ leadByte b = .whole c) ∨
      ∃ b bs p, String.utf8EncodeChar c = b :: bs ∧ leadByte b = .begins p ∧
        p.Completes bs c.toNat := by
  obtain ⟨n, hn, rfl⟩ : ∃ n, n.isValidChar ∧ c = Char.ofNat n :=
    ⟨c.toNat, c.valid, (Char.ofNat_toNat c).symm⟩
  have hval : (Char.ofNat n).toNat = n := toNat_val_ofNat hn
  rw [hval]
  by_cases hone : n < 0x80
  · have hb : (UInt8.ofNat n).toNat = n := by
      rw [UInt8.toNat_ofNat']
      omega
    refine .inl ⟨_, utf8EncodeChar_one hone, ?_⟩
    unfold leadByte
    rw [hb]
    exact if_pos hone
  refine .inr ?_
  by_cases htwo : n < 0x800
  · refine ⟨_, _, _, utf8EncodeChar_two (by omega) htwo,
      leadByte_two (n / 64) (by omega) (by omega), ?_⟩
    rw [completes_last (Nat.le_refl 0x80) (Nat.le_refl 0xBF)]
    exact ⟨n % 64, by omega, rfl, by omega, by omega, by omega⟩
  by_cases hthree : n < 0x10000
  · refine ⟨_, _, _, utf8EncodeChar_three hn (by omega) hthree,
      leadByte_three (n / 4096) (by omega), ?_⟩
    exact (completes_three (by omega)).mpr ⟨hn, by omega, rfl, rfl⟩
  · have hk : n / 262144 < 5 := by
      unfold Nat.isValidChar at hn
      omega
    refine ⟨_, _, _, utf8EncodeChar_four hn (by omega), leadByte_four (n / 262144) hk, ?_⟩
    exact (completes_four hk).mpr ⟨hn, by omega, rfl, rfl⟩

/-- A sequence that was begun is at no fault if it is completed, and what follows is at none. -/
theorem go_append_of_completes {p : PartialChar} {bs rest : List UInt8} {n : Nat}
    (h : p.Completes bs n) (hrest : ∀ j, utf8Fault?.go j none rest = none) (i : Nat) :
    utf8Fault?.go i (some p) (bs ++ rest) = none := by
  induction h generalizing i with
  | last hpush hmissing =>
    rw [List.cons_append, List.nil_append, utf8Fault?.go, hpush]
    exact (if_pos hmissing).trans (hrest _)
  | more hpush hmissing h ih =>
    rw [List.cons_append, utf8Fault?.go, hpush]
    exact (if_neg hmissing).trans (ih i)

theorem completes_of_go {p : PartialChar} {bytes : List UInt8} {i : Nat}
    (h : utf8Fault?.go i (some p) bytes = none) : ∃ bs rest n j, bytes = bs ++ rest ∧
      p.Completes bs n ∧ utf8Fault?.go j none rest = none := by
  induction bytes generalizing p with
  | nil => cases h
  | cons b bytes ih =>
    rw [utf8Fault?.go] at h
    cases hpush : p.push b with
    | none =>
      rw [hpush] at h
      cases h
    | some q =>
      rw [hpush] at h
      dsimp only at h
      split at h
      · next hmissing => exact ⟨[b], bytes, q.bits, _, rfl, .last hpush hmissing, h⟩
      · next hmissing =>
        obtain ⟨bs, rest, n, j, rfl, hq, hrest⟩ := ih h
        exact ⟨b :: bs, rest, n, j, rfl, .more hpush hmissing hq, hrest⟩

theorem encodes_of_whole {b : UInt8} {c : Char} (h : leadByte b = .whole c) :
    String.utf8EncodeChar c = [b] := by
  obtain ⟨hone, hlead⟩ | hlead | ⟨k, hk, hk', rfl⟩ | ⟨k, hk, rfl⟩ | ⟨k, hk, rfl⟩ := leadByte_cases b
  · rw [hlead] at h
    cases h
    rw [utf8EncodeChar_one hone, UInt8.ofNat_toNat]
  · rw [hlead] at h
    cases h
  · rw [leadByte_two k hk hk'] at h
    cases h
  · rw [leadByte_three k hk] at h
    cases h
  · rw [leadByte_four k hk] at h
    cases h

/-- Bytes without a fault are encoded characters. -/
theorem exists_of_go {bytes : List UInt8} {i : Nat} (h : utf8Fault?.go i none bytes = none) :
    ∃ cs : List Char, bytes = cs.flatMap String.utf8EncodeChar := by
  induction hlength : bytes.length using Nat.strongRecOn generalizing bytes i with
  | ind length ih =>
    cases bytes with
    | nil => exact ⟨[], rfl⟩
    | cons b bytes =>
      rw [utf8Fault?.go] at h
      cases hlead : leadByte b with
      | whole c =>
        rw [hlead] at h
        obtain ⟨cs, hcs⟩ := ih bytes.length (by simp [← hlength]) h rfl
        refine ⟨c :: cs, ?_⟩
        rw [List.flatMap_cons, encodes_of_whole hlead, ← hcs]
        rfl
      | begins p =>
        rw [hlead] at h
        obtain ⟨bs, rest, n, j, rfl, hp, hrest⟩ := completes_of_go h
        have hshorter : rest.length < length := by
          rw [← hlength, List.length_cons, List.length_append]
          omega
        obtain ⟨cs, hcs⟩ := ih rest.length hshorter hrest rfl
        refine ⟨Char.ofNat n :: cs, ?_⟩
        rw [List.flatMap_cons, encodes_of_completes hlead hp, ← hcs]
        rfl
      | stray =>
        rw [hlead] at h
        cases h

/-- Encoded characters are without a fault. -/
theorem go_flatMap (cs : List Char) (i : Nat) :
    utf8Fault?.go i none (cs.flatMap String.utf8EncodeChar) = none := by
  induction cs generalizing i with
  | nil => rfl
  | cons c cs ih =>
    rw [List.flatMap_cons]
    obtain ⟨b, hencode, hlead⟩ | ⟨b, bs, p, hencode, hlead, hp⟩ := encoding_cases c
    · rw [hencode, List.cons_append, List.nil_append, utf8Fault?.go, hlead]
      exact ih (i + 1)
    · rw [hencode, List.cons_append, utf8Fault?.go, hlead]
      exact go_append_of_completes hp ih i

theorem toList_loop (content : ByteArray) (i : Nat) (read : List UInt8) :
    ByteArray.toList.loop content i read = read.reverse ++ content.data.toList.drop i := by
  fun_induction ByteArray.toList.loop content i read with
  | case1 i read h ih =>
    have hi : i < content.data.toList.length := h
    have hget : content.get! i = content.data.toList[i] := by
      show content.data[i]! = _
      rw [getElem!_pos content.data i h, Array.getElem_toList]
    rw [ih, List.drop_eq_getElem_cons hi, hget, List.reverse_cons, List.append_assoc]
    rfl
  | case2 i read h =>
    have hi : content.data.toList.length ≤ i := Nat.le_of_not_lt h
    rw [List.drop_eq_nil_of_le hi, List.append_nil]

theorem toList_eq (content : ByteArray) : content.toList = content.data.toList :=
  toList_loop content 0 []

/-- Bytes are at no fault just in case they are a text. -/
theorem utf8Fault?_eq_none_iff (content : ByteArray) :
    utf8Fault? content.toList = none ↔ ∃ text : String, content = text.toUTF8 := by
  have hencoded (cs : List Char) : (String.ofList cs).toUTF8.data.toList =
      cs.flatMap String.utf8EncodeChar := by
    rw [String.toUTF8_eq_toByteArray, String.toByteArray_ofList, List.utf8Encode,
      List.toList_data_toByteArray]
  rw [toList_eq]
  constructor
  · intro h
    obtain ⟨cs, hcs⟩ := exists_of_go h
    refine ⟨String.ofList cs, ByteArray.ext (Array.toList_inj.mp ?_)⟩
    rw [hcs, hencoded]
  · rintro ⟨text, rfl⟩
    obtain ⟨cs, rfl⟩ := text.exists_eq_ofList
    rw [hencoded]
    exact go_flatMap cs 0

theorem textOfBytes_toUTF8 (text : String) : textOfBytes text.toUTF8 = text := by
  have hread : String.fromUTF8? text.toUTF8 = some text := dif_pos text.isValidUTF8
  rw [textOfBytes, hread]

end InlineComponents
