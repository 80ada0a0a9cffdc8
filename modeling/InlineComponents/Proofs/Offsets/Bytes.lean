import InlineComponents.Proofs.Offsets.Basic
import InlineComponents.Proofs.Reading
import InlineComponents.Proofs.Utf8Texts

namespace InlineComponents.Offsets

/-- The bytes of a text. -/
def utf8 (s : List Char) : List UInt8 :=
  s.flatMap String.utf8EncodeChar

@[simp] theorem utf8_nil : utf8 [] = [] := rfl

@[simp] theorem utf8_cons (c : Char) (s : List Char) :
    utf8 (c :: s) = String.utf8EncodeChar c ++ utf8 s := rfl

@[simp] theorem utf8_append (s t : List Char) : utf8 (s ++ t) = utf8 s ++ utf8 t :=
  List.flatMap_append

@[simp] theorem length_utf8 (s : List Char) : (utf8 s).length = byteLength s := by
  induction s with
  | nil => rfl
  | cons c s ih => simp [ih]

theorem length_utf8_toList (source : String) :
    (utf8 source.toList).length = source.utf8ByteSize := by
  rw [length_utf8, utf8ByteSize_eq_byteLength]

/-- They are the bytes that the text is held as. -/
theorem utf8_toList (source : String) : utf8 source.toList = source.toUTF8.data.toList := by
  obtain ⟨s, rfl⟩ := source.exists_eq_ofList
  rw [String.toList_ofList, String.toUTF8_eq_toByteArray, String.toByteArray_ofList,
    List.utf8Encode, List.toList_data_toByteArray]
  rfl

/-- A character that is one byte, its own number. -/
def IsAscii (c : Char) : Prop :=
  c.toNat < 0x80

instance (c : Char) : Decidable (IsAscii c) :=
  inferInstanceAs (Decidable (c.toNat < 0x80))

theorem toNat_ofUInt8 (b : UInt8) : (Char.ofUInt8 b).toNat = b.toNat :=
  UInt8.toNat_toUInt32 b

theorem utf8EncodeChar_of_isAscii {c : Char} (h : IsAscii c) :
    ∃ b, String.utf8EncodeChar c = [b] ∧ Char.ofUInt8 b = c := by
  have hencode := utf8EncodeChar_one h
  rw [Char.ofNat_toNat] at hencode
  refine ⟨_, hencode, Char.toNat_inj.mp ?_⟩
  unfold IsAscii at h
  rw [toNat_ofUInt8, UInt8.toNat_ofNat']
  omega

theorem utf8Size_of_isAscii {c : Char} (h : IsAscii c) : c.utf8Size = 1 := by
  obtain ⟨b, hencode, -⟩ := utf8EncodeChar_of_isAscii h
  rw [← String.length_utf8EncodeChar, hencode]
  rfl

theorem utf8EncodeChar_ne_nil (c : Char) : String.utf8EncodeChar c ≠ [] := by
  rw [← List.length_pos_iff, String.length_utf8EncodeChar]
  exact c.utf8Size_pos

theorem isAscii_of_isQuote {c : Char} (hc : isQuote c = true) : IsAscii c := by
  simp only [isQuote, Bool.or_eq_true, decide_eq_true_eq] at hc
  rcases hc with rfl | rfl <;> decide

/-- No byte of a character of several bytes is a character of its own. -/
theorem not_isAscii_of_mem_utf8EncodeChar {c : Char} (h : ¬ IsAscii c) :
    ∀ b ∈ String.utf8EncodeChar c, ¬ IsAscii (Char.ofUInt8 b) := by
  unfold IsAscii at *
  simp only [toNat_ofUInt8]
  have hnumber : c.toNat = c.val.toNat := rfl
  have hvalid := c.valid
  intro b hb
  unfold String.utf8EncodeChar at hb
  dsimp only at hb
  split at hb
  · omega
  split at hb
  · simp only [List.mem_cons, List.not_mem_nil, or_false] at hb
    rcases hb with rfl | rfl <;> rw [UInt8.toNat_ofNat'] <;> omega
  split at hb
  · simp only [List.mem_cons, List.not_mem_nil, or_false] at hb
    rcases hb with rfl | rfl | rfl <;> rw [UInt8.toNat_ofNat'] <;> omega
  · simp only [List.mem_cons, List.not_mem_nil, or_false] at hb
    rcases hb with rfl | rfl | rfl | rfl <;> rw [UInt8.toNat_ofNat'] <;> omega

/-- Characters of one byte only. -/
def IsAsciiClass (p : Char → Bool) : Prop :=
  ∀ c, p c = true → IsAscii c

theorem IsAsciiClass.eq_false {p : Char → Bool} (hp : IsAsciiClass p) {c : Char}
    (hc : ¬ IsAscii c) : p c = false := by
  rw [Bool.eq_false_iff]
  exact fun h => hc (hp c h)

/-- Where the first byte is that is such a character. -/
def findByte (p : Char → Bool) (bytes : List UInt8) : Option Nat :=
  bytes.findIdx? fun b => p (Char.ofUInt8 b)

/-- Where the pattern first begins. -/
def findBytes (pattern : List UInt8) : List UInt8 → Option Nat
  | [] => if pattern.isPrefixOf [] then some 0 else none
  | b :: bytes =>
    if pattern.isPrefixOf (b :: bytes) then some 0 else (findBytes pattern bytes).map (· + 1)

theorem lt_of_findByte {p : Char → Bool} {bytes : List UInt8} {i : Nat}
    (h : findByte p bytes = some i) : i < bytes.length :=
  (List.findIdx?_eq_some_iff_getElem.mp h).1

theorem byteAt_of_findByte {c : Char} {bytes : List UInt8} {offset i : Nat}
    (h : findByte (· = c) (bytes.drop offset) = some i) : byteAt bytes (offset + i) = .ok c := by
  obtain ⟨hin, hc, -⟩ := List.findIdx?_eq_some_iff_getElem.mp h
  rw [List.getElem_drop] at hc
  rw [List.length_drop] at hin
  have hget := List.getElem?_eq_getElem (l := bytes) (i := offset + i) (by omega)
  rw [byteAt, hget]
  exact congrArg _ (of_decide_eq_true hc)

theorem le_of_findBytes {pattern bytes : List UInt8} {i : Nat}
    (h : findBytes pattern bytes = some i) : i + pattern.length ≤ bytes.length := by
  induction bytes generalizing i with
  | nil =>
    rw [findBytes] at h
    split at h
    · next hp =>
      obtain rfl := Option.some.inj h
      rw [Nat.zero_add]
      exact (List.isPrefixOf_iff_prefix.mp hp).length_le
    · cases h
  | cons b bytes ih =>
    rw [findBytes] at h
    split at h
    · next hp =>
      obtain rfl := Option.some.inj h
      rw [Nat.zero_add]
      exact (List.isPrefixOf_iff_prefix.mp hp).length_le
    · obtain ⟨j, hj, rfl⟩ := Option.map_eq_some_iff.mp h
      have := ih hj
      rw [List.length_cons]
      omega

section Search

variable {p : Char → Bool} {w y : List UInt8}

theorem findByte_append (hw : ∀ b ∈ w, p (Char.ofUInt8 b) = false) :
    findByte p (w ++ y) = (findByte p y).map (w.length + ·) := by
  have hnone : w.findIdx? (fun b => p (Char.ofUInt8 b)) = none := by
    rw [List.findIdx?_eq_none_iff]
    exact hw
  rw [findByte, List.findIdx?_append, hnone, Option.none_or]
  congr 1
  funext i
  rw [Nat.add_comm]

theorem findByte_utf8_append {s t : List Char} (hp : IsAsciiClass p)
    (hs : ∀ c ∈ s, p c = false) :
    findByte p (utf8 (s ++ t)) = (findByte p (utf8 t)).map (byteLength s + ·) := by
  rw [utf8_append, findByte_append, length_utf8]
  intro b hb
  obtain ⟨c, hc, hb⟩ := List.mem_flatMap.mp hb
  by_cases hascii : IsAscii c
  · obtain ⟨byte, hencode, hbyte⟩ := utf8EncodeChar_of_isAscii hascii
    rw [hencode, List.mem_singleton] at hb
    rw [hb, hbyte, hs c hc]
  · exact hp.eq_false (not_isAscii_of_mem_utf8EncodeChar hascii b hb)

theorem findByte_utf8_eq_none {s : List Char} (hp : IsAsciiClass p)
    (hs : ∀ c ∈ s, p c = false) : findByte p (utf8 s) = none := by
  have h := @findByte_utf8_append p s [] hp hs
  rwa [List.append_nil] at h

theorem findByte_utf8_of_pos {s t : List Char} {c : Char} (hp : IsAsciiClass p)
    (hs : ∀ c ∈ s, p c = false) (hc : p c = true) :
    findByte p (utf8 (s ++ c :: t)) = some (byteLength s) := by
  obtain ⟨b, hencode, hb⟩ := utf8EncodeChar_of_isAscii (hp c hc)
  have hhere : findByte p (utf8 (c :: t)) = some 0 := by
    rw [utf8_cons, hencode, findByte, List.singleton_append, List.findIdx?_cons, hb, if_pos hc]
  rw [findByte_utf8_append hp hs, hhere]
  rfl

end Search

theorem findBytes_append_left {b : UInt8} {pattern w y : List UInt8} (hw : b ∉ w) :
    findBytes (b :: pattern) (w ++ y) =
      (findBytes (b :: pattern) y).map (w.length + ·) := by
  induction w with
  | nil => simp
  | cons a w ih =>
    have hne : b ≠ a := fun h => hw (h ▸ List.mem_cons_self)
    have hrest := ih fun h => hw (List.mem_cons_of_mem a h)
    have hno : (b :: pattern).isPrefixOf (a :: (w ++ y)) = false := by
      simp [List.isPrefixOf, beq_false_of_ne hne]
    rw [List.cons_append, findBytes, hno, if_neg Bool.false_ne_true, hrest, Option.map_map]
    congr 1
    funext i
    simp only [Function.comp_apply, List.length_cons]
    omega

section Pattern

variable {a : Char} {pattern : List Char}

/-- A character's first byte is that of another only if it is that character. -/
theorem exists_utf8EncodeChar_cons (ha : IsAscii a) {c : Char} (hc : c ≠ a) :
    ∃ b, String.utf8EncodeChar a = [b] ∧ b ∉ String.utf8EncodeChar c := by
  obtain ⟨b, hencode, hb⟩ := utf8EncodeChar_of_isAscii ha
  refine ⟨b, hencode, fun hmem => ?_⟩
  by_cases hascii : IsAscii c
  · obtain ⟨d, hencode', hd⟩ := utf8EncodeChar_of_isAscii hascii
    rw [hencode', List.mem_singleton] at hmem
    exact hc (by rw [← hb, ← hd, hmem])
  · exact not_isAscii_of_mem_utf8EncodeChar hascii b hmem (hb ▸ ha)

theorem isPrefixOf_utf8 (hp : ∀ c ∈ pattern, IsAscii c) (s : List Char) :
    (utf8 pattern).isPrefixOf (utf8 s) = pattern.isPrefixOf s := by
  induction pattern generalizing s with
  | nil => simp
  | cons a pattern ih =>
    have ha := hp a List.mem_cons_self
    have hrest := ih fun c hc => hp c (List.mem_cons_of_mem a hc)
    cases s with
    | nil =>
      obtain ⟨b, hencode, -⟩ := utf8EncodeChar_of_isAscii ha
      simp [hencode]
    | cons c s =>
      by_cases hc : c = a
      · obtain ⟨b, hencode, -⟩ := utf8EncodeChar_of_isAscii ha
        simp [hc, hencode, List.isPrefixOf, hrest]
      · obtain ⟨b, hencode, hb⟩ := exists_utf8EncodeChar_cons ha hc
        obtain ⟨d, bytes, hencode'⟩ := List.exists_cons_of_ne_nil (utf8EncodeChar_ne_nil c)
        have hbd : (b == d) = false :=
          beq_false_of_ne fun h => hb (by rw [hencode', h]; exact List.mem_cons_self)
        have hac : (a == c) = false := beq_false_of_ne (Ne.symm hc)
        simp [hencode, hencode', List.isPrefixOf, hbd, hac]

/-- A pattern is found in the bytes where it is found in the text. -/
theorem findBytes_utf8 (hp : ∀ c ∈ a :: pattern, IsAscii c) (s : List Char) :
    findBytes (utf8 (a :: pattern)) (utf8 s) =
      (breakAt ((a :: pattern).isPrefixOf ·) s).map fun broken => byteLength broken.1 := by
  have ha := hp a List.mem_cons_self
  induction s with
  | nil =>
    obtain ⟨b, hencode, -⟩ := utf8EncodeChar_of_isAscii ha
    simp [hencode, findBytes, breakAt, breakAt.go]
  | cons c s ih =>
    have hprefix := isPrefixOf_utf8 hp (c :: s)
    rw [breakAt_cons]
    by_cases hc : c = a
    · subst hc
      obtain ⟨b, hencode, -⟩ := utf8EncodeChar_of_isAscii ha
      have hbytes : utf8 (c :: s) = b :: utf8 s := by rw [utf8_cons, hencode]; rfl
      rw [hbytes] at hprefix
      rw [hbytes, findBytes, hprefix]
      split
      · rfl
      · rw [ih, Option.map_map, Option.map_map]
        congr 1
        funext broken
        simp [utf8Size_of_isAscii ha, Nat.add_comm]
    · obtain ⟨b, hencode, hb⟩ := exists_utf8EncodeChar_cons ha hc
      have hno : (a :: pattern).isPrefixOf (c :: s) = false := by
        simp [List.isPrefixOf, Ne.symm hc]
      have hpattern : utf8 (a :: pattern) = b :: utf8 pattern := by rw [utf8_cons, hencode]; rfl
      rw [hno, if_neg Bool.false_ne_true, utf8_cons c s, hpattern, findBytes_append_left hb,
        ← hpattern, ih, Option.map_map, Option.map_map, String.length_utf8EncodeChar]
      congr 1
      funext broken
      simp

end Pattern

/-- What a source holds from an offset on. -/
def RestAt (source : List Char) (offset : Nat) (rest : List Char) : Prop :=
  ∃ front, source = front ++ rest ∧ offset = byteLength front

namespace RestAt

variable {source rest s t : List Char} {offset : Nat} {c : Char}

theorem start (source : List Char) : RestAt source 0 source :=
  ⟨[], rfl, rfl⟩

theorem drop_utf8 (h : RestAt source offset rest) : (utf8 source).drop offset = utf8 rest := by
  obtain ⟨front, rfl, rfl⟩ := h
  rw [utf8_append, ← length_utf8, List.drop_left]

theorem length_eq (h : RestAt source offset rest) :
    offset + byteLength rest = (utf8 source).length := by
  obtain ⟨front, rfl, rfl⟩ := h
  simp

theorem append (h : RestAt source offset (s ++ t)) : RestAt source (offset + byteLength s) t := by
  obtain ⟨front, rfl, rfl⟩ := h
  exact ⟨front ++ s, by simp, by simp⟩

theorem next (h : RestAt source offset (c :: t)) : RestAt source (offset + c.utf8Size) t := by
  have hnext := @append source [c] t offset h
  rwa [byteLength_cons, byteLength_nil] at hnext

theorem tail (h : RestAt source offset (c :: t)) (hc : IsAscii c) :
    RestAt source (offset + 1) t := by
  rw [← utf8Size_of_isAscii hc]
  exact h.next

theorem lt_length (h : RestAt source offset (c :: t)) : offset < (utf8 source).length := by
  have hlength := h.length_eq
  have hsize := c.utf8Size_pos
  rw [byteLength_cons] at hlength
  omega

theorem byteAt_eq (h : RestAt source offset (c :: t)) (hc : IsAscii c) :
    byteAt (utf8 source) offset = .ok c := by
  obtain ⟨b, hencode, hb⟩ := utf8EncodeChar_of_isAscii hc
  have hget : (utf8 source)[offset]? = some b := by
    rw [← List.head?_drop, h.drop_utf8, utf8_cons, hencode]
    rfl
  rw [byteAt, hget, ← hb]

theorem bytesFrom_eq (h : RestAt source offset rest) :
    bytesFrom (utf8 source) offset = .ok (utf8 rest) := by
  have := h.length_eq
  rw [bytesFrom, if_pos (by omega), h.drop_utf8]

theorem cut_eq {source : String} (h : RestAt source.toList offset (s ++ t)) :
    cut source offset (offset + byteLength s) = .ok (String.ofList s) := by
  obtain ⟨front, hsource, rfl⟩ := h
  have hstart := isBoundary_byteLength hsource
  rw [← List.append_assoc] at hsource
  have hstop := isBoundary_byteLength hsource
  rw [byteLength_append] at hstop
  rw [cut, if_pos ⟨Nat.le_add_right .., hstart, hstop⟩, slice_eq hsource]

end RestAt

/-- From any offset on there may be bytes of a character that begins before it, and then goes on the
rest of the source. -/
theorem exists_restAt (source : List Char) {offset : Nat} (h : offset ≤ (utf8 source).length) :
    ∃ w rest, (utf8 source).drop offset = w ++ utf8 rest ∧
      (∀ b ∈ w, ¬ IsAscii (Char.ofUInt8 b)) ∧ RestAt source (offset + w.length) rest := by
  induction source generalizing offset with
  | nil =>
    obtain rfl : offset = 0 := by simpa using h
    exact ⟨[], [], rfl, by simp, RestAt.start []⟩
  | cons c t ih =>
    have hsize : (String.utf8EncodeChar c).length = c.utf8Size := String.length_utf8EncodeChar c
    by_cases hwithin : offset < c.utf8Size
    · by_cases hzero : offset = 0
      · subst hzero
        exact ⟨[], c :: t, rfl, by simp, RestAt.start (c :: t)⟩
      · have hc : ¬ IsAscii c := fun hascii => by
          rw [utf8Size_of_isAscii hascii] at hwithin
          omega
        refine ⟨(String.utf8EncodeChar c).drop offset, t, ?_, ?_, [c], rfl, ?_⟩
        · rw [utf8_cons, List.drop_append_of_le_length (by omega)]
        · exact fun b hb => not_isAscii_of_mem_utf8EncodeChar hc b (List.mem_of_mem_drop hb)
        · rw [List.length_drop, hsize, byteLength_cons, byteLength_nil]
          omega
    · have hin : offset - c.utf8Size ≤ (utf8 t).length := by
        rw [utf8_cons, List.length_append, hsize] at h
        omega
      obtain ⟨w, rest, hdrop, hw, front, rfl, hfront⟩ := ih hin
      refine ⟨w, rest, ?_, hw, c :: front, rfl, ?_⟩
      · rw [utf8_cons, List.drop_append, hsize, hdrop, List.drop_of_length_le (by omega)]
        rfl
      · rw [byteLength_cons, ← hfront]
        omega

end InlineComponents.Offsets
