import InlineComponents.Text.Cut
import Mathlib.Data.String.Basic

namespace InlineComponents

/-- What a source holds from one byte offset to another. -/
def slice (source : String) (start stop : Nat) : String :=
  String.Pos.Raw.extract source ⟨start⟩ ⟨stop⟩

/-- No character lies across the offset, which is within the source. -/
def IsBoundary (source : String) (offset : Nat) : Prop :=
  String.Pos.Raw.IsValid source ⟨offset⟩

theorem byteLength_eq_utf8Len (s : List Char) : byteLength s = String.utf8Len s := by
  induction s with
  | nil => rfl
  | cons c s ih => simp [ih, Nat.add_comm]

theorem utf8ByteSize_eq_byteLength (source : String) :
    source.utf8ByteSize = byteLength source.toList := by
  rw [byteLength_eq_utf8Len, String.utf8Len_toList]

theorem slice_eq {source : String} {before text after : List Char}
    (h : source.toList = before ++ text ++ after) :
    slice source (byteLength before) (byteLength before + byteLength text) =
      String.ofList text := by
  have hs : source = String.ofList (before ++ text ++ after) := by
    rw [← h, String.ofList_toList]
  rw [slice, hs, byteLength_eq_utf8Len, byteLength_eq_utf8Len]
  exact String.extract_of_valid before text after

/-- The rest of a source, from the end of what stands before it. -/
theorem slice_rest {source : String} {before text : List Char}
    (h : source.toList = before ++ text) :
    slice source (byteLength before) source.utf8ByteSize = String.ofList text := by
  rw [utf8ByteSize_eq_byteLength, h, byteLength_append]
  exact slice_eq (by rw [h, List.append_nil])

theorem isBoundary_byteLength {source : String} {before after : List Char}
    (h : source.toList = before ++ after) : IsBoundary source (byteLength before) := by
  refine String.Pos.Raw.isValid_iff_exists_append.mpr
    ⟨String.ofList before, String.ofList after, ?_, ?_⟩
  · rw [← String.ofList_append, ← h, String.ofList_toList]
  · rw [byteLength_eq_utf8Len, String.rawEndPos_ofList]

end InlineComponents
