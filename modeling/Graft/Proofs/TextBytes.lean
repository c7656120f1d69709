import Graft.Text.Position

/-!
# The bytes of a text

A character below 128 is one byte, its number; every byte of another character is 128 or more.  A
search for characters below 128 can therefore go over the bytes, and what it finds is never inside
a character.
-/

namespace Graft.Text

/-! ## One character -/

/-- The character is one byte. -/
def IsByte (c : Char) : Prop := c.utf8Size = 1

instance (c : Char) : Decidable (IsByte c) := inferInstanceAs (Decidable (_ = 1))

theorem IsByte.utf8Size {c : Char} (hc : IsByte c) : c.utf8Size = 1 := hc

theorem ne_of_not_isByte {c d : Char} (hc : ¬ IsByte c) (hd : IsByte d) : c ≠ d := by
  rintro rfl
  exact hc hd

theorem encodeChar_ne_nil (c : Char) : String.utf8EncodeChar c ≠ [] := by
  refine List.ne_nil_of_length_pos ?_
  rw [String.length_utf8EncodeChar]
  exact c.utf8Size_pos

/-- The byte is no character of its own. -/
def IsHigh (b : UInt8) : Prop := 128 ≤ b.toNat

instance (b : UInt8) : Decidable (IsHigh b) := inferInstanceAs (Decidable (128 ≤ _))

theorem isHigh_or (a b : UInt8) (hb : IsHigh b) : IsHigh (a ||| b) := by
  unfold IsHigh at hb ⊢
  rw [UInt8.toNat_or]
  exact Nat.le_trans hb Nat.right_le_or

theorem encodeChar_of_isByte {c : Char} (hc : IsByte c) : String.utf8EncodeChar c = [c.toUInt8] :=
  String.utf8EncodeChar_eq_singleton hc

theorem isHigh_of_mem_encodeChar {c : Char} (hc : ¬ IsByte c) :
    ∀ b ∈ String.utf8EncodeChar c, IsHigh b := by
  intro b hb
  rcases Char.utf8Size_eq c with hsize | hsize | hsize | hsize
  · exact absurd hsize hc
  · rw [String.utf8EncodeChar_eq_cons_cons hsize] at hb
    simp only [List.mem_cons, List.not_mem_nil, or_false] at hb
    rcases hb with rfl | rfl <;> exact isHigh_or _ _ (by decide)
  · rw [String.utf8EncodeChar_eq_cons_cons_cons hsize] at hb
    simp only [List.mem_cons, List.not_mem_nil, or_false] at hb
    rcases hb with rfl | rfl | rfl <;> exact isHigh_or _ _ (by decide)
  · rw [String.utf8EncodeChar_eq_cons_cons_cons_cons hsize] at hb
    simp only [List.mem_cons, List.not_mem_nil, or_false] at hb
    rcases hb with rfl | rfl | rfl | rfl <;> exact isHigh_or _ _ (by decide)

theorem toNat_toUInt8 {c : Char} (hc : IsByte c) : c.toUInt8.toNat = c.toNat ∧ c.toNat ≤ 127 := by
  have hle : c.toNat ≤ 127 := UInt32.le_iff_toNat_le.mp (Char.utf8Size_eq_one_iff.mp hc)
  refine ⟨?_, hle⟩
  have hmod : c.toUInt8.toNat = c.toNat % 256 := UInt32.toNat_toUInt8 c.val
  omega

theorem toUInt8_inj {c d : Char} (hc : IsByte c) (hd : IsByte d) :
    c.toUInt8 = d.toUInt8 ↔ c = d := by
  refine ⟨fun heq => ?_, congrArg _⟩
  have hnat : c.toNat = d.toNat := by
    rw [← (toNat_toUInt8 hc).1, ← (toNat_toUInt8 hd).1, heq]
  exact Char.toNat_inj.mp hnat

theorem ne_of_isHigh {b : UInt8} {d : Char} (hb : IsHigh b) (hd : IsByte d) : b ≠ d.toUInt8 := by
  rintro rfl
  obtain ⟨hnat, hle⟩ := toNat_toUInt8 hd
  unfold IsHigh at hb
  omega

/-! ## Texts -/

@[simp] theorem bytes_nil : bytes [] = [] := rfl

@[simp] theorem bytes_cons (c : Char) (cs : List Char) :
    bytes (c :: cs) = String.utf8EncodeChar c ++ bytes cs := rfl

theorem bytes_append (front back : List Char) : bytes (front ++ back) = bytes front ++ bytes back :=
  List.flatMap_append

theorem length_bytes_cons (c : Char) (cs : List Char) :
    (bytes (c :: cs)).length = c.utf8Size + (bytes cs).length := by
  rw [bytes_cons, List.length_append, String.length_utf8EncodeChar]

/-- The first byte is that of a character below 128 only if the text starts with it. -/
theorem head?_bytes_iff {cs : List Char} {d : Char} (hd : IsByte d) :
    (bytes cs).head? = some d.toUInt8 ↔ cs.head? = some d := by
  cases cs with
  | nil => simp
  | cons c cs =>
      by_cases hc : IsByte c
      · rw [bytes_cons, encodeChar_of_isByte hc]
        simp [toUInt8_inj hc hd]
      · obtain ⟨first, rest, hbytes⟩ := List.exists_cons_of_ne_nil (encodeChar_ne_nil c)
        have hfirst := ne_of_isHigh (isHigh_of_mem_encodeChar hc first (by simp [hbytes])) hd
        simp [hbytes, hfirst, ne_of_not_isByte hc hd]

theorem cut?_bytes (front back : List Char) :
    cut? (bytes front).length (front ++ back) = some (front, back) := by
  induction front with
  | nil =>
      rw [bytes_nil, List.length_nil, List.nil_append]
      cases back <;> rfl
  | cons c front ih =>
      have hpos := c.utf8Size_pos
      obtain ⟨n, hn⟩ : ∃ n, c.utf8Size + (bytes front).length = n + 1 :=
        ⟨c.utf8Size + (bytes front).length - 1, by omega⟩
      rw [length_bytes_cons, hn, List.cons_append, cut?, if_neg (by omega), ← hn,
        Nat.add_sub_cancel_left, ih]
      rfl

theorem utf8ByteSize_eq (s : String) : s.utf8ByteSize = (bytes s.toList).length := by
  have hofList : s.utf8ByteSize = (String.ofList s.toList).toByteArray.size := by
    rw [String.ofList_toList]
    rfl
  rw [hofList, String.toByteArray_ofList]
  exact List.size_toByteArray

/-- The end of a front part is a place between two characters. -/
theorem isValid_length_bytes (front back : String) :
    String.Pos.Raw.IsValid (front ++ back) ⟨(bytes front.toList).length⟩ :=
  String.Pos.Raw.isValid_iff_exists_append.mpr
    ⟨front, back, rfl, by rw [String.rawEndPos, utf8ByteSize_eq]⟩

end Graft.Text
