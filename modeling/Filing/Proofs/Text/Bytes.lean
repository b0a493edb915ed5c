import Mathlib.Data.String.Basic

/-!
# The order of texts

Texts are compared character by character, and characters by their numbers.  UTF-8 is made in such
a way that a comparison of the bytes comes to the same.

* `undercuts_encode`: the bytes of two characters differ where they first do in the direction of the
  characters, and no encoding is the beginning of another one.
* `lt_iff_bytes_lt`: **a text precedes another one exactly if its bytes do.**
-/

namespace Filing.Text

/-- The bytes of a text in UTF-8. -/
def bytes (s : String) : List UInt8 := s.toUTF8.data.toList

theorem bytes_eq (s : String) : bytes s = s.toList.flatMap String.utf8EncodeChar := by
  rw [bytes, String.toUTF8_eq_toByteArray, ← String.utf8Encode_toList, List.utf8Encode,
    List.data_toByteArray]

/-- The lists differ at a place that both have, and the first one has the smaller byte at the first
such place. -/
def Undercuts : List UInt8 → List UInt8 → Prop
  | x :: l, y :: l' => x < y ∨ x = y ∧ Undercuts l l'
  | _, _ => False

theorem Undercuts.append_lt {l l' : List UInt8} (h : Undercuts l l') (r r' : List UInt8) :
    l ++ r < l' ++ r' := by
  induction l generalizing l' with
  | nil => cases h
  | cons x l ih =>
    cases l' with
    | nil => cases h
    | cons y l' =>
      rw [List.cons_append, List.cons_append, List.cons_lt_cons_iff]
      exact h.imp_right fun ⟨heq, h⟩ => ⟨heq, ih h⟩

/-- **The bytes of the smaller character are smaller.**  Either both characters have the same number
of bytes, which are the digits of their numbers, or the shorter encoding starts with a smaller byte.
-/
theorem undercuts_encode {a b : Char} (h : a < b) :
    Undercuts (String.utf8EncodeChar a) (String.utf8EncodeChar b) := by
  have hlt : a.val.toNat < b.val.toNat := h
  have hle : b.val.toNat < 0x110000 := by
    have := b.valid
    simp only [UInt32.isValidChar, Nat.isValidChar] at this
    omega
  -- the digits to the base 64, one after the other
  have hsecond : ∀ n, n / 4096 = n / 64 / 64 := fun n => (Nat.div_div_eq_div_mul n 64 64).symm
  have hthird : ∀ n, n / 262144 = n / 64 / 64 / 64 := fun n => by
    rw [← hsecond, Nat.div_div_eq_div_mul]
  simp only [String.utf8EncodeChar, hsecond, hthird]
  split_ifs <;>
    simp only [Undercuts, UInt8.lt_iff_toNat_lt, ← UInt8.toNat_inj, UInt8.toNat_ofNat',
      and_false, or_false] <;>
    omega

/-- **A text precedes another one exactly if its bytes do.** -/
theorem lt_iff_bytes_lt (s t : String) : s < t ↔ bytes s < bytes t := by
  have hforth : ∀ l l' : List Char, l < l' →
      l.flatMap String.utf8EncodeChar < l'.flatMap String.utf8EncodeChar := by
    intro l
    induction l with
    | nil =>
      intro l' h
      cases l' with
      | nil => exact absurd h (List.lt_irrefl _)
      | cons b l' =>
        rw [List.flatMap_nil, List.flatMap_cons]
        cases hb : String.utf8EncodeChar b with
        | nil => exact absurd hb String.utf8EncodeChar_ne_nil
        | cons y r => exact List.nil_lt_cons _ _
    | cons a l ih =>
      intro l' h
      cases l' with
      | nil => exact absurd h (List.not_lt_nil _)
      | cons b l' =>
        rw [List.flatMap_cons, List.flatMap_cons]
        rcases List.cons_lt_cons_iff.mp h with hlt | ⟨rfl, htail⟩
        · exact (undercuts_encode hlt).append_lt _ _
        · exact List.append_left_lt (ih l' htail)
  rw [bytes_eq, bytes_eq]
  refine ⟨hforth _ _, fun h => ?_⟩
  rcases lt_trichotomy s t with hlt | rfl | hlt
  · exact hlt
  · exact absurd h (List.lt_irrefl _)
  · exact absurd h (List.lt_asymm (hforth _ _ hlt))

end Filing.Text
