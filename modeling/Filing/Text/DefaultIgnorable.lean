import Filing.Text.CharRange

/-!
# Ignorable characters

The characters with the Unicode property `Default_Ignorable_Code_Point`: where nothing is known of
what they do, nothing is drawn for them.  The fillers of Hangul are letters of this kind.  The table
follows Unicode 17.0.
-/

namespace Filing.Text

/-- The numbers with the property `Default_Ignorable_Code_Point`. -/
def defaultIgnorable : List CharRange :=
  [⟨0xad, 0xad⟩, ⟨0x34f, 0x34f⟩, ⟨0x61c, 0x61c⟩, ⟨0x115f, 0x1160⟩, ⟨0x17b4, 0x17b5⟩,
   ⟨0x180b, 0x180f⟩, ⟨0x200b, 0x200f⟩, ⟨0x202a, 0x202e⟩, ⟨0x2060, 0x206f⟩, ⟨0x3164, 0x3164⟩,
   ⟨0xfe00, 0xfe0f⟩, ⟨0xfeff, 0xfeff⟩, ⟨0xffa0, 0xffa0⟩, ⟨0xfff0, 0xfff8⟩, ⟨0x1bca0, 0x1bca3⟩,
   ⟨0x1d173, 0x1d17a⟩, ⟨0xe0000, 0xe0fff⟩]

/-- Whether a character has the Unicode property `Default_Ignorable_Code_Point`. -/
def isIgnorable (c : Char) : Bool := CharRange.covers defaultIgnorable c

theorem defaultIgnorable_separated : CharRange.Separated defaultIgnorable := by decide +kernel

theorem isIgnorable_of_ascii {c : Char} (h : c.toNat ≤ 0x7f) : isIgnorable c = false := by
  have ht : ∀ r ∈ defaultIgnorable, r.last < 0 ∨ 0x7f < r.first := by decide +kernel
  exact CharRange.covers_eq_false ht (Nat.zero_le _) h

end Filing.Text
