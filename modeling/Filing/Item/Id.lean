import Filing.Text.Hex

/-!
# Item identifiers

An item identifier is a word of 128 bits.  It is written as 32 hexadecimal digits in groups of 8, 4,
4, 4 and 12, and read in any of four forms: the bare digits, the groups joined by hyphens, the
groups in braces, and the groups after `urn:uuid:`.  Identifiers are ordered as numbers, which is
the order of their bytes and of their written forms.
-/

namespace Filing

/-- A 128-bit identifier. -/
structure ItemId where
  bits : BitVec 128
deriving DecidableEq, Inhabited

namespace ItemId

instance : Ord ItemId := ⟨compareOn bits⟩

instance : Std.TransOrd ItemId := inferInstanceAs (Std.TransCmp (compareOn bits))

instance : Std.LawfulEqOrd ItemId where
  eq_of_compare {a b} h := by
    have h' : compareOn bits a b = .eq := h
    rw [compareOn, Std.compare_eq_iff_eq] at h'
    cases a
    cases b
    cases h'
    rfl

/-- The identifier of a number, which counts modulo `2 ^ 128`. -/
def ofNat (n : Nat) : ItemId := ⟨BitVec.ofNat 128 n⟩

def toNat (id : ItemId) : Nat := id.bits.toNat

/-- The sizes of the hyphenated groups. -/
def groups : List Nat := [8, 4, 4, 4, 12]

/-- Cuts digits into groups and joins the groups by hyphens. -/
def hyphenate : List Nat → List Char → List Char
  | [], cs => cs
  | [_], cs => cs
  | n :: ns, cs => cs.take n ++ '-' :: hyphenate ns (cs.drop n)

/-- Removes the hyphens of groups of the given sizes. -/
def unhyphenate : List Nat → List Char → Option (List Char)
  | [], cs => if cs.isEmpty then some [] else none
  | [n], cs => if cs.length = n then some cs else none
  | n :: ns, cs =>
    match cs.drop n with
    | '-' :: rest => (unhyphenate ns rest).map (cs.take n ++ ·)
    | _ => none

/-- The 32 digits. -/
def digits (id : ItemId) : List Char := Hex.write 32 id.toNat

/-- The 32 digits as a text. -/
def simple (id : ItemId) : String := String.ofList id.digits

/-- The hyphenated form. -/
def text (id : ItemId) : String := String.ofList (hyphenate groups id.digits)

instance : ToString ItemId := ⟨text⟩

instance : Repr ItemId := ⟨fun id _ => repr id.text⟩

/-- Reads 32 digits. -/
def ofDigits? (cs : List Char) : Option ItemId :=
  if cs.length = 32 then (Hex.read cs).map ofNat else none

/-- Reads the hyphenated form. -/
def ofGroups? (cs : List Char) : Option ItemId := (unhyphenate groups cs).bind ofDigits?

/-- What precedes the groups in the form of a uniform resource name. -/
def urn : List Char := "urn:uuid:".toList

/-- Reads an identifier in any of its four forms. -/
def parse? (s : String) : Option ItemId :=
  let cs := s.toList
  match cs.length with
  | 32 => ofDigits? cs
  | 36 => ofGroups? cs
  | 38 =>
    if cs.head? = some '\x7b' ∧ cs.getLast? = some '\x7d' then ofGroups? (cs.drop 1).dropLast
    else none
  | 45 =>
    if (cs.take urn.length).map Char.toLower = urn then ofGroups? (cs.drop urn.length) else none
  | _ => none

end ItemId

end Filing
