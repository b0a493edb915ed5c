import Mathlib.Data.List.TakeWhile
import Filing.Time.Timestamp

/-!
# Written instants are read back

The written form of an instant is read part by part: each part ends where the next character is no
digit, or where it has as many digits as it may have.

* `number?_append`: digits are read up to such an end.
* `year?_writeYear`, `fraction?_writeFraction`: the two parts whose width is not fixed.
* `Timestamp.parse?_text`: **reading undoes writing**, for every instant.
-/

namespace Filing

theorem Text.isBlank_of_isDigit {c : Char} (h : Decimal.isDigit c = true) : isBlank c = false := by
  simp only [Decimal.isDigit, Bool.and_eq_true, decide_eq_true_eq] at h
  simp only [isBlank, Bool.or_eq_false_iff, Bool.and_eq_false_iff, decide_eq_false_iff_not]
  omega

theorem Text.trimStart_cons {c : Char} (h : isBlank c = false) (l : List Char) :
    trimStart (c :: l) = c :: l := by
  rw [trimStart, List.dropWhile_cons_of_neg]
  simp [h]

namespace Timestamp

variable {width : Nat} {ds rest : List Char}

/-- What follows is no digit. -/
def Stops (rest : List Char) : Prop := ∀ c ∈ rest.head?, Decimal.isDigit c = false

theorem stops_cons {c : Char} (h : Decimal.isDigit c = false) : Stops (c :: rest) := by
  intro d hd
  cases hd
  exact h

theorem Stops.takeWhile (h : Stops rest) : rest.takeWhile Decimal.isDigit = [] := by
  cases rest with
  | nil => rfl
  | cons c rest =>
    rw [List.takeWhile_cons_of_neg]
    simp [h c rfl]

theorem Stops.take (h : Stops rest) (n : Nat) : Stops (rest.take n) := by
  cases n with
  | zero => nofun
  | succ n =>
    cases rest with
    | nil => nofun
    | cons c rest => exact stops_cons (h c rfl)

theorem number?_append (hne : ds ≠ []) (hd : ∀ c ∈ ds, Decimal.isDigit c = true)
    (hend : ds.length = width ∨ ds.length ≤ width ∧ Stops rest) :
    number? width (ds ++ rest) = some (Decimal.read ds, rest) := by
  have hdigits : ((ds ++ rest).take width).takeWhile Decimal.isDigit = ds := by
    rcases hend with hlen | ⟨hlen, hstops⟩
    · rw [List.take_left' hlen]
      exact List.takeWhile_eq_self_iff.mpr hd
    · rw [List.take_append, List.take_of_length_le hlen, List.takeWhile_append_of_pos hd,
        (hstops.take _).takeWhile, List.append_nil]
  rw [number?, hdigits, if_neg (by simpa using hne), List.drop_left]

theorem pad_ne_nil {width : Nat} (h : width ≠ 0) (n : Nat) : Decimal.pad width n ≠ [] := by
  rw [← List.length_pos_iff, Decimal.length_pad]
  omega

theorem number?_pad (h : width ≠ 0) (n : Nat) :
    number? width (Decimal.pad width n ++ rest) = some (n % Nat.pow 10 width, rest) := by
  rw [number?_append (pad_ne_nil h n) (fun _ => Decimal.isDigit_of_mem_pad)
    (.inl (Decimal.length_pad width n)), Decimal.read_pad]

theorem trimStart_pad (h : width ≠ 0) (n : Nat) :
    Text.trimStart (Decimal.pad width n ++ rest) = Decimal.pad width n ++ rest := by
  obtain ⟨c, cs, hp⟩ := List.exists_cons_of_ne_nil (pad_ne_nil h n)
  have hc : Decimal.isDigit c = true :=
    Decimal.isDigit_of_mem_pad (hp ▸ List.mem_cons_self : c ∈ Decimal.pad width n)
  rw [hp, List.cons_append, Text.trimStart_cons (Text.isBlank_of_isDigit hc)]

theorem field?_pad {n : Nat} (h : n < 100) :
    field? (Decimal.pad 2 n ++ rest) = some (n, rest) := by
  rw [field?, trimStart_pad (by decide), number?_pad (by decide)]
  exact congrArg (fun m => some (m, rest)) (Nat.mod_eq_of_lt h)

theorem mark?_cons {c : Char} (h : Text.isBlank c = false) : mark? c (c :: rest) = some rest := by
  rw [mark?, Text.trimStart_cons h, char?, if_pos rfl]

/-! ## The year -/

theorem read_zeros (k : Nat) (ds : List Char) :
    Decimal.read (List.replicate k '0' ++ ds) = Decimal.read ds := by
  induction k with
  | zero => rfl
  | succ k ih => exact ih

theorem year?_pad {n : Nat} (h : n < 10000) :
    year? (Decimal.pad 4 n ++ rest) = some ((n : Int), rest) := by
  have hn : number? 4 (Decimal.pad 4 n ++ rest) = some (n, rest) := by
    rw [number?_pad (by decide), Nat.mod_eq_of_lt (show n < Nat.pow 10 4 from h)]
  obtain ⟨c, cs, hp⟩ := List.exists_cons_of_ne_nil (pad_ne_nil (show 4 ≠ 0 by decide) n)
  have hc : Decimal.isDigit c = true :=
    Decimal.isDigit_of_mem_pad (hp ▸ List.mem_cons_self : c ∈ Decimal.pad 4 n)
  rw [year?, trimStart_pad (by decide)]
  rw [hp] at hn ⊢
  -- a digit is no sign
  split
  · next he =>
    rw [(List.cons.inj he).1] at hc
    cases hc
  · next he =>
    rw [(List.cons.inj he).1] at hc
    cases hc
  · rw [hn, Option.map_some]

/-- The digits of a year with a sign, of which there are at least four. -/
def signedYear (n : Nat) : List Char :=
  List.replicate (4 - (Decimal.write n).length) '0' ++ Decimal.write n

theorem number?_signedYear (n : Nat) (hstops : Stops rest) :
    number? (signedYear n ++ rest).length (signedYear n ++ rest) = some (n, rest) := by
  have hdigits : ∀ c ∈ signedYear n, Decimal.isDigit c = true := by
    intro c hc
    rcases List.mem_append.mp hc with hc | hc
    · rw [List.eq_of_mem_replicate hc]
      decide
    · exact Decimal.isDigit_of_mem_write hc
  have hne : signedYear n ≠ [] := by simp [signedYear, Decimal.write_ne_nil]
  have hlength := (List.sublist_append_left (signedYear n) rest).length_le
  rw [number?_append hne hdigits (.inr ⟨hlength, hstops⟩), signedYear, read_zeros,
    Decimal.read_write]

theorem year?_writeYear (y : Int) (hstops : Stops rest) :
    year? (writeYear y ++ rest) = some (y, rest) := by
  rw [writeYear]
  split
  · next hy =>
    rw [year?_pad (by omega), Int.toNat_of_nonneg hy.1]
  · have hn := number?_signedYear y.natAbs hstops
    dsimp only
    rw [← signedYear, List.cons_append]
    split
    · rw [year?, Text.trimStart_cons (by decide)]
      refine (congrArg (Option.map _) hn).trans ?_
      exact congrArg (fun z => some (z, rest)) (by omega)
    · rw [year?, Text.trimStart_cons (by decide)]
      refine (congrArg (Option.map _) hn).trans ?_
      exact congrArg (fun z => some (z, rest)) (by omega)

/-! ## The fraction -/

theorem fraction?_pad {n : Nat} (h : n < Nat.pow 10 width) (h₀ : width ≠ 0) (h₉ : width ≤ 9)
    (hstops : Stops rest) :
    fraction? ('.' :: Decimal.pad width n ++ rest) = some (n * Nat.pow 10 (9 - width), rest) := by
  have hdigits : (Decimal.pad width n ++ rest).takeWhile Decimal.isDigit = Decimal.pad width n := by
    rw [List.takeWhile_append_of_pos fun _ => Decimal.isDigit_of_mem_pad, hstops.takeWhile,
      List.append_nil]
  rw [List.cons_append, fraction?, hdigits, if_neg (by simpa using pad_ne_nil h₀ n)]
  dsimp only
  rw [List.take_of_length_le (by simpa using h₉), Decimal.read_pad, Nat.mod_eq_of_lt h,
    Decimal.length_pad, List.drop_left' (Decimal.length_pad width n)]

theorem fraction?_writeFraction {n : Nat} (h : n < 1000000000) :
    fraction? (writeFraction n ++ ['Z']) = some (n, ['Z']) := by
  rw [writeFraction]
  split
  · next h₀ =>
    rw [h₀]
    rfl
  · split
    · next h₃ =>
      rw [fraction?_pad (show n / 1000000 < Nat.pow 10 3 by
        show n / 1000000 < 1000
        omega) (by decide) (by decide) (stops_cons (by decide))]
      congr 2
      show n / 1000000 * 1000000 = n
      omega
    · split
      · next h₆ =>
        rw [fraction?_pad (show n / 1000 < Nat.pow 10 6 by
          show n / 1000 < 1000000
          omega) (by decide) (by decide) (stops_cons (by decide))]
        congr 2
        show n / 1000 * 1000 = n
        omega
      · rw [fraction?_pad (show n < Nat.pow 10 9 from h) (by decide) (by decide)
          (stops_cons (by decide))]
        congr 2
        exact Nat.mul_one n

/-! ## Instants -/

theorem ofLocal?_self (t : Timestamp) :
    ofLocal? t.date t.hour t.minute t.second t.nano 0 = some t := by
  have hh := t.hour_lt
  have hm := t.minute_lt
  have hsettle : settle? t.date ((t.hour : Int) * 60 + t.minute - 0) =
      some (t.date, t.hour * 60 + t.minute) := by
    rw [settle?, if_neg (by omega), if_pos (by omega)]
    congr 2
  have hdiv : (t.hour * 60 + t.minute) / 60 = t.hour := by omega
  have hmod : (t.hour * 60 + t.minute) % 60 = t.minute := by omega
  rw [ofLocal?, if_pos ⟨hh, hm, by decide, by decide⟩, hsettle, Option.bind_some]
  dsimp only
  rw [dif_pos ⟨by omega, t.second_le, t.nano_lt⟩]
  simp only [hdiv, hmod]

theorem parse?_text (t : Timestamp) : parse? t.text = some t := by
  obtain ⟨_, hmonth, _, hday⟩ := t.date.valid
  have hday : t.date.day < 100 := Nat.lt_of_le_of_lt hday (by
    rw [Date.daysIn]
    split
    · split <;> decide
    · split <;> decide)
  have hdate : ∀ rest, date? (writeYear t.date.year ++ '-' :: (Decimal.pad 2 t.date.month ++
      '-' :: (Decimal.pad 2 t.date.day ++ rest))) = some (t.date, rest) := fun rest => by
    rw [date?, year?_writeYear _ (stops_cons (by decide))]
    simp only [Option.bind_eq_bind, Option.bind_some,
      mark?_cons (show Text.isBlank '-' = false by decide),
      field?_pad (show t.date.month < 100 by omega), field?_pad hday, Date.ofParts?_self]
  have hcolon : Text.isBlank ':' = false := by decide
  have hh := t.hour_lt
  have hm := t.minute_lt
  have hs := t.second_le
  rw [parse?, text, String.toList_ofList, write, read]
  simp only [List.append_assoc, List.cons_append]
  rw [hdate]
  simp only [Option.bind_eq_bind, Option.bind_some, separator?, true_or, if_true,
    field?_pad (show t.hour < 100 by omega), mark?_cons hcolon,
    field?_pad (show t.minute < 100 by omega), field?_pad (show t.second < 100 by omega),
    fraction?_writeFraction t.nano_lt]
  exact ofLocal?_self t

end Timestamp

end Filing
